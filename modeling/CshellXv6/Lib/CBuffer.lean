/-
A buffer that texts are written to one after the other.

Calls such as `readlink` write a text over the first bytes of a buffer and put
no terminator behind it.  Read as a string, the buffer then goes on with what
earlier and longer texts have left.

* `text_overlay` — the string is the text and what is left behind it;
* `text_overlay_iff` — it is the text alone exactly when a terminator stands
  behind it already;
* `getElem?_foldl_overlay` — where a terminator is left after several texts.
-/
import Mathlib.Data.List.Basic
import Mathlib.Data.List.TakeWhile

namespace CBuffer

variable {α : Type}

/-- Write a text over the first bytes. -/
def overlay (b t : List α) : List α := t ++ b.drop t.length

/-- The string in the buffer, up to the terminator `z`. -/
def text [DecidableEq α] (z : α) (b : List α) : List α := b.takeWhile (· ≠ z)

variable {z : α} {b t : List α}

theorem length_overlay (h : t.length ≤ b.length) : (overlay b t).length = b.length := by
  rw [overlay, List.length_append, List.length_drop]
  omega

theorem getElem?_overlay_lt {i : ℕ} (h : i < t.length) : (overlay b t)[i]? = t[i]? :=
  List.getElem?_append_left h

theorem getElem?_overlay_ge {i : ℕ} (h : t.length ≤ i) : (overlay b t)[i]? = b[i]? := by
  rw [overlay, List.getElem?_append_right h, List.getElem?_drop]
  congr 1
  omega

/-- A text has no terminator in it. -/
theorem getElem?_overlay_iff (ht : z ∉ t) (i : ℕ) :
    (overlay b t)[i]? = some z ↔ t.length ≤ i ∧ b[i]? = some z := by
  by_cases hi : i < t.length
  · rw [getElem?_overlay_lt hi]
    constructor
    · exact fun h => absurd (List.mem_of_getElem? h) ht
    · exact fun h => absurd h.1 (by omega)
  · rw [getElem?_overlay_ge (by omega)]
    exact ⟨fun h => ⟨by omega, h⟩, fun h => h.2⟩

/-- Behind several texts: a terminator is left where it was if none of them
got there. -/
theorem getElem?_foldl_overlay {ts : List (List α)} (hts : ∀ t ∈ ts, z ∉ t) (i : ℕ) :
    (ts.foldl overlay b)[i]? = some z ↔ (∀ t ∈ ts, t.length ≤ i) ∧ b[i]? = some z := by
  induction ts generalizing b with
  | nil => simp
  | cons t ts ih =>
    rw [List.foldl_cons, ih fun t ht => hts t (List.mem_cons_of_mem _ ht),
      getElem?_overlay_iff (hts t List.mem_cons_self), List.forall_mem_cons]
    tauto

theorem length_foldl_overlay {ts : List (List α)} (h : ∀ t ∈ ts, t.length ≤ b.length) :
    (ts.foldl overlay b).length = b.length := by
  induction ts generalizing b with
  | nil => rfl
  | cons t ts ih =>
    have hlen := length_overlay (h t List.mem_cons_self)
    rw [List.foldl_cons, ih, hlen]
    intro t' ht'
    rw [hlen]
    exact h t' (List.mem_cons_of_mem _ ht')

variable [DecidableEq α]

theorem text_overlay (ht : z ∉ t) : text z (overlay b t) = t ++ text z (b.drop t.length) := by
  refine List.takeWhile_append_of_pos fun c hc => ?_
  have hne : c ≠ z := by
    rintro rfl
    exact ht hc
  simpa using hne

theorem text_eq_nil_iff {b : List α} (hb : b ≠ []) : text z b = [] ↔ b[0]? = some z := by
  cases b with
  | nil => exact absurd rfl hb
  | cons c b =>
    rw [text, List.takeWhile_eq_nil_iff]
    simp

/-- **The string is the text alone** exactly when a terminator stands behind it
already. -/
theorem text_overlay_iff (ht : z ∉ t) (hlt : t.length < b.length) :
    text z (overlay b t) = t ↔ b[t.length]? = some z := by
  have hne : b.drop t.length ≠ [] := by
    intro h
    have := congrArg List.length h
    rw [List.length_drop, List.length_nil] at this
    omega
  rw [text_overlay ht, List.append_right_eq_self, text_eq_nil_iff hne, List.getElem?_drop,
    Nat.add_zero]

end CBuffer
