/-
Circular buffers.

`n` slots in a row, read and written modulo `n`: `Holds n f h xs` says that the
slots of `f` from `h` on, wrapping around, are the list `xs`.  The three rules
are those of a double-ended queue:

* `Holds.append` — writing the slot behind the last one appends;
* `Holds.cons` — writing the slot before the first one prepends;
* `Holds.tail` — stepping over the first slot drops it.

A buffer of `n` slots has room for `n` elements: the first two need one slot
left.
-/
import Mathlib.Data.Int.ModEq
import Mathlib.Data.List.Basic
import Mathlib.Tactic.Ring

namespace CircularBuffer

variable {α : Type} {n : ℕ} {f : ℤ → Option α} {h : ℤ} {xs : List α}

/-- The slots of `f` from `h` on, modulo `n`, hold `xs`. -/
def Holds (n : ℕ) (f : ℤ → Option α) (h : ℤ) (xs : List α) : Prop :=
  ∀ i : ℕ, i < xs.length → f ((h + i) % n) = xs[i]?

/-- Fewer than `n` steps apart, two slots are different. -/
theorem slot_inj {i j : ℕ} (hi : i < n) (hj : j < n) (he : (h + i) % n = (h + j) % n) :
    i = j := by
  have hm : (i : ℤ) ≡ j [ZMOD n] := Int.ModEq.add_left_cancel' h he
  have := hm.eq
  rw [Int.emod_eq_of_lt (by omega) (by omega), Int.emod_eq_of_lt (by omega) (by omega)] at this
  omega

theorem Holds.congr {g : ℤ → Option α} (hh : Holds n f h xs)
    (hg : ∀ i : ℕ, i < xs.length → g ((h + i) % n) = f ((h + i) % n)) : Holds n g h xs :=
  fun i hi => (hg i hi).trans (hh i hi)

/-- Only the position modulo `n` counts. -/
theorem Holds.emod (hh : Holds n f h xs) : Holds n f (h % n) xs := by
  intro i hi
  rw [Int.emod_add_emod]
  exact hh i hi

theorem Holds.nil : Holds n f h [] := fun _ hi => absurd hi (Nat.not_lt_zero _)

theorem Holds.append (hh : Holds n f h xs) (hlt : xs.length < n) (x : α) :
    Holds n (Function.update f ((h + xs.length) % n) (some x)) h (xs ++ [x]) := by
  intro i hi
  rw [List.length_append, List.length_singleton] at hi
  by_cases hx : i = xs.length
  · subst hx
    rw [Function.update_self, List.getElem?_append_right le_rfl, Nat.sub_self]
    rfl
  · have hi' : i < xs.length := by omega
    rw [List.getElem?_append_left hi', Function.update_of_ne]
    · exact hh i hi'
    · intro he
      exact hx (slot_inj (by omega) hlt he)

theorem Holds.cons (hh : Holds n f h xs) (hlt : xs.length < n) (x : α) :
    Holds n (Function.update f ((h - 1) % n) (some x)) (h - 1) (x :: xs) := by
  intro i hi
  cases i with
  | zero => simp
  | succ i =>
    have hi' : i < xs.length := by simpa using hi
    have hs : h - 1 + ((i + 1 : ℕ) : ℤ) = h + i := by push_cast; ring
    rw [hs, List.getElem?_cons_succ, Function.update_of_ne]
    · exact hh i hi'
    · -- the slots of `xs` are 1 to `xs.length` steps away from the new first slot
      intro he
      have h0 : (h - 1 + ((i + 1 : ℕ) : ℤ)) % n = (h - 1 + ((0 : ℕ) : ℤ)) % n := by
        rw [hs, he, Nat.cast_zero, add_zero]
      have := slot_inj (n := n) (by omega) (by omega) h0
      omega

theorem Holds.tail {x : α} (hh : Holds n f h (x :: xs)) :
    f (h % n) = some x ∧ Holds n f (h + 1) xs := by
  refine ⟨by simpa using hh 0 (by simp), ?_⟩
  intro i hi
  have := hh (i + 1) (by simpa using hi)
  rw [List.getElem?_cons_succ] at this
  rw [← this]
  congr 2
  push_cast
  ring

/-- Reading the slots gives the list back. -/
theorem Holds.eq_filterMap (hh : Holds n f h xs) :
    (List.range xs.length).filterMap (fun i : ℕ => f ((h + i) % n)) = xs := by
  have hc : (List.range xs.length).filterMap (fun i : ℕ => f ((h + i) % n)) =
      (List.range xs.length).filterMap (fun i => xs[i]?) :=
    List.filterMap_congr fun i hi => hh i (List.mem_range.mp hi)
  rw [hc]
  clear hc hh
  induction xs with
  | nil => rfl
  | cons x xs ih =>
    rw [List.length_cons, List.range_succ_eq_map, List.filterMap_cons]
    simpa [List.filterMap_map, Function.comp_def] using ih

end CircularBuffer
