/-
Logs of queues.

A family of queues, indexed by a type `κ`, is changed by appending to one of
them, prepending to one, or taking the first entry of one.  A log lists these
events, the latest first.  `replay` is the queues it leaves; a log is `Valid`
if nothing is put in a queue while it is in one, and what is taken was first.

The result is `Valid.fifo`: of two entries that wait in one queue, both
appended, the one appended first is the first to be taken.  Prepending in
between does no harm: it puts others in front of both.
-/
import Mathlib.Data.List.Nodup
import Mathlib.Logic.Function.Basic

namespace QueueLog

/-- What happens to the queues; `take` says who took the entry. -/
inductive Event (κ α τ : Type)
  | append (q : κ) (x : α)
  | prepend (q : κ) (x : α)
  | take (q : κ) (x : α) (w : τ)
  deriving DecidableEq, Repr

variable {κ α τ : Type}

/-- No event of the log puts `x` in a queue. -/
def NotPushed (x : α) (l : List (Event κ α τ)) : Prop :=
  ∀ e ∈ l, ∀ q, e ≠ .append q x ∧ e ≠ .prepend q x

theorem NotPushed.tail {x : α} {e : Event κ α τ} {l : List (Event κ α τ)}
    (h : NotPushed x (e :: l)) : NotPushed x l :=
  fun e' he' => h e' (List.mem_cons_of_mem e he')

/-- `x` and `y` were both appended to queue `q`, `x` first, and have not been
put in a queue since. -/
def AppendedBefore (q : κ) (x y : α) (l : List (Event κ α τ)) : Prop :=
  ∃ l₁ l₂ l₃, l = l₁ ++ .append q y :: (l₂ ++ .append q x :: l₃) ∧
    NotPushed x (l₁ ++ l₂) ∧ NotPushed y l₁

/-- In the log, `w` does not take `y` before it has taken `x`. -/
def TakenFirst (w : τ) (x y : α) (l : List (Event κ α τ)) : Prop :=
  ∀ l₁ l₂ q, l = l₁ ++ .take q y w :: l₂ → ∃ q', .take q' x w ∈ l₂

/-- The event can happen: an entry that is put in a queue is in none, an entry
that is taken is the first one. -/
def Event.Enabled (d : κ → List α) : Event κ α τ → Prop
  | .append _ x | .prepend _ x => ∀ q, x ∉ d q
  | .take q x _ => (d q).head? = some x

/-- An entry is in one queue, once. -/
structure Once (d : κ → List α) : Prop where
  nodup : ∀ q, (d q).Nodup
  unique : ∀ x q q', x ∈ d q → x ∈ d q' → q = q'

/-- The entry that is taken is first in its queue, and in no other place. -/
theorem Once.first {d : κ → List α} (h : Once d) {q q' : κ} {x : α} {w : τ}
    (he : (Event.take q' x w).Enabled d) (hx : x ∈ d q) :
    q = q' ∧ ∃ xs, d q = x :: xs ∧ x ∉ xs := by
  have hhead : (d q').head? = some x := he
  have hqq : q = q' := h.unique x q q' hx (List.mem_of_mem_head? hhead)
  subst hqq
  have hnd := h.nodup q
  rw [← List.cons_head?_tail hhead, List.nodup_cons] at hnd
  exact ⟨rfl, (d q).tail, (List.cons_head?_tail hhead).symm, hnd.1⟩

/-- Of two entries in one queue, the second is not the one that is taken. -/
theorem Once.not_take_second {d : κ → List α} (h : Once d) {q q' : κ} {x y : α} {w : τ}
    (hd : [x, y].Sublist (d q)) : ¬ (Event.take q' y w).Enabled d := by
  intro he
  obtain ⟨-, ys, hq, hy⟩ := h.first he (hd.subset (by simp))
  rw [hq] at hd
  cases hd with
  | cons _ hd => exact hy (hd.subset (by simp))
  | cons_cons _ hd => exact hy (hd.subset (by simp))

variable [DecidableEq κ]

/-- What one event does to the queues. -/
def Event.apply (d : κ → List α) : Event κ α τ → κ → List α
  | .append q x => Function.update d q (d q ++ [x])
  | .prepend q x => Function.update d q (x :: d q)
  | .take q _ _ => Function.update d q (d q).tail

/-- The queues a log leaves. -/
def replay : List (Event κ α τ) → κ → List α
  | [] => fun _ => []
  | e :: l => e.apply (replay l)

/-- Every event of the log could happen when it did. -/
def Valid : List (Event κ α τ) → Prop
  | [] => True
  | e :: l => e.Enabled (replay l) ∧ Valid l

/-! ### What is in the queues -/

theorem mem_apply_of_not_pushed {d : κ → List α} {e : Event κ α τ} {x : α} {q : κ}
    (he : ∀ q, e ≠ .append q x ∧ e ≠ .prepend q x) (hx : x ∈ e.apply d q) : x ∈ d q := by
  cases e with
  | append q' y =>
    have hne : x ≠ y := fun h => (he q').1 (by rw [h])
    by_cases hq : q = q'
    · subst hq
      simpa [Event.apply, hne] using hx
    · simpa [Event.apply, hq] using hx
  | prepend q' y =>
    have hne : x ≠ y := fun h => (he q').2 (by rw [h])
    by_cases hq : q = q'
    · subst hq
      simpa [Event.apply, hne] using hx
    · simpa [Event.apply, hq] using hx
  | take q' y w =>
    by_cases hq : q = q'
    · subst hq
      rw [Event.apply, Function.update_self] at hx
      exact List.mem_of_mem_tail hx
    · simpa [Event.apply, hq] using hx

theorem Once.apply {d : κ → List α} (h : Once d) {e : Event κ α τ} (he : e.Enabled d) :
    Once (e.apply d) := by
  -- what the event puts in a queue was in none, all else was there before
  have mem : ∀ x q, x ∈ e.apply d q → x ∈ d q ∨ (∀ q, x ∉ d q) ∧
      (e = .append q x ∨ e = .prepend q x) := by
    intro x q hx
    by_cases hp : ∀ q, e ≠ .append q x ∧ e ≠ .prepend q x
    · exact .inl (mem_apply_of_not_pushed hp hx)
    · cases e with
      | append q' y =>
        have hxy : y = x := by simpa using hp
        subst hxy
        by_cases hq : q = q'
        · exact .inr ⟨he, .inl (by rw [hq])⟩
        · exact .inl (by simpa [Event.apply, hq] using hx)
      | prepend q' y =>
        have hxy : y = x := by simpa using hp
        subst hxy
        by_cases hq : q = q'
        · exact .inr ⟨he, .inr (by rw [hq])⟩
        · exact .inl (by simpa [Event.apply, hq] using hx)
      | take q' y w => exact absurd hp (by simp)
  constructor
  · intro q
    cases e with
    | append q' y =>
      by_cases hq : q = q'
      · subst hq
        rw [Event.apply, Function.update_self]
        exact (List.nodup_append_comm.mp (List.nodup_cons.mpr ⟨he q, h.nodup q⟩))
      · rw [Event.apply, Function.update_of_ne hq]
        exact h.nodup q
    | prepend q' y =>
      by_cases hq : q = q'
      · subst hq
        rw [Event.apply, Function.update_self]
        exact List.nodup_cons.mpr ⟨he q, h.nodup q⟩
      · rw [Event.apply, Function.update_of_ne hq]
        exact h.nodup q
    | take q' y w =>
      by_cases hq : q = q'
      · subst hq
        rw [Event.apply, Function.update_self]
        exact (h.nodup q).tail
      · rw [Event.apply, Function.update_of_ne hq]
        exact h.nodup q
  · intro x q q' hx hx'
    rcases mem x q hx with hd | ⟨hn, he₁⟩
    · rcases mem x q' hx' with hd' | ⟨hn, -⟩
      · exact h.unique x q q' hd hd'
      · exact absurd hd (hn q)
    · rcases mem x q' hx' with hd' | ⟨-, he₂⟩
      · exact absurd hd' (hn q')
      · rcases he₁ with he₁ | he₁ <;> rcases he₂ with he₂ | he₂ <;> rw [he₁] at he₂ <;>
          cases he₂ <;> rfl

theorem Valid.once {l : List (Event κ α τ)} (h : Valid l) : Once (replay l) := by
  induction l with
  | nil => exact ⟨fun _ => List.nodup_nil, fun x _ _ hx => absurd hx List.not_mem_nil⟩
  | cons e l ih => exact (ih h.2).apply h.1

/-! ### First come, first served -/

/-- While neither of two entries is put in a queue again and the first is not
taken, they keep their order. -/
theorem Event.apply_before {d : κ → List α} {e : Event κ α τ} (he : e.Enabled d)
    {q : κ} {x y : α} (hd : [x, y].Sublist (d q)) (hx : ∀ q' w, e ≠ .take q' x w) :
    [x, y].Sublist (e.apply d q) := by
  cases e with
  | append q' z =>
    by_cases hq : q = q'
    · subst hq
      rw [Event.apply, Function.update_self]
      exact hd.trans (List.sublist_append_left _ _)
    · rwa [Event.apply, Function.update_of_ne hq]
  | prepend q' z =>
    by_cases hq : q = q'
    · subst hq
      rw [Event.apply, Function.update_self]
      exact hd.trans (List.sublist_cons_self _ _)
    · rwa [Event.apply, Function.update_of_ne hq]
  | take q' z w =>
    by_cases hq : q = q'
    · subst hq
      rw [Event.apply, Function.update_self]
      have hz : (d q).head? = some z := he
      have hne : x ≠ z := fun h => hx q w (by rw [h])
      cases hdq : d q with
      | nil => simp [hdq] at hz
      | cons z' zs =>
        rw [hdq, List.head?_cons, Option.some_inj] at hz
        rw [hdq] at hd
        cases hd with
        | cons _ hd => exact hd
        | cons_cons _ hd => exact absurd hz hne
    · rwa [Event.apply, Function.update_of_ne hq]

/-- Two entries in order stay in order while the first is not taken. -/
theorem Valid.before {l l' : List (Event κ α τ)} (h : Valid (l' ++ l)) {q : κ} {x y : α}
    (hd : [x, y].Sublist (replay l q)) (hx : ∀ q' w, .take q' x w ∉ l') :
    [x, y].Sublist (replay (l' ++ l) q) := by
  induction l' with
  | nil => exact hd
  | cons e l' ih =>
    have hrest : [x, y].Sublist (replay (l' ++ l) q) :=
      ih h.2 fun q' w hm => hx q' w (List.mem_cons_of_mem e hm)
    exact Event.apply_before h.1 hrest fun q' w he => hx q' w (by rw [he]; simp)

/-- Two entries that were appended to a queue one after the other are in it in
that order. -/
theorem AppendedBefore.before {l : List (Event κ α τ)} (hv : Valid l) {q : κ} {x y : α}
    (hne : x ≠ y) (h : AppendedBefore q x y l) (hx : x ∈ replay l q) (hy : y ∈ replay l q) :
    [x, y].Sublist (replay l q) := by
  obtain ⟨l₁, l₂, l₃, rfl, hpx, hpy⟩ := h
  -- back from the end of the log to the moment `y` was appended
  induction l₁ with
  | nil =>
    have hx' : x ∈ replay (l₂ ++ .append q x :: l₃ : List (Event κ α τ)) q := by
      simpa [replay, Event.apply, hne] using hx
    rw [List.nil_append, replay, Event.apply, Function.update_self]
    exact (List.singleton_sublist.mpr hx').append (List.Sublist.refl [y])
  | cons e l₁ ih =>
    have hpx' : ∀ q, e ≠ .append q x ∧ e ≠ .prepend q x := hpx e (by simp)
    have hpy' : ∀ q, e ≠ .append q y ∧ e ≠ .prepend q y := hpy e (by simp)
    have hrest := ih hv.2 (mem_apply_of_not_pushed hpx' hx) (mem_apply_of_not_pushed hpy' hy)
      hpx.tail hpy.tail
    refine Event.apply_before hv.1 hrest ?_
    -- a `take` of `x` would leave `x` in no queue
    rintro q' w rfl
    obtain ⟨rfl, xs, hq, hxs⟩ := hv.2.once.first hv.1 (hrest.subset (by simp))
    have hx' : x ∈ (replay (l₁ ++ .append q y :: (l₂ ++ .append q x :: l₃)) q).tail := by
      simpa [replay, Event.apply] using hx
    exact hxs (by rwa [show replay (l₁ ++ .append q y :: (l₂ ++ .append q x :: l₃)) q = _ from hq]
      at hx')

/-- **First come, first served**: of two entries in order in a queue, the second
is not taken before the first has been. -/
theorem Valid.fifo {l l' : List (Event κ α τ)} (h : Valid (l' ++ l)) {q : κ} {x y : α}
    (hd : [x, y].Sublist (replay l q)) {l₁ l₂ : List (Event κ α τ)} {q' : κ} {w : τ}
    (hl : l' = l₁ ++ .take q' y w :: l₂) : ∃ q'' w', .take q'' x w' ∈ l₂ := by
  by_contra hno
  push Not at hno
  subst hl
  have hv : Valid (Event.take q' y w :: (l₂ ++ l)) := by
    rw [List.append_assoc] at h
    clear hd hno
    induction l₁ with
    | nil => exact h
    | cons e l₁ ih => exact ih h.2
  exact hv.2.once.not_take_second (hv.2.before hd hno) hv.1

end QueueLog
