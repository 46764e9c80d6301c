/-
Redo logs and atomic stores.

A redo log keeps copies of blocks and a list that says where they belong;
`replay` copies them home.

* `replay_update` — replaying forgets what stood at the places it writes, so
  that it can be cut short and begun again;
* `replay_of_copies` — replaying copies of a memory makes its places agree
  with that memory.

`AtomicStore` is what such a log is for: a store whose clients change it in
transactions.  Only states in which no transaction is open are made durable,
and a crash goes back to the last of them.
-/
import CshellXv6.Lib.Transition
import Mathlib.Logic.Function.Basic

namespace RedoLog

variable {α : Type}

/-- Copy the log's blocks, from number `tail` on, to the places listed. -/
def replay (copies : ℕ → α) : List ℕ → ℕ → (ℕ → α) → (ℕ → α)
  | [], _, home => home
  | b :: bs, tail, home => replay copies bs (tail + 1) (Function.update home b (copies tail))

variable {copies : ℕ → α} {bs : List ℕ} {tail : ℕ} {home home' : ℕ → α} {b : ℕ}

theorem replay_of_not_mem (h : b ∉ bs) : replay copies bs tail home b = home b := by
  induction bs generalizing tail home with
  | nil => rfl
  | cons c bs ih =>
    rw [List.mem_cons, not_or] at h
    rw [replay, ih h.2, Function.update_of_ne h.1]

/-- Only the places that are not written count. -/
theorem replay_congr (h : ∀ b, b ∉ bs → home b = home' b) :
    replay copies bs tail home = replay copies bs tail home' := by
  induction bs generalizing tail home home' with
  | nil =>
    funext b
    exact h b List.not_mem_nil
  | cons c bs ih =>
    rw [replay, replay]
    refine ih fun b hb => ?_
    by_cases hbc : b = c
    · subst hbc
      simp
    · rw [Function.update_of_ne hbc, Function.update_of_ne hbc]
      exact h b (by simp [hbc, hb])

/-- What stands at a place that is going to be written does not matter. -/
theorem replay_update (h : b ∈ bs) (v : α) :
    replay copies bs tail (Function.update home b v) = replay copies bs tail home := by
  refine replay_congr fun c hc => Function.update_of_ne ?_ v home
  rintro rfl
  exact hc h

/-- The copies agree with a memory, block by block. -/
def Copies (copies : ℕ → α) (mem : ℕ → α) (bs : List ℕ) (tail : ℕ) : Prop :=
  ∀ j b, bs[j]? = some b → copies (tail + j) = mem b

theorem Copies.cons {mem : ℕ → α} {c : ℕ} :
    Copies copies mem (c :: bs) tail ↔ copies tail = mem c ∧ Copies copies mem bs (tail + 1) := by
  constructor
  · intro h
    refine ⟨h 0 c rfl, fun j b hj => ?_⟩
    rw [Nat.add_assoc, Nat.add_comm 1 j]
    exact h (j + 1) b hj
  · rintro ⟨h₀, h⟩ j b hj
    cases j with
    | zero =>
      obtain rfl : c = b := by simpa using hj
      exact h₀
    | succ j =>
      rw [← Nat.add_assoc, Nat.add_right_comm]
      exact h j b hj

/-- Replaying copies of a memory: the places written agree with it. -/
theorem replay_of_copies {mem : ℕ → α} (h : Copies copies mem bs tail) (hb : b ∈ bs) :
    replay copies bs tail home b = mem b := by
  induction bs generalizing tail home with
  | nil => cases hb
  | cons c bs ih =>
    rw [Copies.cons] at h
    rw [replay]
    by_cases hbs : b ∈ bs
    · exact ih h.2 hbs
    · obtain rfl : b = c := by simpa [hbs] using hb
      rw [replay_of_not_mem hbs, Function.update_self, h.1]

/-- If all other places agree too, replaying gives the memory back. -/
theorem replay_eq_of_copies {mem : ℕ → α} (h : Copies copies mem bs tail)
    (hrest : ∀ b, b ∉ bs → home b = mem b) : replay copies bs tail home = mem := by
  funext b
  by_cases hb : b ∈ bs
  · exact replay_of_copies h hb
  · rw [replay_of_not_mem hb, hrest b hb]

end RedoLog

/-- A store of blocks: what survives a crash, what the clients see, and the
clients with an open transaction. -/
structure AtomicStore (T α : Type) where
  durable : ℕ → α
  view : ℕ → α
  openBy : List T

namespace AtomicStore

variable {T α : Type}

inductive Act (T α : Type) where
  | begin (t : T)
  | write (t : T) (b : ℕ) (v : α)
  | finish (t : T)
  | commit
  | crash

/-- A client writes only in its transaction; the store is made durable only
while no transaction is open. -/
def step [DecidableEq T] (s : AtomicStore T α) : Act T α → Option (AtomicStore T α)
  | .begin t => if s.openBy.contains t then none else some { s with openBy := t :: s.openBy }
  | .write t b v =>
    if s.openBy.contains t then some { s with view := Function.update s.view b v } else none
  | .finish t =>
    if s.openBy.contains t then some { s with openBy := s.openBy.erase t } else none
  | .commit => if s.openBy.isEmpty then some { s with durable := s.view } else none
  | .crash => some { s with view := s.durable, openBy := [] }

/-- The atomic store, from any contents. -/
def sys [DecidableEq T] : Sys (AtomicStore T α) (Act T α) where
  init s := s.durable = s.view ∧ s.openBy = []
  step := step

end AtomicStore
