/-
The running maximum.

A loop goes over a list with the best key so far and the element it belongs
to, and takes the next element when its key is larger.  Ties go to the element
that came first.  The best key starts at a sentinel below all keys.  A running
minimum is the same for the negated keys.

* `FirstMax` — the first element among those with the largest key;
* `runningMax_firstMax` — what the loop finds;
* `foldl_keepBest` — a loop that passes over some elements and keeps a value of
  the best one.
-/
import Mathlib.Data.List.Basic
import Mathlib.Order.Lattice

namespace RunningMax

variable {α β : Type} [LinearOrder β] (key : α → β)

/-- The loop, with the best key so far and its element. -/
def runningMax : β → Option α → List α → Option α
  | _, arg, [] => arg
  | best, arg, x :: xs =>
    if best < key x then runningMax (key x) (some x) xs else runningMax best arg xs

/-- `x` stands in the list, keys before it are smaller and no key after it is
larger. -/
def FirstMax (l : List α) (x : α) : Prop :=
  ∃ l₁ l₂, l = l₁ ++ x :: l₂ ∧ (∀ y ∈ l₁, key y < key x) ∧ ∀ y ∈ l₂, key y ≤ key x

variable {key}

theorem FirstMax.mem {l : List α} {x : α} (h : FirstMax key l x) : x ∈ l := by
  obtain ⟨l₁, l₂, rfl, -, -⟩ := h
  simp

/-- The element found has the largest key. -/
theorem FirstMax.le {l : List α} {x y : α} (h : FirstMax key l x) (hy : y ∈ l) : key y ≤ key x := by
  obtain ⟨l₁, l₂, rfl, h₁, h₂⟩ := h
  rw [List.mem_append, List.mem_cons] at hy
  rcases hy with hy | rfl | hy
  · exact le_of_lt (h₁ y hy)
  · exact le_refl _
  · exact h₂ y hy

/-- An element in front whose key is smaller does not matter. -/
theorem FirstMax.cons {l : List α} {x y : α} (h : FirstMax key l x) (hy : key y < key x) :
    FirstMax key (y :: l) x := by
  obtain ⟨l₁, l₂, rfl, h₁, h₂⟩ := h
  refine ⟨y :: l₁, l₂, rfl, ?_, h₂⟩
  intro z hz
  rcases List.mem_cons.mp hz with rfl | hz
  · exact hy
  · exact h₁ z hz

/-- The loop with an element in hand keeps it, or finds a first largest one that is
larger. -/
theorem runningMax_some (a : α) (l : List α) :
    ∃ x, runningMax key (key a) (some a) l = some x ∧
      (x = a ∧ (∀ y ∈ l, key y ≤ key a) ∨ key a < key x ∧ FirstMax key l x) := by
  induction l generalizing a with
  | nil => exact ⟨a, rfl, .inl ⟨rfl, by simp⟩⟩
  | cons y l ih =>
    rw [runningMax]
    by_cases hy : key a < key y
    · obtain ⟨x, hx, hcase⟩ := ih y
      rw [if_pos hy]
      refine ⟨x, hx, .inr ?_⟩
      rcases hcase with ⟨rfl, hle⟩ | ⟨hlt, hmax⟩
      · exact ⟨hy, [], l, rfl, by simp, hle⟩
      · exact ⟨lt_trans hy hlt, hmax.cons hlt⟩
    · obtain ⟨x, hx, hcase⟩ := ih a
      have hle := not_lt.mp hy
      rw [if_neg hy]
      refine ⟨x, hx, ?_⟩
      rcases hcase with ⟨rfl, hall⟩ | ⟨hlt, hmax⟩
      · refine .inl ⟨rfl, ?_⟩
        intro z hz
        rcases List.mem_cons.mp hz with rfl | hz
        · exact hle
        · exact hall z hz
      · exact .inr ⟨hlt, hmax.cons (lt_of_le_of_lt hle hlt)⟩

/-- **The loop finds the first largest element**, if the sentinel is below all
keys and there is an element. -/
theorem runningMax_firstMax {b : β} {l : List α} (h : ∀ x ∈ l, b < key x) (hne : l ≠ []) :
    ∃ x, runningMax key b none l = some x ∧ FirstMax key l x := by
  obtain ⟨y, l, rfl⟩ := List.exists_cons_of_ne_nil hne
  obtain ⟨x, hx, hcase⟩ := @runningMax_some α β _ key y l
  rw [runningMax, if_pos (h y List.mem_cons_self)]
  refine ⟨x, hx, ?_⟩
  rcases hcase with ⟨rfl, hle⟩ | ⟨hlt, hmax⟩
  · exact ⟨[], l, rfl, by simp, hle⟩
  · exact hmax.cons hlt

/-- A step of a loop that passes over the elements without `p` and keeps, with the best
key, the value of `f` at its element. -/
def keepBest {γ : Type} (key : α → β) (p : α → Bool) (f : α → γ) (s : β × Option γ) (x : α) :
    β × Option γ :=
  if p x = true ∧ s.1 < key x then (key x, some (f x)) else s

theorem foldl_keepBest {γ : Type} (p : α → Bool) (f : α → γ) (b : β) (arg : Option α) (l : List α) :
    (l.foldl (keepBest key p f) (b, arg.map f)).2 =
      (runningMax key b arg (l.filter p)).map f := by
  induction l generalizing b arg with
  | nil => rfl
  | cons x l ih =>
    rw [List.foldl_cons, List.filter_cons, keepBest]
    by_cases hp : p x = true
    · rw [if_pos hp, runningMax]
      by_cases hlt : b < key x
      · rw [if_pos ⟨hp, hlt⟩, if_pos hlt]
        exact ih (key x) (some x)
      · rw [if_neg fun h => hlt h.2, if_neg hlt]
        exact ih b arg
    · rw [if_neg fun h => hp h.1, if_neg hp]
      exact ih b arg

end RunningMax
