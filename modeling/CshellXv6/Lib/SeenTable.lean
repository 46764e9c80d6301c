/-
Passing on what was not seen before, with a table of limited size.

Each element is looked up in a table of those seen so far.  One that is not
there is passed on, and entered as long as the table has room; when it is full,
new elements are passed on each time they come.

* `pass_sublist` — the order is kept;
* `count_pass` — what is in the table in the end was passed on once, everything
  else as often as it came;
* `table_eq` — the table holds the first elements, each once.
-/
import Mathlib.Data.List.Basic
import Mathlib.Data.List.Count
import Mathlib.Data.List.Lattice

namespace SeenTable

variable {α : Type} [DecidableEq α]

/-- An element that is not in the table is entered if there is room. -/
def enter (cap : ℕ) (seen : List α) (x : α) : List α :=
  if seen.length < cap then seen ++ [x] else seen

/-- What is passed on. -/
def pass (cap : ℕ) : List α → List α → List α
  | _, [] => []
  | seen, x :: xs =>
    if x ∈ seen then pass cap seen xs else x :: pass cap (enter cap seen x) xs

/-- The table in the end. -/
def table (cap : ℕ) : List α → List α → List α
  | seen, [] => seen
  | seen, x :: xs => if x ∈ seen then table cap seen xs else table cap (enter cap seen x) xs

variable {cap : ℕ} {seen xs : List α} {x : α}

omit [DecidableEq α] in
theorem mem_enter (h : x ∈ seen) (cap : ℕ) (y : α) : x ∈ enter cap seen y := by
  unfold enter
  split
  · exact List.mem_append_left _ h
  · exact h

theorem mem_table_of_mem (h : x ∈ seen) : x ∈ table cap seen xs := by
  induction xs generalizing seen with
  | nil => exact h
  | cons y xs ih =>
    unfold table
    split
    · exact ih h
    · exact ih (mem_enter h cap y)

/-- A full table stays as it is. -/
theorem table_full (h : cap ≤ seen.length) : table cap seen xs = seen := by
  induction xs with
  | nil => rfl
  | cons y xs ih =>
    have henter : enter cap seen y = seen := if_neg (by omega)
    rw [table, henter, ih, ite_self]

theorem pass_sublist : (pass cap seen xs).Sublist xs := by
  induction xs generalizing seen with
  | nil => exact List.Sublist.slnil
  | cons y xs ih =>
    unfold pass
    split
    · exact ih.cons y
    · exact ih.cons_cons y

variable [BEq α] [LawfulBEq α]

/-- How often an element is passed on. -/
theorem count_pass_of (x : α) : (pass cap seen xs).count x =
    if x ∈ seen then 0 else if x ∈ table cap seen xs then 1 else xs.count x := by
  induction xs generalizing seen with
  | nil =>
    by_cases hx : x ∈ seen
    · rw [if_pos hx]
      rfl
    · rw [if_neg hx, table, if_neg hx]
      rfl
  | cons y xs ih =>
    by_cases hy : y ∈ seen
    · rw [pass, if_pos hy, table, if_pos hy, ih]
      by_cases hx : x ∈ seen
      · rw [if_pos hx, if_pos hx]
      · have hne : y ≠ x := by
          rintro rfl
          exact hx hy
        rw [List.count_cons_of_ne hne]
    · rw [pass, if_neg hy, table, if_neg hy]
      by_cases hxy : y = x
      · subst hxy
        rw [if_neg hy, List.count_cons_self, ih, List.count_cons_self]
        by_cases hroom : seen.length < cap
        · -- entered now, and not passed on again
          have hmem : y ∈ enter cap seen y := by
            rw [enter, if_pos hroom]
            exact List.mem_append_right _ List.mem_cons_self
          rw [if_pos hmem, if_pos (mem_table_of_mem hmem)]
        · have henter : enter cap seen y = seen := if_neg hroom
          rw [henter, if_neg hy, table_full (by omega), if_neg hy, if_neg hy]
      · rw [List.count_cons_of_ne hxy, ih, List.count_cons_of_ne hxy]
        by_cases hx : x ∈ seen
        · rw [if_pos hx, if_pos (mem_enter hx cap y)]
        · have hx' : x ∉ enter cap seen y := by
            unfold enter
            split
            · simp [hx, Ne.symm hxy]
            · exact hx
          rw [if_neg hx, if_neg hx']

/-- **What is in the table was passed on once**, everything else as often as it
came. -/
theorem count_pass (cap : ℕ) (xs : List α) (x : α) :
    (pass cap [] xs).count x = if x ∈ table cap [] xs then 1 else xs.count x := by
  rw [count_pass_of, if_neg List.not_mem_nil]

theorem table_eq_of (h : seen.length ≤ cap) :
    table cap seen xs = (seen ++ (xs.filter (· ∉ seen)).eraseDups).take cap := by
  induction xs generalizing seen with
  | nil =>
    rw [table, List.filter_nil, List.eraseDups_nil, List.append_nil, List.take_of_length_le h]
  | cons y xs ih =>
    by_cases hy : y ∈ seen
    · rw [table, if_pos hy, ih h, List.filter_cons_of_neg (by simp [hy])]
    · rw [table, if_neg hy, List.filter_cons_of_pos (by simp [hy])]
      by_cases hroom : seen.length < cap
      · have henter : enter cap seen y = seen ++ [y] := if_pos hroom
        have hfilter : (xs.filter (· ∉ seen)).filter (fun x => !x == y) =
            xs.filter (· ∉ seen ++ [y]) := by
          rw [List.filter_filter]
          refine List.filter_congr fun x _ => ?_
          by_cases hxy : x = y <;> simp [hxy]
        rw [henter, ih (by simp; omega), List.eraseDups_cons, hfilter, List.append_assoc]
        rfl
      · have henter : enter cap seen y = seen := if_neg hroom
        have hlen : seen.length = cap := by omega
        rw [henter, table_full (by omega), List.take_append_of_le_length (by omega),
          List.take_of_length_le h]

/-- The table holds the first elements, each once. -/
theorem table_eq (cap : ℕ) (xs : List α) : table cap [] xs = xs.eraseDups.take cap := by
  have hall : xs.filter (· ∉ []) = xs := by simp
  rw [table_eq_of (Nat.zero_le _), hall, List.nil_append]

end SeenTable
