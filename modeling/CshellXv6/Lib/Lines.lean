/-
Lines of a text.

`lines` is what reading a text line by line gives, each line without its
newline: a last line that has none is a line all the same, and the empty text
has no line.  `unlines` is what printing lines with a newline each gives.

* `unlines_inj` — lines without newlines are told apart by their print;
* `fgets_line`, `newline_of_mem_fgets` — a text read with a buffer of fixed size;
* `splitOn_append` — a text cut in two: the last piece of the one and the
  first of the other become one.
-/
import Mathlib.Data.List.Basic

namespace Lines

/-- The text without its last newline. -/
def chomp (s : List Char) : List Char := if s.getLast? = some '\n' then s.dropLast else s

/-- The lines that `getline` reads, each without its newline. -/
def lines (s : List Char) : List (List Char) := if s = [] then [] else (chomp s).splitOn '\n'

/-- The lines, each with a newline. -/
def unlines (ls : List (List Char)) : List Char := ls.flatMap (· ++ ['\n'])

/-- The calls of `fgets` on a text, with room for `n` characters: `left` is the room
left and `cur` what the call has read. -/
def fgetsLoop (n : ℕ) : ℕ → List Char → List Char → List (List Char)
  | _, cur, [] => if cur = [] then [] else [cur]
  | left, cur, c :: cs =>
    if c = '\n' ∨ left ≤ 1 then (cur ++ [c]) :: fgetsLoop n n [] cs
    else fgetsLoop n (left - 1) (cur ++ [c]) cs

/-- What `fgets` with a buffer of `size` bytes reads of a text, call by call. -/
def fgets (size : ℕ) (s : List Char) : List (List Char) := fgetsLoop (size - 1) (size - 1) [] s

@[simp] theorem unlines_nil : unlines [] = [] := rfl

@[simp] theorem unlines_cons (l : List Char) (ls : List (List Char)) :
    unlines (l :: ls) = l ++ '\n' :: unlines ls := by simp [unlines]

/-- The first newline ends the first line. -/
theorem append_newline_inj {l m r s : List Char} (hl : '\n' ∉ l) (hm : '\n' ∉ m)
    (h : l ++ '\n' :: r = m ++ '\n' :: s) : l = m ∧ r = s := by
  have hs := congrArg (List.splitOn '\n') h
  rw [List.splitOn_append_cons_self_of_not_mem hl, List.splitOn_append_cons_self_of_not_mem hm] at hs
  obtain rfl : l = m := (List.cons.inj hs).1
  exact ⟨rfl, (List.cons.inj (List.append_cancel_left h)).2⟩

theorem unlines_inj {ls ms : List (List Char)} (hl : ∀ l ∈ ls, '\n' ∉ l) (hm : ∀ m ∈ ms, '\n' ∉ m)
    (h : unlines ls = unlines ms) : ls = ms := by
  induction ls generalizing ms with
  | nil =>
    cases ms with
    | nil => rfl
    | cons m ms => simp at h
  | cons l ls ih =>
    cases ms with
    | nil => simp at h
    | cons m ms =>
      rw [unlines_cons, unlines_cons] at h
      obtain ⟨rfl, ht⟩ := append_newline_inj (hl l List.mem_cons_self) (hm m List.mem_cons_self) h
      rw [ih (fun x hx => hl x (List.mem_cons_of_mem l hx))
        (fun x hx => hm x (List.mem_cons_of_mem l hx)) ht]

section Split

variable {α : Type} [BEq α] [LawfulBEq α]

/-- The pieces do not have the separator. -/
theorem not_mem_of_mem_splitOn {c : α} {s x : List α} (h : x ∈ s.splitOn c) : c ∉ x := by
  induction s generalizing x with
  | nil =>
    simp at h
    simp [h]
  | cons a s ih =>
    rw [List.splitOn_cons_eq_if_modifyHead] at h
    split at h
    · rcases List.mem_cons.mp h with rfl | h
      · simp
      · exact ih h
    · rename_i ha
      obtain ⟨p, ps, hp⟩ := List.exists_cons_of_ne_nil (List.splitOn_ne_nil c s)
      rw [hp, List.modifyHead_cons] at h
      rcases List.mem_cons.mp h with rfl | h
      · have hc : c ≠ a := fun e => ha (by simp [e])
        simpa [hc] using ih (hp ▸ List.mem_cons_self)
      · exact ih (hp ▸ List.mem_cons_of_mem p h)

omit [LawfulBEq α] in
/-- What is in a piece is in the text. -/
theorem mem_of_mem_splitOn {c a : α} {s x : List α} (h : x ∈ s.splitOn c) (ha : a ∈ x) : a ∈ s := by
  induction s generalizing x with
  | nil =>
    simp at h
    simp [h] at ha
  | cons b s ih =>
    rw [List.splitOn_cons_eq_if_modifyHead] at h
    split at h
    · rcases List.mem_cons.mp h with rfl | h
      · cases ha
      · exact List.mem_cons_of_mem b (ih h ha)
    · obtain ⟨p, ps, hp⟩ := List.exists_cons_of_ne_nil (List.splitOn_ne_nil c s)
      rw [hp, List.modifyHead_cons] at h
      rcases List.mem_cons.mp h with rfl | h
      · rcases List.mem_cons.mp ha with rfl | ha
        · exact List.mem_cons_self
        · exact List.mem_cons_of_mem b (ih (hp ▸ List.mem_cons_self) ha)
      · exact List.mem_cons_of_mem b (ih (hp ▸ List.mem_cons_of_mem p h) ha)

/-- What is in the text, the separator apart, is in a piece. -/
theorem exists_mem_splitOn {c a : α} {s : List α} (hne : a ≠ c) (ha : a ∈ s) :
    ∃ x ∈ s.splitOn c, a ∈ x := by
  induction s with
  | nil => cases ha
  | cons b s ih =>
    obtain ⟨p, ps, hp⟩ := List.exists_cons_of_ne_nil (List.splitOn_ne_nil c s)
    rw [List.splitOn_cons_eq_if_modifyHead]
    split
    case isTrue hb =>
      have hbc : b = c := by simpa using hb
      rcases List.mem_cons.mp ha with rfl | ha
      · exact absurd hbc hne
      · obtain ⟨x, hx, hax⟩ := ih ha
        exact ⟨x, List.mem_cons_of_mem _ hx, hax⟩
    case isFalse =>
      rw [hp, List.modifyHead_cons]
      rcases List.mem_cons.mp ha with rfl | ha
      · exact ⟨a :: p, List.mem_cons_self, List.mem_cons_self⟩
      · obtain ⟨x, hx, hax⟩ := ih ha
        rw [hp] at hx
        rcases List.mem_cons.mp hx with rfl | hx
        · exact ⟨b :: x, List.mem_cons_self, List.mem_cons_of_mem b hax⟩
        · exact ⟨x, List.mem_cons_of_mem _ hx, hax⟩

/-- The pieces of a text in two parts. -/
theorem splitOn_append {c : α} {s p : List α} {ps : List (List α)} (x : List α)
    (h : s.splitOn c = p :: ps) : (x ++ s).splitOn c = (x ++ p).splitOn c ++ ps := by
  have hs : [c].intercalate (s.splitOn c) = s := List.intercalate_splitOn c
  rw [h] at hs
  cases ps with
  | nil =>
    obtain rfl : p = s := by simpa using hs
    simp
  | cons q qs =>
    have hs : s = p ++ c :: [c].intercalate (q :: qs) := by
      rw [← hs, List.intercalate_cons_cons]
      simp
    have hq : ([c].intercalate (q :: qs)).splitOn c = q :: qs :=
      List.splitOn_intercalate c
        (fun l hl => not_mem_of_mem_splitOn (h ▸ List.mem_cons_of_mem p hl)) (by simp)
    rw [hs, ← List.append_assoc, List.splitOn_append_cons_self, hq]

end Split

/-- The lines have no newline. -/
theorem not_mem_of_mem_lines {s l : List Char} (h : l ∈ lines s) : '\n' ∉ l := by
  unfold lines at h
  split at h
  · simp at h
  · exact not_mem_of_mem_splitOn h

theorem chomp_cons {x : Char} {s : List Char} (h : s ≠ []) : chomp (x :: s) = x :: chomp s := by
  unfold chomp
  rw [List.getLast?_cons_of_ne_nil h, List.dropLast_cons_of_ne_nil h]
  split
  · rfl
  · rfl

/-- The characters of a line are characters of the text. -/
theorem mem_of_mem_lines {s l : List Char} (h : l ∈ lines s) {c : Char} (hc : c ∈ l) : c ∈ s := by
  have hchomp : ∀ x ∈ chomp s, x ∈ s := by
    unfold chomp
    split
    · exact fun x hx => (List.dropLast_prefix s).subset hx
    · exact fun x hx => hx
  unfold lines at h
  split at h
  · cases h
  · exact hchomp c (mem_of_mem_splitOn h hc)

/-- The first line is empty when the text starts with a newline. -/
theorem lines_newline (s : List Char) : ∃ ls, lines ('\n' :: s) = [] :: ls := by
  rw [lines, if_neg (List.cons_ne_nil _ _)]
  cases s with
  | nil => exact ⟨[], by simp [chomp]⟩
  | cons x s =>
    rw [chomp_cons (List.cons_ne_nil x s), List.splitOn_cons_eq_if_modifyHead, if_pos (by simp)]
    exact ⟨_, rfl⟩

/-- The first line starts as the text does, unless that is with a newline. -/
theorem lines_cons {c : Char} (hc : c ≠ '\n') (s : List Char) :
    ∃ l ls, lines (c :: s) = (c :: l) :: ls := by
  have hsplit : ∀ r : List Char, ∃ l ls, (c :: r).splitOn '\n' = (c :: l) :: ls := by
    intro r
    obtain ⟨p, ps, hp⟩ := List.exists_cons_of_ne_nil (List.splitOn_ne_nil '\n' r)
    refine ⟨p, ps, ?_⟩
    rw [List.splitOn_cons_eq_if_modifyHead, if_neg (by simpa using hc), hp, List.modifyHead_cons]
  rw [lines, if_neg (List.cons_ne_nil _ _)]
  cases s with
  | nil =>
    have hchomp : chomp [c] = [c] := by simp [chomp, hc]
    rw [hchomp]
    exact hsplit []
  | cons x s =>
    rw [chomp_cons (List.cons_ne_nil x s)]
    exact hsplit _

/-! ### `fgets` -/

theorem fgetsLoop_line {n left : ℕ} {cur l : List Char} (hl : '\n' ∉ l) (hn : l.length < left)
    (s : List Char) :
    fgetsLoop n left cur (l ++ '\n' :: s) = (cur ++ l ++ ['\n']) :: fgetsLoop n n [] s := by
  induction l generalizing left cur with
  | nil => simp [fgetsLoop]
  | cons c l ih =>
    rw [List.length_cons] at hn
    have hc : ¬ (c = '\n' ∨ left ≤ 1) := by
      rintro (rfl | h)
      · exact hl List.mem_cons_self
      · omega
    rw [List.cons_append, fgetsLoop, if_neg hc,
      ih (fun h => hl (List.mem_cons_of_mem c h)) (by omega)]
    simp

/-- A line that fits the buffer is read by one call. -/
theorem fgets_line {size : ℕ} {l : List Char} (hl : '\n' ∉ l) (hn : l.length + 1 < size)
    (s : List Char) : fgets size (l ++ '\n' :: s) = (l ++ ['\n']) :: fgets size s := by
  rw [fgets, fgetsLoop_line hl (by omega)]
  rfl

/-- A newline is the last character that a call reads. -/
theorem newline_of_mem_fgetsLoop {n left : ℕ} {cur s x : List Char} (hcur : '\n' ∉ cur)
    (h : x ∈ fgetsLoop n left cur s) : '\n' ∉ x.dropLast := by
  induction s generalizing left cur with
  | nil =>
    rw [fgetsLoop] at h
    split at h
    · cases h
    · rw [List.mem_singleton] at h
      subst h
      exact fun hm => hcur ((List.dropLast_prefix _).subset hm)
  | cons c s ih =>
    rw [fgetsLoop] at h
    split at h
    case isTrue =>
      rcases List.mem_cons.mp h with rfl | h
      · rw [List.dropLast_concat]
        exact hcur
      · exact ih (by simp) h
    case isFalse hc =>
      refine ih ?_ h
      rw [List.mem_append, List.mem_singleton]
      rintro (hm | hm)
      · exact hcur hm
      · exact hc (.inl hm.symm)

theorem newline_of_mem_fgets {size : ℕ} {s x : List Char} (h : x ∈ fgets size s) :
    '\n' ∉ x.dropLast :=
  newline_of_mem_fgetsLoop (by simp) h

end Lines
