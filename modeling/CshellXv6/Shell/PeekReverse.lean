/-
`peek -r` of a file and of standard input.

Standard input is read to its end and its lines are printed in reverse; a file
is read in chunks from its end.  The two come to the same text, unless the
text starts with an empty line, which the reading from the end loses.

* `numbered_reverse` — counting down over the reversed lines gives each line the
  number it has in `peek -n`;
* `peek_reverse_iff` — exactly when a file and standard input give the same.
-/
import CshellXv6.Shell.PeekLines

namespace Cshell

open Lines OptionWords

/-! ### Numbers in reverse -/

/-- The lines that are not empty. -/
def fullLines (ls : List Str) : ℤ := (ls.filter (· ≠ [])).length

theorem fullLines_nil_cons (ls : List Str) : fullLines ([] :: ls) = fullLines ls := rfl

theorem fullLines_cons {l : Str} (hl : l ≠ []) (ls : List Str) :
    fullLines (l :: ls) = fullLines ls + 1 := by
  simp [fullLines, hl]

theorem fullLines_reverse (ls : List Str) : fullLines ls.reverse = fullLines ls := by
  simp [fullLines]

/-- Numbering goes on where it stopped. -/
theorem numbered_append (step k : ℤ) (ls ms : List Str) :
    numbered true step k (ls ++ ms) =
      numbered true step k ls ++ numbered true step (k + step * fullLines ls) ms := by
  induction ls generalizing k with
  | nil => simp [numbered, fullLines]
  | cons l ls ih =>
    by_cases hl : l = []
    · subst hl
      rw [List.cons_append, numbered, if_pos rfl, numbered, if_pos rfl, ih, fullLines_nil_cons]
      rfl
    · have hk : k + step * fullLines (l :: ls) = k + step + step * fullLines ls := by
        rw [fullLines_cons hl, Int.mul_add, Int.mul_one]
        omega
      rw [List.cons_append, numbered, if_neg hl, if_pos rfl, numbered, if_neg hl, if_pos rfl, ih, hk]
      rfl

/-- Counting down over the reversed lines from the last number. -/
theorem numbered_reverse_from (k : ℤ) (ls : List Str) :
    numbered true (-1) (k + fullLines ls - 1) ls.reverse = (numbered true 1 k ls).reverse := by
  induction ls generalizing k with
  | nil => rfl
  | cons l ls ih =>
    -- the first line is printed last, after the numbers of all the others
    rw [List.reverse_cons, numbered_append, fullLines_reverse]
    by_cases hl : l = []
    · subst hl
      rw [fullLines_nil_cons, ih]
      simp only [numbered, if_true, List.reverse_cons]
    · have hfirst : k + fullLines (l :: ls) - 1 = k + 1 + fullLines ls - 1 := by
        rw [fullLines_cons hl]
        omega
      have hlast : k + 1 + fullLines ls - 1 + -1 * fullLines ls = k := by omega
      rw [hfirst, ih, hlast]
      simp only [numbered, if_neg hl, if_true, List.reverse_cons]

/-- Counting down over the reversed lines gives the numbers of the lines. -/
theorem numbered_reverse (num : Bool) (ls : List Str) :
    numbered num (-1) (fullLines ls) ls.reverse = (numbered num 1 1 ls).reverse := by
  cases num with
  | false => rw [numbered_false, numbered_false, List.map_reverse]
  | true =>
    have h := numbered_reverse_from 1 ls
    rwa [show 1 + fullLines ls - 1 = fullLines ls by omega] at h

/-! ### Texts without a NUL -/

theorem cstr_eq_self {s : Str} (h : '\x00' ∉ s) : cstr s = s := by
  refine List.takeWhile_eq_self_iff.mpr ?_
  intro c hc
  have hne : c ≠ '\x00' := fun e => h (e ▸ hc)
  simpa using hne

theorem cstr_line {s l : Str} (h : '\x00' ∉ s) (hl : l ∈ lines s) : cstr l = l :=
  cstr_eq_self fun hm => h (mem_of_mem_lines hl hm)

theorem map_cstr_lines {s : Str} (h : '\x00' ∉ s) : (lines s).map cstr = lines s := by
  conv_rhs => rw [← List.map_id (lines s)]
  exact List.map_congr_left fun l hl => cstr_line h hl

theorem countLines_lines {s : Str} (h : '\x00' ∉ s) : countLines (lines s) = fullLines (lines s) := by
  unfold countLines fullLines
  congr 2
  refine List.filter_congr fun l hl => ?_
  rw [cstr_line h hl]

/-! ### A file and standard input -/

/-- A first line that is not empty is not lost. -/
theorem backward_lines {s : Str} (h : s.head? ≠ some '\n') : backward (lines s) = (lines s).reverse := by
  cases s with
  | nil => rfl
  | cons c s =>
    have hc : c ≠ '\n' := fun e => h (by rw [e]; rfl)
    obtain ⟨l, ls, hls⟩ := lines_cons hc s
    rw [hls, backward_cons, if_neg (List.cons_ne_nil c l), List.reverse_cons]

/-- An empty first line is lost: the text printed of a file lacks its newline. -/
theorem numbered_backward_newline (num : Bool) (k : ℤ) (s : Str) :
    unlines (numbered num (-1) k (lines ('\n' :: s)).reverse) =
      unlines (numbered num (-1) k (backward (lines ('\n' :: s)))) ++ ['\n'] := by
  obtain ⟨ls, hls⟩ := lines_newline s
  have hnum : ∀ ms : List Str, unlines (numbered num (-1) k (ms ++ [[]])) =
      unlines (numbered num (-1) k ms) ++ ['\n'] := by
    intro ms
    cases num with
    | false => simp [numbered_false, unlines, cstr]
    | true =>
      rw [numbered_append]
      simp [numbered, unlines]
  rw [hls, backward_cons, if_pos rfl, List.append_nil, List.reverse_cons]
  exact hnum _

section Calls

variable {w : World} {os : List Str} {a content : Str}

/-- `peek` with option words and one operand. -/
theorem peek_one (cmd : Str) (hos : ∀ o ∈ os, isOption o = true) (hk : Known peekLetter os)
    (ha : isOption a = false) :
    peek w (cmd :: (os ++ [a])) = unlines (peekOperand w (peekFlags os) w.stdin a).1 := by
  have htake : (os ++ [a]).takeWhile isOption = os := by
    rw [List.takeWhile_append_of_pos hos, List.takeWhile_cons_of_neg (by simp [ha]), List.append_nil]
  have hdrop : (os ++ [a]).dropWhile isOption = [a] := by
    rw [List.dropWhile_append_of_pos hos, List.dropWhile_cons_of_neg (by simp [ha])]
  rw [peek_known (by rw [htake]; exact hk) (by rw [hdrop]; simp), htake, hdrop]
  simp [peekOperands]

/-- `peek -r` of a file. -/
theorem peekOperand_file (num : Bool) (stdin : List Str) (hn : '\x00' ∉ content) (ha : a ≠ ['-'])
    (hd : w.isDir a = false) (hc : w.contents a = some content) :
    (peekOperand w ⟨true, num⟩ stdin a).1 =
      numbered num (-1) (fullLines (lines content)) (backward (lines content)) := by
  rw [peekOperand, if_neg ha, if_neg (by simp [hd]), hc]
  simp only [if_true]
  rw [fileBackward_eq, countLines_lines hn]

/-- `peek -r` of standard input: every line of the text, the last one first, with the
number it has in `peek -n`. -/
theorem peekOperand_stdin (num : Bool) (stdin : List Str) (hn : '\x00' ∉ content)
    (hs : stdin.head? = some content) :
    (peekOperand w ⟨true, num⟩ stdin ['-']).1 =
      numbered num (-1) (fullLines (lines content)) (lines content).reverse := by
  have hhead : stdin.headD [] = content := by
    cases stdin with
    | nil => cases hs
    | cons x xs => exact Option.some_inj.mp hs
  rw [peekOperand, if_pos rfl, hhead]
  simp only [if_true]
  rw [map_cstr_lines hn, countLines_lines hn]

/-- What `peek -r` is for: every line of the text in reverse order, empty ones
included, with the number it has in `peek -n`. -/
def reverseText (num : Bool) (content : Str) : Str :=
  unlines (numbered num 1 1 (lines content)).reverse

/-- **When `peek -r` prints the same of a file and of standard input**: for every
text without a NUL, and option words with an `r`, the two print the reversed
lines of the text if and only if the text does not start with a newline. -/
theorem peek_reverse_iff (cmd : Str) (hos : ∀ o ∈ os, isOption o = true)
    (hk : Known peekLetter os) (hr : hasLetter 'r' os = true) (hn : '\x00' ∉ content)
    (ha : isOption a = false) (ha' : a ≠ ['-']) (hd : w.isDir a = false)
    (hc : w.contents a = some content) (hs : w.stdin.head? = some content) :
    (peek w (cmd :: (os ++ [a])) = peek w (cmd :: (os ++ [['-']])) ∧
      peek w (cmd :: (os ++ [['-']])) = reverseText (hasLetter 'n' os) content) ↔
    content.head? ≠ some '\n' := by
  have hflags : peekFlags os = ⟨true, hasLetter 'n' os⟩ := by rw [peekFlags, hr]
  rw [peek_one cmd hos hk ha, peek_one cmd hos hk (by decide), hflags,
    peekOperand_file _ _ hn ha' hd hc, peekOperand_stdin _ _ hn hs]
  constructor
  · rintro ⟨h, -⟩ hhead
    cases content with
    | nil => cases hhead
    | cons c s =>
      obtain rfl : c = '\n' := Option.some_inj.mp hhead
      rw [numbered_backward_newline] at h
      -- the file's text is one newline shorter
      have := congrArg List.length h
      simp at this
  · intro h
    rw [backward_lines h, reverseText, numbered_reverse]
    exact ⟨rfl, rfl⟩

end Calls

/-- The file `f` and standard input hold the same text. -/
def sameText (content : Str) : World where
  scandir _ := none
  isDir _ := false
  contents a := if a = ['f'] then some content else none
  isExec _ := false
  cwd := ⟨['/'], root_absolute⟩
  path := none
  stdin := [content]
  names := names_of_none

/-- A text with an empty line inside, read with `-r -n`. -/
theorem peek_reverse_inner_empty :
    peek (sameText "a\n\nb".toList) ["peek".toList, "-r".toList, "-n".toList, ['f']] =
        peek (sameText "a\n\nb".toList) ["peek".toList, "-r".toList, "-n".toList, ['-']] ∧
      peek (sameText "a\n\nb".toList) ["peek".toList, "-r".toList, "-n".toList, ['-']] =
        reverseText true "a\n\nb".toList :=
  (@peek_reverse_iff (sameText "a\n\nb".toList) ["-r".toList, "-n".toList] ['f'] _ "peek".toList
    (by decide) (by decide) (by decide) (by decide) (by decide) (by decide) rfl rfl rfl).mpr
    (by decide)

/-- A text that starts with an empty line: the file is printed without it. -/
theorem peek_reverse_loses_line :
    peek (sameText "\na".toList) ["peek".toList, "-r".toList, ['f']] = "a\n".toList ∧
      peek (sameText "\na".toList) ["peek".toList, "-r".toList, ['-']] = "a\n\n".toList := by
  decide +kernel

end Cshell
