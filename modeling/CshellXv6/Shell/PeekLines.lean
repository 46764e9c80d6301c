/-
What `peek` prints of a file.

`peek -r` reads the file in chunks from its end and prints the lines it finds
complete.  What stands before the first newline of a chunk waits for the next
chunk.  Chunk by chunk this comes to cutting the whole text at its newlines,
with one exception: what is left at the end is printed only when there is
something left, so an empty first line is lost.

* `fileBackward_eq` — the lines `peek -r` prints of a file;
* `printBack_chunk` — they are the same for chunks of any size;
* `numbered_false`, `head_of_mem_numbered` — the lines without and with
  numbers;
* `peekOperands_eq_syntax_iff` — when the operands print the text of a message;
* `peek_append_unknown`, `peek_known`, `peek_options` — a call by its arguments.
-/
import CshellXv6.Shell.Builtins

namespace Cshell

open Lines OptionWords

/-- The lines in reverse, without an empty first one. -/
def backward (ls : List Str) : List Str :=
  ls.tail.reverse ++ if ls.headD [] = [] then [] else [ls.headD []]

theorem backward_cons (l : Str) (ls : List Str) :
    backward (l :: ls) = ls.reverse ++ if l = [] then [] else [l] := rfl

theorem backward_append {ls : List Str} (ms : List Str) (h : ls ≠ []) :
    backward (ls ++ ms) = ms.reverse ++ backward ls := by
  obtain ⟨l, ls, rfl⟩ := List.exists_cons_of_ne_nil h
  simp [backward]

/-- The inner loop cuts the buffer up to `last` at its newlines.  What stands between
`j` and `last` has been looked at already. -/
theorem scanBack_eq {buffer : Str} {j last : ℕ} (hj : j ≤ last) (hl : last ≤ buffer.length)
    (hn : '\n' ∉ (buffer.take last).drop j) {p : Str} {ps : List Str}
    (h : (buffer.take last).splitOn '\n' = p :: ps) :
    scanBack buffer j last = (ps.reverse, p.length) := by
  induction j generalizing last p ps with
  | zero =>
    rw [List.drop_zero] at hn
    rw [List.splitOn_eq_singleton hn] at h
    cases h
    have hlen : (buffer.take last).length = last := by
      rw [List.length_take]
      omega
    simp only [scanBack, List.reverse_nil, hlen]
  | succ j ih =>
    have hlt : j < buffer.length := by omega
    have hlt' : j < (buffer.take last).length := by
      rw [List.length_take]
      omega
    have hget : (buffer.take last)[j]? = buffer[j]? := List.getElem?_take_of_lt (by omega)
    have hdrop : (buffer.take last).drop j =
        (buffer.take last)[j] :: (buffer.take last).drop (j + 1) := List.drop_eq_getElem_cons hlt'
    by_cases hc : buffer[j]? = some '\n'
    · have hx : (buffer.take last)[j] = '\n' := by
        rw [← hget, List.getElem?_eq_getElem hlt'] at hc
        exact Option.some.inj hc
      obtain ⟨q, qs, hq⟩ := List.exists_cons_of_ne_nil (List.splitOn_ne_nil '\n' (buffer.take j))
      -- the text up to `last` is the text up to `j`, the newline and a whole line
      have hcut : buffer.take last =
          buffer.take j ++ '\n' :: (buffer.take last).drop (j + 1) := by
        conv_lhs => rw [← List.take_append_drop j (buffer.take last)]
        rw [hdrop, hx, List.take_take, Nat.min_eq_left (by omega)]
      have hsplit : (buffer.take last).splitOn '\n' =
          (q :: qs) ++ [(buffer.take last).drop (j + 1)] := by
        conv_lhs => rw [hcut]
        rw [List.splitOn_append_cons_self, hq, List.splitOn_eq_singleton hn]
      rw [h, List.cons_append] at hsplit
      obtain ⟨rfl, rfl⟩ := List.cons.inj hsplit
      have hjj := ih (Nat.le_refl j) (by omega) (by simp) hq
      rw [scanBack, if_pos hc, hjj]
      simp
    · rw [scanBack, if_neg hc]
      refine ih (by omega) hl ?_ h
      rw [hdrop]
      intro hmem
      rcases List.mem_cons.mp hmem with hx | hmem
      · exact hc (by rw [← hget, List.getElem?_eq_getElem hlt', hx])
      · exact hn hmem

/-- One turn of the outer loop, with `x` the text before the chunk: the lines it prints
and those of `x` and the part it keeps are the lines of `x` and the chunk. -/
theorem scanBack_step {buffer : Str} {last : ℕ} (hl : last ≤ buffer.length) (x : Str) :
    (scanBack buffer last last).1 ++
        backward ((x ++ buffer.take (scanBack buffer last last).2).splitOn '\n') =
      backward ((x ++ buffer.take last).splitOn '\n') ∧
    '\n' ∉ buffer.take (scanBack buffer last last).2 := by
  obtain ⟨p, ps, hp⟩ :=
    List.exists_cons_of_ne_nil (List.splitOn_ne_nil '\n' (buffer.take last))
  have hscan := scanBack_eq (Nat.le_refl last) hl (by simp) hp
  have hpre : p <+: buffer.take last := by
    have hi : ['\n'].intercalate ((buffer.take last).splitOn '\n') = buffer.take last :=
      List.intercalate_splitOn '\n'
    rw [hp] at hi
    rw [← hi]
    cases ps with
    | nil => simp
    | cons q qs =>
      rw [List.intercalate_cons_cons, List.append_assoc]
      exact List.prefix_append p _
  have htake : buffer.take p.length = p :=
    (List.prefix_iff_eq_take.mp (hpre.trans (List.take_prefix last buffer))).symm
  rw [hscan, htake, Lines.splitOn_append x hp, backward_append ps (List.splitOn_ne_nil _ _)]
  exact ⟨rfl, Lines.not_mem_of_mem_splitOn (hp ▸ List.mem_cons_self)⟩

/-- The bytes of a turn. -/
theorem take_sub_append {file : Str} {pos reade : ℕ} (h : reade ≤ pos) :
    file.take (pos - reade) ++ (file.drop (pos - reade)).take reade = file.take pos := by
  have hpos : pos - reade + reade = pos := by omega
  rw [← List.take_add, hpos]

/-- What is printed after the loop. -/
theorem backward_rest {rest : Str} (hr : '\n' ∉ rest) :
    backward (rest.splitOn '\n') = if rest = [] then [] else [rest] := by
  rw [List.splitOn_eq_singleton hr]
  simp [backward]

/-- The outer loop after its first turn. -/
theorem readBack_eq {chunk : ℕ} (hc : 0 < chunk) {file : Str} {fuel pos : ℕ} (hf : pos ≤ fuel)
    (hp : pos < file.length) {rest : Str} (hr : '\n' ∉ rest) :
    readBack chunk file fuel pos rest = backward ((file.take pos ++ rest).splitOn '\n') := by
  induction fuel generalizing pos rest with
  | zero =>
    obtain rfl : pos = 0 := by omega
    exact (backward_rest hr).symm
  | succ fuel ih =>
    rw [readBack]
    by_cases h0 : pos = 0
    · subst h0
      exact (backward_rest hr).symm
    · rw [if_neg h0]
      dsimp only
      set reade := if chunk < pos then chunk else pos with hreade
      have hle : reade ≤ pos ∧ 0 < reade := by
        rw [hreade]
        split <;> omega
      have hsum : pos - reade + reade = pos := by omega
      have hlast : ¬ (pos - reade + reade = file.length ∧
          ((file.drop (pos - reade)).take reade ++ rest).getLast? = some '\n') := by
        rintro ⟨h, -⟩
        omega
      rw [if_neg hlast]
      obtain ⟨hstep, hn⟩ := scanBack_step
        (Nat.le_refl ((file.drop (pos - reade)).take reade ++ rest).length) (file.take (pos - reade))
      have hfuel : pos - reade ≤ fuel := by omega
      have hpos : pos - reade < file.length := by omega
      rw [ih hfuel hpos hn, hstep, List.take_length, ← List.append_assoc, take_sub_append hle.1]

/-- The lines of a file that are found from its end, whatever the size of the
chunks: all of them in reverse, but for an empty first one. -/
theorem readBack_file {chunk : ℕ} (hc : 0 < chunk) (file : Str) {n : ℕ} (hn : file.length ≤ n) :
    readBack chunk file n file.length [] = backward (lines file) := by
  by_cases hne : file = []
  · subst hne
    cases n <;> rfl
  · have hlen : 0 < file.length := List.length_pos_of_ne_nil hne
    obtain ⟨fuel, rfl⟩ : ∃ fuel, n = fuel + 1 := ⟨n - 1, by omega⟩
    rw [lines, if_neg hne, readBack, if_neg (by omega)]
    dsimp only
    set reade := if chunk < file.length then chunk else file.length with hreade
    have hle : reade ≤ file.length ∧ 0 < reade := by
      rw [hreade]
      split <;> omega
    have hsum : file.length - reade + reade = file.length := by omega
    set buffer := (file.drop (file.length - reade)).take reade with hbuf
    have hfile : file.take (file.length - reade) ++ buffer = file := by
      rw [hbuf, take_sub_append hle.1, List.take_length]
    have hbne : buffer ≠ [] := by
      intro h
      have h' := congrArg List.length h
      rw [hbuf, List.length_take, List.length_drop] at h'
      simp at h'
      omega
    have hgl : buffer.getLast? = file.getLast? := by
      conv_rhs => rw [← hfile]
      rw [List.getLast?_append_of_ne_nil _ hbne]
    rw [List.append_nil]
    set last := if file.length - reade + reade = file.length ∧ buffer.getLast? = some '\n'
      then buffer.length - 1 else buffer.length with hlast
    have hll : last ≤ buffer.length := by
      rw [hlast]
      split <;> omega
    have hchomp : file.take (file.length - reade) ++ buffer.take last = chomp file := by
      rw [hlast, hgl, chomp]
      by_cases hn : file.getLast? = some '\n'
      · rw [if_pos ⟨hsum, hn⟩, if_pos hn, ← List.dropLast_eq_take, ← List.dropLast_append_of_ne_nil hbne,
          hfile]
      · rw [if_neg (fun h => hn h.2), if_neg hn, List.take_length, hfile]
    obtain ⟨hstep, hnew⟩ := scanBack_step hll (file.take (file.length - reade))
    rw [readBack_eq hc (by omega) (by omega) hnew, hstep, hchomp]

/-- `peek -r` of a file prints its lines in reverse, but for an empty first one. -/
theorem fileBackward_eq (file : Str) : fileBackward file = backward (lines file) :=
  readBack_file (by decide) file (Nat.le_refl _)

/-- What `peek -r` prints of a file that it reads in chunks of this size; the loop
has `fuel` turns. -/
def printBack (chunk fuel : ℕ) (num : Bool) (file : Str) : List Str :=
  numbered num (-1) (countLines (lines file)) (readBack chunk file fuel file.length [])

/-- **The size of the chunks does not matter**: for every file and any two sizes,
with enough turns for the loop to end, the same lines are printed, with and
without numbers. -/
theorem printBack_chunk {c₁ c₂ : ℕ} (h₁ : 1 ≤ c₁) (h₂ : 1 ≤ c₂) (num : Bool) (file : Str) {n₁ n₂ : ℕ}
    (hn₁ : file.length ≤ n₁) (hn₂ : file.length ≤ n₂) :
    printBack c₁ n₁ num file = printBack c₂ n₂ num file := by
  rw [printBack, printBack, readBack_file h₁ file hn₁, readBack_file h₂ file hn₂]

/-- Chunks of one byte and of 2048, a line over several chunks and empty lines. -/
theorem printBack_chunk_one :
    printBack 1 7 true "\nab\n\nc".toList = printBack 2048 7 true "\nab\n\nc".toList ∧
      printBack 1 7 true "\nab\n\nc".toList = ["2 c".toList, [], "1 ab".toList] :=
  ⟨printBack_chunk (by decide) (by decide) true _ (by decide) (by decide), by decide⟩

/-! ### Numbers -/

theorem numbered_false (step k : ℤ) (ls : List Str) : numbered false step k ls = ls.map cstr := by
  induction ls with
  | nil => rfl
  | cons l ls ih =>
    by_cases hl : l = []
    · subst hl
      simp [numbered, ih, cstr]
    · simp [numbered, ih, hl]

/-- The first character of a number. -/
theorem head_signed (k : ℤ) : ∃ c cs, CString.signed k = c :: cs ∧ (c = '-' ∨ c.isDigit = true) := by
  unfold CString.signed
  split
  · exact ⟨'-', _, rfl, .inl rfl⟩
  · obtain ⟨c, cs, hd⟩ : ∃ c cs, CString.decimal k.natAbs = c :: cs :=
      List.exists_cons_of_ne_nil Nat.toDigits_ne_nil
    have hc : c ∈ CString.decimal k.natAbs := by
      rw [hd]
      exact List.mem_cons_self
    exact ⟨c, cs, hd, .inr (CString.isDigit_of_mem_decimal hc)⟩

/-- A line printed with numbers is empty or starts with one. -/
theorem head_of_mem_numbered {step k : ℤ} {ls : List Str} {l : Str}
    (h : l ∈ numbered true step k ls) : l = [] ∨ ∃ c cs, l = c :: cs ∧ (c = '-' ∨ c.isDigit = true) := by
  induction ls generalizing k with
  | nil => simp [numbered] at h
  | cons a ls ih =>
    by_cases ha : a = []
    · rw [numbered, if_pos ha] at h
      rcases List.mem_cons.mp h with rfl | h
      · exact .inl rfl
      · exact ih h
    · rw [numbered, if_neg ha, if_pos rfl] at h
      rcases List.mem_cons.mp h with rfl | h
      · obtain ⟨c, cs, hk, hc⟩ := head_signed k
        exact .inr ⟨c, cs ++ ' ' :: cstr a, by rw [hk]; rfl, hc⟩
      · exact ih h

/-- The number itself has no newline. -/
theorem newline_not_mem_signed (k : ℤ) : '\n' ∉ CString.signed k :=
  CString.not_mem_signed (by decide) (by decide) k

theorem not_mem_cstr {l : Str} (h : '\n' ∉ l) : '\n' ∉ cstr l :=
  fun hm => h ((List.takeWhile_prefix _).subset hm)

theorem newline_not_mem_numbered {num : Bool} {step k : ℤ} {ls : List Str} {l : Str}
    (hls : ∀ m ∈ ls, '\n' ∉ m) (h : l ∈ numbered num step k ls) : '\n' ∉ l := by
  induction ls generalizing k with
  | nil => simp [numbered] at h
  | cons a ls ih =>
    have ha : '\n' ∉ cstr a := not_mem_cstr (hls a List.mem_cons_self)
    have hrest : ∀ m ∈ ls, '\n' ∉ m := fun m hm => hls m (List.mem_cons_of_mem a hm)
    rw [numbered] at h
    split at h
    · rcases List.mem_cons.mp h with rfl | h
      · simp
      · exact ih hrest h
    · split at h
      · rcases List.mem_cons.mp h with rfl | h
        · simp [newline_not_mem_signed, ha]
        · exact ih hrest h
      · rcases List.mem_cons.mp h with rfl | h
        · exact ha
        · exact ih hrest h

/-! ### Operands -/

/-- The lines that stand for an operand, in the order they are shown, and what is left
of standard input.  For a file that cannot be shown this is the message. -/
def operandLines (w : World) (rev : Bool) (stdin : List Str) (a : Str) : List Str × List Str :=
  if a = ['-'] then
    ((if rev then (lines (stdin.headD [])).reverse else lines (stdin.headD [])).map cstr, stdin.tail)
  else if w.isDir a then (["peek: is a directory".toList], stdin)
  else
    match w.contents a with
    | none => (["peek: no such file or directory".toList], stdin)
    | some file => ((if rev then backward (lines file) else lines file).map cstr, stdin)

/-- The lines that stand for the operands. -/
def shownLines (w : World) (rev : Bool) : List Str → List Str → List Str
  | _, [] => []
  | stdin, a :: as =>
    (operandLines w rev stdin a).1 ++ shownLines w rev (operandLines w rev stdin a).2 as

theorem map_cstr_cstr (ls : List Str) : (ls.map cstr).map cstr = ls.map cstr := by
  rw [List.map_map]
  refine List.map_congr_left fun l _ => ?_
  simp [cstr, List.takeWhile_idem]

theorem peekOperand_eq (w : World) (rev : Bool) (stdin : List Str) (a : Str) :
    peekOperand w ⟨rev, false⟩ stdin a = operandLines w rev stdin a := by
  unfold peekOperand operandLines
  split
  · dsimp only
    split
    · rw [numbered_false, ← List.map_reverse, map_cstr_cstr]
    · rw [numbered_false, map_cstr_cstr]
  · split
    · rfl
    · cases w.contents a with
      | none => rfl
      | some file =>
        dsimp only
        split
        · rw [numbered_false, fileBackward_eq]
        · rw [numbered_false, map_cstr_cstr]

/-- Without numbers, `peek` prints the lines that stand for the operands. -/
theorem peekOperands_eq (w : World) (rev : Bool) (stdin as : List Str) :
    peekOperands w ⟨rev, false⟩ stdin as = shownLines w rev stdin as := by
  induction as generalizing stdin with
  | nil => rfl
  | cons a as ih => rw [peekOperands, shownLines, peekOperand_eq, ih]

theorem mem_of_mem_backward {ls : List Str} {l : Str} (h : l ∈ backward ls) : l ∈ ls := by
  cases ls with
  | nil => simp [backward] at h
  | cons a ls =>
    rw [backward_cons, List.mem_append, List.mem_reverse] at h
    rcases h with h | h
    · exact List.mem_cons_of_mem a h
    · split at h
      · simp at h
      · rw [List.mem_singleton.mp h]
        exact List.mem_cons_self

/-- A line printed for an operand is one of the two messages, or one of the lines of a
text. -/
theorem mem_peekOperand {w : World} {o : PeekFlags} {stdin : List Str} {a l : Str}
    (h : l ∈ (peekOperand w o stdin a).1) :
    l = "peek: is a directory".toList ∨ l = "peek: no such file or directory".toList ∨
      ∃ step k ls, (∀ m ∈ ls, '\n' ∉ m) ∧ l ∈ numbered o.num step k ls := by
  have hcstr : ∀ {s m : Str}, m ∈ (lines s).map cstr → '\n' ∉ m := by
    intro s m hm
    obtain ⟨n, hn, rfl⟩ := List.mem_map.mp hm
    exact not_mem_cstr (not_mem_of_mem_lines hn)
  unfold peekOperand at h
  split at h
  · dsimp only at h
    split at h
    · exact .inr (.inr ⟨_, _, _, fun m hm => hcstr (List.mem_reverse.mp hm), h⟩)
    · exact .inr (.inr ⟨_, _, _, fun m hm => hcstr hm, h⟩)
  · split at h
    · exact .inl (List.mem_singleton.mp h)
    · split at h
      · exact .inr (.inl (List.mem_singleton.mp h))
      · dsimp only at h
        split at h
        · rw [fileBackward_eq] at h
          exact .inr (.inr ⟨_, _, _, fun m hm => not_mem_of_mem_lines (mem_of_mem_backward hm), h⟩)
        · exact .inr (.inr ⟨_, _, _, fun m hm => hcstr hm, h⟩)

theorem newline_not_mem_peekOperand {w : World} {o : PeekFlags} {stdin : List Str} {a l : Str}
    (h : l ∈ (peekOperand w o stdin a).1) : '\n' ∉ l := by
  obtain rfl | rfl | ⟨step, k, ls, hls, h⟩ := mem_peekOperand h
  · decide
  · decide
  · exact newline_not_mem_numbered hls h

/-- With numbers, no line is the message. -/
theorem mem_peekOperand_num {w : World} {rev : Bool} {stdin : List Str} {a l : Str}
    (h : l ∈ (peekOperand w ⟨rev, true⟩ stdin a).1) : l ≠ "peek: invalid syntax".toList := by
  obtain rfl | rfl | ⟨step, k, ls, -, h⟩ := mem_peekOperand h
  · decide
  · decide
  · rintro rfl
    rcases head_of_mem_numbered h with h | ⟨c, cs, h, hc⟩
    · exact absurd h (by decide)
    · obtain rfl : 'p' = c := (List.cons.inj h).1
      exact absurd hc (by decide)

/-- A line of the operands is one of an operand. -/
theorem mem_peekOperands {w : World} {o : PeekFlags} {stdin as : List Str} {l : Str}
    (h : l ∈ peekOperands w o stdin as) : ∃ stdin' a, l ∈ (peekOperand w o stdin' a).1 := by
  induction as generalizing stdin with
  | nil => simp [peekOperands] at h
  | cons a as ih =>
    rw [peekOperands] at h
    rcases List.mem_append.mp h with h | h
    · exact ⟨stdin, a, h⟩
    · exact ih h

/-- The operands print the text of the message: there are no numbers, and the lines
that stand for them are the message. -/
theorem peekOperands_eq_syntax_iff (w : World) (o : PeekFlags) (stdin as : List Str) :
    unlines (peekOperands w o stdin as) = peekSyntax ↔
      o.num = false ∧ shownLines w o.rev stdin as = ["peek: invalid syntax".toList] := by
  have hmsg : peekSyntax = unlines ["peek: invalid syntax".toList] := by decide
  have hinj : unlines (peekOperands w o stdin as) = peekSyntax ↔
      peekOperands w o stdin as = ["peek: invalid syntax".toList] := by
    rw [hmsg]
    constructor
    · refine unlines_inj (fun l hl => ?_) (fun l hl => ?_)
      · obtain ⟨_, _, hl⟩ := mem_peekOperands hl
        exact newline_not_mem_peekOperand hl
      · rw [List.mem_singleton.mp hl]
        decide
    · intro h
      rw [h]
  rw [hinj]
  obtain ⟨rev, num⟩ := o
  cases num with
  | false =>
    rw [peekOperands_eq]
    simp
  | true =>
    simp only [Bool.true_eq_false, false_and, iff_false]
    intro h
    have hmem : "peek: invalid syntax".toList ∈ peekOperands w ⟨rev, true⟩ stdin as := by
      rw [h]
      exact List.mem_singleton_self _
    obtain ⟨_, _, hl⟩ := mem_peekOperands hmem
    exact mem_peekOperand_num hl rfl

/-! ### Calls by their arguments -/

section Calls

variable {w : World} {cmd : Str} {ws : List Str}

/-- What follows words with an unknown letter is not looked at. -/
theorem peek_append_unknown {os : List Str} (hos : ∀ a ∈ os, isOption a = true)
    (h : ¬ Known peekLetter os) :
    ∃ c, ∀ r, peek w (cmd :: (os ++ r)) = invalidOption "peek".toList c := by
  obtain ⟨c, hc⟩ := words_append_unknown hos h
  refine ⟨c, fun r => ?_⟩
  rw [peek, List.tail_cons, hc]

/-- The flags that the letters set. -/
def peekFlags (os : List Str) : PeekFlags := ⟨hasLetter 'r' os, hasLetter 'n' os⟩

theorem words_peek (h : Known peekLetter (ws.takeWhile isOption)) :
    words peekLetter isOption ws ⟨false, false⟩ =
      .ok (peekFlags (ws.takeWhile isOption), ws.dropWhile isOption) := by
  obtain ⟨o, ho⟩ := words_known h ⟨false, false⟩
  have hr : o.rev = (false || hasLetter 'r' (ws.takeWhile isOption)) := by
    refine words_flag (b := PeekFlags.rev) (fun c g hg f => ?_) ho
    rcases twoLetters_cases hg with ⟨rfl, rfl⟩ | ⟨rfl, rfl⟩ <;> simp
  have hn : o.num = (false || hasLetter 'n' (ws.takeWhile isOption)) := by
    refine words_flag (b := PeekFlags.num) (fun c g hg f => ?_) ho
    rcases twoLetters_cases hg with ⟨rfl, rfl⟩ | ⟨rfl, rfl⟩ <;> simp
  rw [ho, peekFlags, ← Bool.false_or (hasLetter 'r' _), ← Bool.false_or (hasLetter 'n' _), ← hr, ← hn]

/-- Options of known letters and operands. -/
theorem peek_known (h : Known peekLetter (ws.takeWhile isOption)) (hr : ws.dropWhile isOption ≠ []) :
    peek w (cmd :: ws) = unlines
      (peekOperands w (peekFlags (ws.takeWhile isOption)) w.stdin (ws.dropWhile isOption)) := by
  rw [peek, List.tail_cons, words_peek h]
  cases hd : ws.dropWhile isOption with
  | nil => exact absurd hd hr
  | cons a as => rfl

/-- Options of known letters and nothing else. -/
theorem peek_options (hcmd : cmd ≠ ['-']) (h : Known peekLetter (ws.takeWhile isOption))
    (hr : ws.dropWhile isOption = []) : peek w (cmd :: ws) = peekSyntax := by
  have hlast : (cmd :: ws).getLast? ≠ some ['-'] := by
    intro hl
    rcases List.mem_cons.mp (List.mem_of_getLast? hl) with rfl | hm
    · exact hcmd rfl
    · exact absurd (List.dropWhile_eq_nil_iff.mp hr _ hm) (by decide)
  rw [peek, List.tail_cons, words_peek h, hr]
  exact if_neg hlast

end Calls

end Cshell
