/-
The token table that `lexer` fills.

`process_cmd` hands `lexer` a table of 100 entries.  The entry of a token is
written at `args_index`, before its text is read, and its buffer is as long as
what is left of the line, with one more byte for the terminator.

* `lexTable` — the entries in the order they are written, the last one without
  a token when the line ends inside a word;
* `lexTable_tokens` — the tokens are those of `lexer`;
* `readLine` — the line read character by character: which characters start a
  token, and whether it ends where it must not;
* `lexTable_indices` — the indices are consecutive, and there are as many of
  them as tokens start on the line.
-/
import CshellXv6.Shell.Lexer

namespace Cshell

/-- An entry of the token table: its index, the size of its buffer, and its
token unless the line ends inside the word. -/
structure Slot where
  index : ℕ
  size : ℕ
  token : Option Token
  deriving DecidableEq, Repr

/-- The entries `lexer` writes from the suffix `cmd` on, `k` being `args_index`. -/
def lexTable (k : ℕ) : Str → List Slot
  | [] => []
  | c :: cs =>
    if isBlank c then lexTable k cs
    else if c = '>' then
      match cs with
      | [] => [⟨k, 2, some ⟨['>'], .special⟩⟩]
      | d :: ds =>
        if d = '>' then ⟨k, ds.length + 3, some ⟨['>', '>'], .special⟩⟩ :: lexTable (k + 1) ds
        else ⟨k, ds.length + 3, some ⟨['>'], .special⟩⟩ :: lexTable (k + 1) (d :: ds)
    else if isOp c then ⟨k, cs.length + 2, some ⟨[c], .special⟩⟩ :: lexTable (k + 1) cs
    else
      match _h : word (c :: cs) with
      | none => [⟨k, cs.length + 2, none⟩]
      | some (t, r) =>
        ⟨k, cs.length + 2, some ⟨t, .ordinary⟩⟩ :: lexTable (k + 1) r.tail
termination_by cmd => cmd.length
decreasing_by
  · simp
  · simp only [List.length_cons]
    omega
  · simp
  · simp
  · have := word_length _h
    simp only [List.length_tail, List.length_cons] at this ⊢
    omega

/-- The tokens of a table, `none` if one of them is cut off. -/
def tokens (slots : List Slot) : Option (List Token) := slots.mapM Slot.token

@[simp] theorem tokens_nil : tokens [] = some [] := rfl

@[simp] theorem tokens_some (k n : ℕ) (t : Token) (slots : List Slot) :
    tokens (⟨k, n, some t⟩ :: slots) = (tokens slots).map (t :: ·) := by
  cases h : tokens slots with
  | none => simp_all [tokens]
  | some ts => simp_all [tokens]

@[simp] theorem tokens_none (k n : ℕ) (slots : List Slot) : tokens (⟨k, n, none⟩ :: slots) = none := by
  simp [tokens]

/-- **The table holds the tokens of `lexer`.** -/
theorem lexTable_tokens (k : ℕ) (cmd : Str) : tokens (lexTable k cmd) = lexer cmd := by
  show tokens (lexTable k cmd) = lexLoop cmd
  fun_induction lexTable k cmd with
  | case1 => simp [lexLoop]
  | case2 k c cs hc ih => rw [lexLoop_blank hc, ih]
  | case3 k =>
    rw [lexLoop_gt (by simp)]
    simp [lexLoop]
  | case4 k ds _ ih => rw [tokens_some, ih, lexLoop_gtgt]
  | case5 k d ds hd _ ih => rw [tokens_some, ih, lexLoop_gt (by simpa using hd)]
  | case6 k c cs hb hc ho ih => rw [tokens_some, ih, lexLoop_op ho hc]
  | case7 k c cs hb hc ho hw =>
    rw [tokens_none, lexLoop_word (by simpa using hb) (by simpa using ho), hw]
    rfl
  | case8 k c cs hb hc ho t r hw ih =>
    rw [tokens_some, ih, lexLoop_word (by simpa using hb) (by simpa using ho), hw]
    rfl

/-! ### The tokens that start on a line -/

/-- Where a reader of the line stands: between tokens, after a `>`, in a word, in
one of its quotes, or after a backslash. -/
inductive Mode
  | between
  | gt
  | word
  | escape
  | dquote
  | dquoteEscape
  | squote
  deriving DecidableEq, Repr

/-- In a quote or after a backslash, where a line must not end. -/
def Mode.isOpen : Mode → Bool
  | .between | .gt | .word => false
  | .escape | .dquote | .dquoteEscape | .squote => true

/-- A character of a word. -/
def Mode.inWord (c : Char) : Mode :=
  if c = '\\' then .escape else if c = '"' then .dquote else if c = '\'' then .squote else .word

/-- A character between two tokens: it is blank, or it starts a token. -/
def Mode.first (c : Char) : Str × Mode :=
  if isBlank c then ([], .between)
  else if c = '>' then ([c], .gt)
  else if isOp c then ([c], .between)
  else ([c], .inWord c)

/-- Read a character: the character again if it starts a token, and where the reader
stands then.  The character that ends a word starts none. -/
def Mode.next : Mode → Char → Str × Mode
  | .between, c => Mode.first c
  | .gt, c => if c = '>' then ([], .between) else Mode.first c
  | .word, c => ([], if isBlank c || isOp c then .between else .inWord c)
  | .escape, _ => ([], .word)
  | .dquote, c => ([], if c = '"' then .word else if c = '\\' then .dquoteEscape else .dquote)
  | .dquoteEscape, _ => ([], .dquote)
  | .squote, c => ([], if c = '\'' then .word else .squote)

/-- Read a line: the characters that start its tokens, and whether it ends in a
quote or after a backslash. -/
def readLine : Mode → Str → Str × Bool
  | m, [] => ([], m.isOpen)
  | m, c :: cs => ((m.next c).1 ++ (readLine (m.next c).2 cs).1, (readLine (m.next c).2 cs).2)

/-- The characters of the line that start a token. -/
def tokenStarts (cmd : Str) : Str := (readLine .between cmd).1

/-- The line ends in a quote or after a backslash. -/
def endsOpen (cmd : Str) : Bool := (readLine .between cmd).2

/-- A character that starts a token, in front of what is read after it. -/
def withStart (c : Char) (x : Str × Bool) : Str × Bool := (c :: x.1, x.2)

/-- A character that starts no token. -/
theorem readLine_skip {m n : Mode} {c : Char} (h : m.next c = ([], n)) (cs : Str) :
    readLine m (c :: cs) = readLine n cs := by
  rw [readLine, h]
  rfl

/-- A character that starts a token. -/
theorem readLine_start {m n : Mode} {c : Char} (h : m.next c = ([c], n)) (cs : Str) :
    readLine m (c :: cs) = withStart c (readLine n cs) := by
  rw [readLine, h]
  rfl

/-- In double quotes no token starts. -/
theorem readLine_dquote (cs : Str) :
    readLine .dquote cs = ((dquote cs).map fun x => readLine .word x.2).getD ([], true) := by
  fun_induction dquote cs with
  | case1 => rfl
  | case2 cs =>
    rw [readLine_skip (n := .word) rfl]
    rfl
  | case3 => rfl
  | case4 d ds h ih =>
    rw [readLine_skip (n := .dquoteEscape) rfl, readLine_skip (n := .dquote) rfl, ih, Option.map_map]
    rfl
  | case5 c cs h₁ h₂ ih =>
    rw [readLine_skip (n := .dquote) (by simp [Mode.next, h₁, h₂]), ih, Option.map_map]
    rfl

theorem readLine_squote (cs : Str) :
    readLine .squote cs = ((squote cs).map fun x => readLine .word x.2).getD ([], true) := by
  fun_induction squote cs with
  | case1 => rfl
  | case2 cs =>
    rw [readLine_skip (n := .word) rfl]
    rfl
  | case3 c cs h ih =>
    rw [readLine_skip (n := .squote) (by simp [Mode.next, h]), ih, Option.map_map]
    rfl

/-- In a word no token starts, and the character that ends it is passed over. -/
theorem readLine_word (cs : Str) :
    readLine .word cs = ((word cs).map fun x => readLine .between x.2.tail).getD ([], true) := by
  fun_induction word cs with
  | case1 => rfl
  | case2 c cs hc =>
    rw [readLine_skip (n := .between) (by rw [Mode.next, if_pos hc])]
    rfl
  | case3 h => rfl
  | case4 d ds h ih =>
    rw [readLine_skip (n := .escape) rfl, readLine_skip (n := .word) rfl, ih, Option.map_map]
    rfl
  | case5 cs hq h₁ h₂ =>
    rw [readLine_skip (n := .dquote) rfl, readLine_dquote, hq]
    rfl
  | case6 cs t r hq h₁ h₂ ih =>
    rw [readLine_skip (n := .dquote) rfl, readLine_dquote, hq, Option.map_map]
    exact ih
  | case7 cs hq h₁ h₂ h₃ =>
    rw [readLine_skip (n := .squote) rfl, readLine_squote, hq]
    rfl
  | case8 cs t r hq h₁ h₂ h₃ ih =>
    rw [readLine_skip (n := .squote) rfl, readLine_squote, hq, Option.map_map]
    exact ih
  | case9 c cs h₁ h₂ h₃ h₄ ih =>
    have hnext : Mode.word.next c = ([], .word) := by
      simp [Mode.next, Mode.inWord, h₁, h₂, h₃, h₄]
    rw [readLine_skip hnext, ih, Option.map_map]
    rfl

/-! The tokens of a line, one at a time. -/

theorem readLine_blank {c : Char} (h : isBlank c = true) (cs : Str) :
    readLine .between (c :: cs) = readLine .between cs :=
  readLine_skip (by simp [Mode.next, Mode.first, h]) cs

theorem readLine_gtgt (cs : Str) :
    readLine .between ('>' :: '>' :: cs) = withStart '>' (readLine .between cs) := by
  rw [readLine_start (n := .gt) rfl, readLine_skip (n := .between) rfl]

theorem readLine_gt {cs : Str} (h : cs.head? ≠ some '>') :
    readLine .between ('>' :: cs) = withStart '>' (readLine .between cs) := by
  rw [readLine_start (n := .gt) rfl]
  cases cs with
  | nil => rfl
  | cons d ds =>
    have hd : d ≠ '>' := by simpa using h
    have hnext : Mode.gt.next d = Mode.between.next d := if_neg hd
    rw [readLine, hnext]
    rfl

theorem readLine_op {c : Char} (ho : isOp c = true) (hc : c ≠ '>') (cs : Str) :
    readLine .between (c :: cs) = withStart c (readLine .between cs) := by
  have hb := isBlank_of_isOp ho
  exact readLine_start (by simp [Mode.next, Mode.first, hb, hc, ho]) cs

/-- A word, read from its first character on. -/
theorem readLine_first {c : Char} (hb : isBlank c = false) (ho : isOp c = false) (cs : Str) :
    readLine .between (c :: cs) =
      withStart c (((word (c :: cs)).map fun x => readLine .between x.2.tail).getD ([], true)) := by
  have hc : c ≠ '>' := by
    rintro rfl
    cases ho
  have hword : Mode.word.next c = ([], .inWord c) := by simp [Mode.next, hb, ho]
  rw [readLine_start (n := .inWord c) (by simp [Mode.next, Mode.first, hb, hc, ho]), ← readLine_word,
    readLine_skip hword]

/-- **The table has one entry for each token that starts on the line**, at
consecutive indices. -/
theorem lexTable_indices (k : ℕ) (cmd : Str) :
    (lexTable k cmd).map Slot.index = List.range' k (tokenStarts cmd).length := by
  fun_induction lexTable k cmd with
  | case1 => rfl
  | case2 k c cs hc ih => rw [ih, tokenStarts, tokenStarts, readLine_blank hc]
  | case3 k => rfl
  | case4 k ds _ ih =>
    rw [List.map_cons, ih, tokenStarts, tokenStarts, readLine_gtgt, withStart, List.length_cons,
      List.range'_succ]
  | case5 k d ds hd _ ih =>
    rw [List.map_cons, ih, tokenStarts, tokenStarts, readLine_gt (by simpa using hd), withStart,
      List.length_cons, List.range'_succ]
  | case6 k c cs hb hc ho ih =>
    rw [List.map_cons, ih, tokenStarts, tokenStarts, readLine_op ho hc, withStart, List.length_cons,
      List.range'_succ]
  | case7 k c cs hb hc ho hw =>
    rw [tokenStarts, readLine_first (by simpa using hb) (by simpa using ho), hw]
    rfl
  | case8 k c cs hb hc ho t r hw ih =>
    rw [List.map_cons, ih, tokenStarts, tokenStarts,
      readLine_first (by simpa using hb) (by simpa using ho), hw, withStart, List.length_cons,
      List.range'_succ]
    rfl

end Cshell
