/-
The lexer of the shell (`c-shell/src/lexer.c`).

The index `i` of the source is the suffix of the line that starts there.  A
failed call (`return -1`) is `none`.  The token table of the caller has 100
entries and the lexer does not check it: the model is the code on the lines
whose tokens fit.

Where `lexer` leaves `i` matters: after an operator it stands on the operator,
after a word on the character that ended the word, and the `i++` of the outer
loop steps over it in both cases.
-/
import Mathlib.Data.List.Basic

namespace Cshell

/-- A C string, without its terminator. -/
abbrev Str := List Char

/-- The `type` of a token: 0 for an operator, 4 for a word. -/
inductive TokType
  | special
  | ordinary
  deriving DecidableEq, Repr

structure Token where
  value : Str
  type : TokType
  deriving DecidableEq, Repr

/-- The characters the lexer skips between tokens. -/
def isBlank (c : Char) : Bool := c = ' ' || c = '\t' || c = '\n' || c = '\r'

/-- The characters that are, or start, an operator. -/
def isOp (c : Char) : Bool := c = '|' || c = '&' || c = '<' || c = '>' || c = ';'

/-- Text in front of what has been read. -/
def prepend (t : Str) (x : Str × Str) : Str × Str := (t ++ x.1, x.2)

/-- The loop inside double quotes, from after the opening one: the text read and
what follows the closing one. -/
def dquote : Str → Option (Str × Str)
  | [] => none
  | c :: cs =>
    if c = '"' then some ([], cs)
    else if c = '\\' then
      match cs with
      | [] => none
      | d :: ds => (dquote ds).map (prepend (if d = '"' ∨ d = '\\' then [d] else ['\\', d]))
    else (dquote cs).map (prepend [c])

/-- The loop inside single quotes. -/
def squote : Str → Option (Str × Str)
  | [] => none
  | c :: cs => if c = '\'' then some ([], cs) else (squote cs).map (prepend [c])

@[simp] theorem dquote_quote (cs : Str) : dquote ('"' :: cs) = some ([], cs) := by
  cases cs <;> simp [dquote]

@[simp] theorem dquote_escape (d : Char) (ds : Str) : dquote ('\\' :: d :: ds) =
    (dquote ds).map (prepend (if d = '"' ∨ d = '\\' then [d] else ['\\', d])) := by
  simp [dquote]

theorem dquote_plain {c : Char} (h₁ : c ≠ '"') (h₂ : c ≠ '\\') (cs : Str) :
    dquote (c :: cs) = (dquote cs).map (prepend [c]) := by
  cases cs <;> simp [dquote, h₁, h₂]

theorem dquote_length {cs : Str} {x : Str × Str} (h : dquote cs = some x) :
    x.2.length < cs.length := by
  fun_induction dquote cs generalizing x with
  | case1 => cases h
  | case2 =>
    cases h
    simp
  | case3 => cases h
  | case4 d ds _ ih =>
    obtain ⟨y, hy, rfl⟩ := Option.map_eq_some_iff.mp h
    have := ih hy
    simp only [prepend, List.length_cons]
    omega
  | case5 c cs _ _ ih =>
    obtain ⟨y, hy, rfl⟩ := Option.map_eq_some_iff.mp h
    have := ih hy
    simp only [prepend, List.length_cons]
    omega

theorem squote_length {cs : Str} {x : Str × Str} (h : squote cs = some x) :
    x.2.length < cs.length := by
  fun_induction squote cs generalizing x with
  | case1 => cases h
  | case2 =>
    cases h
    simp
  | case3 c cs _ ih =>
    obtain ⟨y, hy, rfl⟩ := Option.map_eq_some_iff.mp h
    have := ih hy
    simp only [prepend, List.length_cons]
    omega

/-- The loop that reads a word: its text, and the suffix at the character that
ended it. -/
def word : Str → Option (Str × Str)
  | [] => some ([], [])
  | c :: cs =>
    if isBlank c || isOp c then some ([], c :: cs)
    else if c = '\\' then
      match cs with
      | [] => none
      | d :: ds => (word ds).map (prepend [d])
    else if c = '"' then
      match _h : dquote cs with
      | none => none
      | some (t, r) => (word r).map (prepend t)
    else if c = '\'' then
      match _h : squote cs with
      | none => none
      | some (t, r) => (word r).map (prepend t)
    else (word cs).map (prepend [c])
termination_by cs => cs.length
decreasing_by
  · simp only [List.length_cons]
    omega
  · have := dquote_length _h
    simp only [List.length_cons] at this ⊢
    omega
  · have := squote_length _h
    simp only [List.length_cons] at this ⊢
    omega
  · simp

/-! One step of the word loop. -/

theorem word_end {c : Char} (h : isBlank c = true ∨ isOp c = true) (cs : Str) :
    word (c :: cs) = some ([], c :: cs) := by
  have hc : (isBlank c || isOp c) = true := by simpa using h
  cases cs <;> simp [word, hc]

theorem word_escape (d : Char) (ds : Str) : word ('\\' :: d :: ds) = (word ds).map (prepend [d]) := by
  simp [word, isBlank, isOp]

theorem word_dquote (cs : Str) : word ('"' :: cs) =
    (dquote cs).bind fun x => (word x.2).map (prepend x.1) := by
  rw [word.eq_def]
  simp only [isBlank, isOp]
  simp only [Char.reduceEq, decide_false, Bool.or_self, Bool.false_eq_true, if_false, if_true]
  cases h : dquote cs with
  | none => simp
  | some x => simp

theorem word_squote (cs : Str) : word ('\'' :: cs) =
    (squote cs).bind fun x => (word x.2).map (prepend x.1) := by
  rw [word.eq_def]
  simp only [isBlank, isOp]
  simp only [Char.reduceEq, decide_false, Bool.or_self, Bool.false_eq_true, if_false, if_true]
  cases h : squote cs with
  | none => simp
  | some x => simp

theorem word_plain {c : Char} (h₁ : isBlank c = false) (h₂ : isOp c = false) (h₃ : c ≠ '\\')
    (h₄ : c ≠ '"') (h₅ : c ≠ '\'') (cs : Str) :
    word (c :: cs) = (word cs).map (prepend [c]) := by
  cases cs <;> simp [word, h₁, h₂, h₃, h₄, h₅]

theorem word_length {cs : Str} {x : Str × Str} (h : word cs = some x) :
    x.2.length ≤ cs.length := by
  fun_induction word cs generalizing x with
  | case1 =>
    cases h
    exact Nat.le_refl _
  | case2 =>
    cases h
    exact Nat.le_refl _
  | case3 => cases h
  | case4 d ds _ ih =>
    obtain ⟨y, hy, rfl⟩ := Option.map_eq_some_iff.mp h
    have := ih hy
    simp only [prepend, List.length_cons]
    omega
  | case5 => cases h
  | case6 cs t r hr _ _ ih =>
    obtain ⟨y, hy, rfl⟩ := Option.map_eq_some_iff.mp h
    have hw := ih hy
    have hq := dquote_length hr
    simp only [prepend, List.length_cons] at hq ⊢
    omega
  | case7 => cases h
  | case8 cs t r hr _ _ _ ih =>
    obtain ⟨y, hy, rfl⟩ := Option.map_eq_some_iff.mp h
    have hw := ih hy
    have hq := squote_length hr
    simp only [prepend, List.length_cons] at hq ⊢
    omega
  | case9 c cs _ _ _ _ ih =>
    obtain ⟨y, hy, rfl⟩ := Option.map_eq_some_iff.mp h
    have := ih hy
    simp only [prepend, List.length_cons]
    omega

/-- The outer loop from the suffix `cmd` on: the tokens it writes. -/
def lexLoop : Str → Option (List Token)
  | [] => some []
  | c :: cs =>
    if isBlank c then lexLoop cs
    else if c = '>' then
      match cs with
      | [] => some [⟨['>'], .special⟩]
      | d :: ds =>
        if d = '>' then (lexLoop ds).map (⟨['>', '>'], .special⟩ :: ·)
        else (lexLoop (d :: ds)).map (⟨['>'], .special⟩ :: ·)
    else if isOp c then (lexLoop cs).map (⟨[c], .special⟩ :: ·)
    else
      match _h : word (c :: cs) with
      | none => none
      | some (t, r) =>
        -- the `i++` of the outer loop, past the character that ended the word
        (lexLoop r.tail).map (⟨t, .ordinary⟩ :: ·)
termination_by cmd => cmd.length
decreasing_by
  · simp
  · simp only [List.length_cons]
    omega
  · simp
  · simp
  · have := word_length _h
    simp only [List.length_tail, List.length_cons] at this ⊢
    omega

/-! One round of the outer loop. -/

theorem lexLoop_blank {c : Char} (h : isBlank c = true) (cs : Str) :
    lexLoop (c :: cs) = lexLoop cs := by
  rw [lexLoop.eq_def]
  simp only [h, if_true]

theorem isBlank_of_isOp {c : Char} (h : isOp c = true) : isBlank c = false := by
  simp only [isOp, Bool.or_eq_true, decide_eq_true_eq] at h
  rcases h with (((rfl | rfl) | rfl) | rfl) | rfl <;> rfl

theorem lexLoop_op {c : Char} (h : isOp c = true) (hc : c ≠ '>') (cs : Str) :
    lexLoop (c :: cs) = (lexLoop cs).map (⟨[c], .special⟩ :: ·) := by
  have hb := isBlank_of_isOp h
  rw [lexLoop.eq_def]
  simp only [hb, h, hc, if_true, if_false, Bool.false_eq_true]

theorem lexLoop_gt {cs : Str} (h : cs.head? ≠ some '>') :
    lexLoop ('>' :: cs) = (lexLoop cs).map (⟨['>'], .special⟩ :: ·) := by
  have hb : isBlank '>' = false := rfl
  rw [lexLoop.eq_def]
  simp only [hb, if_true, if_false, Bool.false_eq_true]
  cases cs with
  | nil => simp [lexLoop]
  | cons d ds =>
    have hd : d ≠ '>' := fun he => h (by rw [he]; rfl)
    simp only [hd, if_false]

theorem lexLoop_gtgt (cs : Str) :
    lexLoop ('>' :: '>' :: cs) = (lexLoop cs).map (⟨['>', '>'], .special⟩ :: ·) := by
  have hb : isBlank '>' = false := rfl
  rw [lexLoop.eq_def]
  simp only [hb, if_true, if_false, Bool.false_eq_true]

theorem lexLoop_word {c : Char} (h₁ : isBlank c = false) (h₂ : isOp c = false) (cs : Str) :
    lexLoop (c :: cs) = (word (c :: cs)).bind fun x =>
      (lexLoop x.2.tail).map (⟨x.1, .ordinary⟩ :: ·) := by
  have hc : c ≠ '>' := by
    rintro rfl
    cases h₂
  rw [lexLoop.eq_def]
  simp only [h₁, h₂, hc, if_false, Bool.false_eq_true]
  cases h : word (c :: cs) with
  | none => simp
  | some x => simp

/-- `lexer(cmd, args, len1)`. -/
def lexer (cmd : Str) : Option (List Token) := lexLoop cmd

end Cshell
