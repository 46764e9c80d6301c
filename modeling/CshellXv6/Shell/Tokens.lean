/-
What the lexer is for: the tokens of a line.

A word is written as a sequence of `Part`s: plain characters, escapes, and
stretches in single or double quotes.  `Tokenizes l ts` is the reference: blanks
separate, an operator is a token wherever it stands, a word is as long as it can
be.  `Broken l` says that the line ends inside a quote or after a backslash that
starts an escape.

* `lexer_none_iff` — the lexer fails exactly on the broken lines;
* `lexer_eq_reference_iff` — it returns the tokens of the line if and only if no
  word is directly followed by an operator: that operator is lost, or a `>>`
  becomes a `>`.
-/
import CshellXv6.Shell.Lexer
import Mathlib.Algebra.GroupWithZero.Nat

namespace Cshell

/-! ### How a word is written -/

/-- A character between double quotes, or a backslash and the character after
it. -/
inductive DPart
  | plain (c : Char)
  | escape (c : Char)
  deriving DecidableEq, Repr

/-- A stretch of a word. -/
inductive Part
  | plain (c : Char)
  | escape (c : Char)
  | single (s : Str)
  | double (s : List DPart)
  deriving DecidableEq, Repr

namespace DPart

def source : DPart → Str
  | plain c => [c]
  | escape c => ['\\', c]

/-- Between double quotes a backslash escapes a double quote or a backslash and
is kept otherwise. -/
def text : DPart → Str
  | plain c => [c]
  | escape c => if c = '"' ∨ c = '\\' then [c] else ['\\', c]

def Ok : DPart → Prop
  | plain c => c ≠ '"' ∧ c ≠ '\\'
  | escape _ => True

end DPart

namespace Part

def source : Part → Str
  | plain c => [c]
  | escape c => ['\\', c]
  | single s => '\'' :: (s ++ ['\''])
  | double s => '"' :: (s.flatMap DPart.source ++ ['"'])

def text : Part → Str
  | plain c => [c]
  | escape c => [c]
  | single s => s
  | double s => s.flatMap DPart.text

def Ok : Part → Prop
  | plain c => isBlank c = false ∧ isOp c = false ∧ c ≠ '\\' ∧ c ≠ '"' ∧ c ≠ '\''
  | escape _ => True
  | single s => '\'' ∉ s
  | double s => ∀ d ∈ s, d.Ok

end Part

/-- How a word is written. -/
def source (ps : List Part) : Str := ps.flatMap Part.source

/-- The word, with quotes and escapes removed. -/
def text (ps : List Part) : Str := ps.flatMap Part.text

/-- A word can end here: at the end of the line, a blank or an operator. -/
def Ends (r : Str) : Prop := ∀ c ∈ r.head?, isBlank c = true ∨ isOp c = true

/-- The line ends inside a quote or after a backslash that starts an escape. -/
inductive Unterminated : Str → Prop
  | escape : Unterminated ['\\']
  | single {s : Str} : '\'' ∉ s → Unterminated ('\'' :: s)
  | double {s : List DPart} : (∀ d ∈ s, d.Ok) → Unterminated ('"' :: s.flatMap DPart.source)
  | doubleEscape {s : List DPart} : (∀ d ∈ s, d.Ok) →
      Unterminated ('"' :: (s.flatMap DPart.source ++ ['\\']))

/-! ### The tokens of a line -/

/-- **The reference tokenization.** -/
inductive Tokenizes : Str → List Token → Prop
  | nil : Tokenizes [] []
  | blank {c : Char} {l : Str} {ts : List Token} : isBlank c = true → Tokenizes l ts →
      Tokenizes (c :: l) ts
  | op {c : Char} {l : Str} {ts : List Token} : isOp c = true → c ≠ '>' → Tokenizes l ts →
      Tokenizes (c :: l) (⟨[c], .special⟩ :: ts)
  | gt {l : Str} {ts : List Token} : l.head? ≠ some '>' → Tokenizes l ts →
      Tokenizes ('>' :: l) (⟨['>'], .special⟩ :: ts)
  | gtgt {l : Str} {ts : List Token} : Tokenizes l ts →
      Tokenizes ('>' :: '>' :: l) (⟨['>', '>'], .special⟩ :: ts)
  | word {ps : List Part} {l : Str} {ts : List Token} : ps ≠ [] → (∀ p ∈ ps, p.Ok) → Ends l →
      Tokenizes l ts → Tokenizes (source ps ++ l) (⟨text ps, .ordinary⟩ :: ts)

/-- The line ends inside a quote or after a backslash that starts an escape. -/
inductive Broken : Str → Prop
  | here {ps : List Part} {u : Str} : (∀ p ∈ ps, p.Ok) → Unterminated u → Broken (source ps ++ u)
  | blank {c : Char} {l : Str} : isBlank c = true → Broken l → Broken (c :: l)
  | op {c : Char} {l : Str} : isOp c = true → Broken l → Broken (c :: l)
  | word {ps : List Part} {l : Str} : ps ≠ [] → (∀ p ∈ ps, p.Ok) → Ends l → Broken l →
      Broken (source ps ++ l)

/-- Some word of the line is directly followed by an operator. -/
inductive OperatorAfterWord : Str → Prop
  | here {ps : List Part} {c : Char} {l : Str} : ps ≠ [] → (∀ p ∈ ps, p.Ok) → isOp c = true →
      OperatorAfterWord (source ps ++ c :: l)
  | blank {c : Char} {l : Str} : isBlank c = true → OperatorAfterWord l → OperatorAfterWord (c :: l)
  | op {c : Char} {l : Str} : isOp c = true → OperatorAfterWord l → OperatorAfterWord (c :: l)
  | word {ps : List Part} {l : Str} : ps ≠ [] → (∀ p ∈ ps, p.Ok) → Ends l → OperatorAfterWord l →
      OperatorAfterWord (source ps ++ l)

/-! ### The quote loops -/

theorem dquote_source {s : List DPart} (hs : ∀ d ∈ s, d.Ok) (r : Str) :
    dquote (s.flatMap DPart.source ++ '"' :: r) = some (s.flatMap DPart.text, r) := by
  induction s with
  | nil => exact dquote_quote r
  | cons d s ih =>
    have hd := hs d (by simp)
    have ih := ih fun e he => hs e (by simp [he])
    cases d with
    | plain c =>
      obtain ⟨h₁, h₂⟩ := hd
      simp [DPart.source, DPart.text, dquote_plain h₁ h₂, ih, prepend]
    | escape c => simp [DPart.source, DPart.text, ih, prepend]

theorem dquote_none {s : List DPart} (hs : ∀ d ∈ s, d.Ok) {u : Str} (hu : u = [] ∨ u = ['\\']) :
    dquote (s.flatMap DPart.source ++ u) = none := by
  induction s with
  | nil => rcases hu with rfl | rfl <;> simp [dquote]
  | cons d s ih =>
    have hd := hs d (by simp)
    have ih := ih fun e he => hs e (by simp [he])
    cases d with
    | plain c =>
      obtain ⟨h₁, h₂⟩ := hd
      simp [DPart.source, dquote_plain h₁ h₂, ih]
    | escape c => simp [DPart.source, ih]

/-- What stands after an opening double quote. -/
theorem dquote_cases (l : Str) : ∃ s : List DPart, (∀ d ∈ s, d.Ok) ∧
    ((∃ r, l = s.flatMap DPart.source ++ '"' :: r) ∨ l = s.flatMap DPart.source ∨
      l = s.flatMap DPart.source ++ ['\\']) := by
  fun_induction dquote l with
  | case1 => exact ⟨[], by simp, .inr (.inl rfl)⟩
  | case2 cs => exact ⟨[], by simp, .inl ⟨cs, rfl⟩⟩
  | case3 => exact ⟨[], by simp, .inr (.inr rfl)⟩
  | case4 d ds _ ih =>
    obtain ⟨s, hs, h⟩ := ih
    refine ⟨.escape d :: s, by simpa [DPart.Ok] using hs, ?_⟩
    simpa [DPart.source] using h
  | case5 c cs h₁ h₂ ih =>
    obtain ⟨s, hs, h⟩ := ih
    refine ⟨.plain c :: s, by simpa [DPart.Ok, h₁, h₂] using hs, ?_⟩
    simpa [DPart.source] using h

theorem squote_source {s : Str} (hs : '\'' ∉ s) (r : Str) :
    squote (s ++ '\'' :: r) = some (s, r) := by
  induction s with
  | nil => simp [squote]
  | cons c s ih =>
    have hc : c ≠ '\'' := fun h => hs (by simp [h])
    have ih := ih fun h => hs (by simp [h])
    simp [squote, hc, ih, prepend]

theorem squote_none {s : Str} (hs : '\'' ∉ s) : squote s = none := by
  induction s with
  | nil => rfl
  | cons c s ih =>
    have hc : c ≠ '\'' := fun h => hs (by simp [h])
    have ih := ih fun h => hs (by simp [h])
    simp [squote, hc, ih]

/-- What stands after an opening single quote. -/
theorem squote_cases (l : Str) : ∃ s : Str, '\'' ∉ s ∧ ((∃ r, l = s ++ '\'' :: r) ∨ l = s) := by
  induction l with
  | nil => exact ⟨[], by simp, .inr rfl⟩
  | cons c cs ih =>
    by_cases hc : c = '\''
    · subst hc
      exact ⟨[], by simp, .inl ⟨cs, rfl⟩⟩
    · obtain ⟨s, hs, h⟩ := ih
      refine ⟨c :: s, by simpa [Ne.symm hc] using hs, ?_⟩
      simpa using h

/-! ### The word loop -/

theorem word_part {p : Part} (hp : p.Ok) (l : Str) :
    word (p.source ++ l) = (word l).map (prepend p.text) := by
  cases p with
  | plain c =>
    obtain ⟨h₁, h₂, h₃, h₄, h₅⟩ := hp
    exact word_plain h₁ h₂ h₃ h₄ h₅ l
  | escape c => exact word_escape c l
  | single s => simp [Part.source, Part.text, word_squote, squote_source hp]
  | double s => simp [Part.source, Part.text, word_dquote, dquote_source hp]

theorem prepend_append (t t' : Str) : prepend t ∘ prepend t' = prepend (t ++ t') := by
  funext x
  simp [prepend]

theorem word_parts {ps : List Part} (hp : ∀ p ∈ ps, p.Ok) (l : Str) :
    word (source ps ++ l) = (word l).map (prepend (text ps)) := by
  induction ps with
  | nil =>
    have : prepend (text []) = id := by
      funext x
      simp [prepend, text]
    simp [source, this]
  | cons p ps ih =>
    have ih := ih fun q hq => hp q (by simp [hq])
    have hs : source (p :: ps) ++ l = p.source ++ (source ps ++ l) := by simp [source]
    rw [hs, word_part (hp p (by simp)), ih, Option.map_map, prepend_append]
    rfl

/-- The word loop reads a word to its end. -/
theorem word_source {ps : List Part} (hp : ∀ p ∈ ps, p.Ok) {l : Str} (hl : Ends l) :
    word (source ps ++ l) = some (text ps, l) := by
  have hw : word l = some ([], l) := by
    cases l with
    | nil => simp [word]
    | cons c cs => exact word_end (hl c rfl) cs
  rw [word_parts hp, hw]
  simp [prepend]

theorem word_unterminated {ps : List Part} (hp : ∀ p ∈ ps, p.Ok) {u : Str} (hu : Unterminated u) :
    word (source ps ++ u) = none := by
  rw [word_parts hp, Option.map_eq_none_iff]
  cases hu with
  | escape => simp [word, isBlank, isOp]
  | single hs => simp [word_squote, squote_none hs]
  | double hs =>
    have := dquote_none hs (.inl rfl)
    rw [List.append_nil] at this
    simp [word_dquote, this]
  | doubleEscape hs => simp [word_dquote, dquote_none hs (.inr rfl)]

/-- Every suffix that is not at a blank or an operator starts a word, which ends
or is cut off by the end of the line. -/
theorem word_cases (l : Str) : ∃ ps : List Part, (∀ p ∈ ps, p.Ok) ∧
    ((∃ r, Ends r ∧ l = source ps ++ r) ∨ ∃ u, Unterminated u ∧ l = source ps ++ u) := by
  -- a first part in front of what the loop reads next
  have cons : ∀ {p : Part} {r : Str}, p.Ok → (∃ ps : List Part, (∀ p ∈ ps, p.Ok) ∧
      ((∃ r', Ends r' ∧ r = source ps ++ r') ∨ ∃ u, Unterminated u ∧ r = source ps ++ u)) →
      ∃ ps : List Part, (∀ p ∈ ps, p.Ok) ∧ ((∃ r', Ends r' ∧ p.source ++ r = source ps ++ r') ∨
        ∃ u, Unterminated u ∧ p.source ++ r = source ps ++ u) := by
    rintro p r hp ⟨ps, hps, h⟩
    refine ⟨p :: ps, by simpa [hp] using hps, ?_⟩
    simpa [source] using h
  fun_induction word l with
  | case1 => exact ⟨[], by simp, .inl ⟨[], by simp [Ends], rfl⟩⟩
  | case2 c cs hc =>
    refine ⟨[], by simp, .inl ⟨c :: cs, ?_, rfl⟩⟩
    simpa [Ends] using hc
  | case3 => exact ⟨[], by simp, .inr ⟨_, .escape, rfl⟩⟩
  | case4 d ds _ ih => exact cons (p := .escape d) trivial ih
  | case5 cs hd =>
    obtain ⟨s, hs, ⟨r, rfl⟩ | rfl | rfl⟩ := dquote_cases cs
    · rw [dquote_source hs] at hd
      cases hd
    · exact ⟨[], by simp, .inr ⟨_, .double hs, rfl⟩⟩
    · exact ⟨[], by simp, .inr ⟨_, .doubleEscape hs, rfl⟩⟩
  | case6 cs t r hd _ _ ih =>
    obtain ⟨s, hs, ⟨r', rfl⟩ | rfl | rfl⟩ := dquote_cases cs
    · rw [dquote_source hs] at hd
      cases hd
      simpa [Part.source] using cons (p := .double s) hs ih
    · rw [← List.append_nil (s.flatMap _), dquote_none hs (.inl rfl)] at hd
      cases hd
    · rw [dquote_none hs (.inr rfl)] at hd
      cases hd
  | case7 cs hd =>
    obtain ⟨s, hs, ⟨r, rfl⟩ | rfl⟩ := squote_cases cs
    · rw [squote_source hs] at hd
      cases hd
    · exact ⟨[], by simp, .inr ⟨_, .single hs, rfl⟩⟩
  | case8 cs t r hd _ _ _ ih =>
    obtain ⟨s, hs, ⟨r', rfl⟩ | rfl⟩ := squote_cases cs
    · rw [squote_source hs] at hd
      cases hd
      simpa [Part.source] using cons (p := .single _) hs ih
    · rw [squote_none hs] at hd
      cases hd
  | case9 c cs hc h₃ h₄ h₅ ih =>
    simp only [Bool.or_eq_true, not_or, Bool.not_eq_true] at hc
    exact cons (p := .plain c) ⟨hc.1, hc.2, h₃, h₄, h₅⟩ ih

/-- A word does not start with a blank or an operator. -/
theorem source_head {ps : List Part} (hne : ps ≠ []) (hp : ∀ p ∈ ps, p.Ok) :
    ∃ c cs, source ps = c :: cs ∧ isBlank c = false ∧ isOp c = false := by
  obtain ⟨p, ps, rfl⟩ := List.exists_cons_of_ne_nil hne
  have hp := hp p (by simp)
  cases p with
  | plain c => exact ⟨c, source ps, rfl, hp.1, hp.2.1⟩
  | escape c => exact ⟨_, _, rfl, rfl, rfl⟩
  | single s => exact ⟨_, _, rfl, rfl, rfl⟩
  | double s => exact ⟨_, _, rfl, rfl, rfl⟩

theorem Unterminated.head {u : Str} (h : Unterminated u) :
    ∃ c cs, u = c :: cs ∧ isBlank c = false ∧ isOp c = false := by
  cases h <;> exact ⟨_, _, rfl, rfl, rfl⟩

/-- Induction over a line, token by token: it is empty, starts with a blank, an
operator or a word, or is cut off in its first word. -/
theorem line_induction {P : Str → Prop} (nil : P [])
    (blank : ∀ c l, isBlank c = true → P l → P (c :: l))
    (op : ∀ c l, isOp c = true → P l → P (c :: l))
    (word : ∀ ps l, ps ≠ [] → (∀ p ∈ ps, p.Ok) → Ends l → P l → P (source ps ++ l))
    (cut : ∀ ps u, (∀ p ∈ ps, p.Ok) → Unterminated u → P (source ps ++ u)) (l : Str) : P l := by
  induction hn : l.length using Nat.strongRecOn generalizing l with
  | ind n ih =>
    cases l with
    | nil => exact nil
    | cons c cs =>
      have hcs : P cs := ih _ (by rw [← hn]; simp) cs rfl
      by_cases hb : isBlank c = true
      · exact blank c cs hb hcs
      by_cases ho : isOp c = true
      · exact op c cs ho hcs
      obtain ⟨ps, hp, ⟨r, hr, hl⟩ | ⟨u, hu, hl⟩⟩ := word_cases (c :: cs)
      · have hne : ps ≠ [] := by
          rintro rfl
          rw [show source [] ++ r = r from rfl] at hl
          subst hl
          rcases hr c rfl with h' | h'
          · exact hb h'
          · exact ho h'
        obtain ⟨c', cs', hs, -⟩ := source_head hne hp
        have hlen : r.length < n := by
          rw [hl, hs] at hn
          simp only [List.cons_append, List.length_cons, List.length_append] at hn
          omega
        rw [hl]
        exact word ps r hne hp hr (ih _ hlen r rfl)
      · rw [hl]
        exact cut ps u hp hu

/-! ### The outer loop -/

/-- After a word the loop goes on past the character that ended it. -/
theorem lexLoop_source {ps : List Part} (hne : ps ≠ []) (hp : ∀ p ∈ ps, p.Ok) {l : Str}
    (hl : Ends l) : lexLoop (source ps ++ l) =
      (lexLoop l.tail).map (⟨text ps, .ordinary⟩ :: ·) := by
  obtain ⟨c, cs, hs, h₁, h₂⟩ := source_head hne hp
  have hw := word_source hp hl
  rw [hs, List.cons_append] at hw ⊢
  rw [lexLoop_word h₁ h₂, hw]
  rfl

theorem lexLoop_unterminated {ps : List Part} (hp : ∀ p ∈ ps, p.Ok) {u : Str}
    (hu : Unterminated u) : lexLoop (source ps ++ u) = none := by
  have hw := word_unterminated hp hu
  have hhead : ∃ c cs, source ps ++ u = c :: cs ∧ isBlank c = false ∧ isOp c = false := by
    cases ps with
    | nil => exact hu.head
    | cons p ps =>
      obtain ⟨c, cs, hs, h⟩ := source_head (List.cons_ne_nil p ps) hp
      exact ⟨c, cs ++ u, by rw [hs, List.cons_append], h⟩
  obtain ⟨c, cs, hs, h₁, h₂⟩ := hhead
  rw [hs] at hw ⊢
  rw [lexLoop_word h₁ h₂, hw]
  rfl

/-- The characters of the operators among the tokens. -/
def opChars (ts : List Token) : ℕ :=
  (ts.map fun t => if t.type = .special then t.value.length else 0).sum

@[simp] theorem opChars_special (v : Str) (ts : List Token) :
    opChars (⟨v, .special⟩ :: ts) = v.length + opChars ts := by simp [opChars]

@[simp] theorem opChars_ordinary (v : Str) (ts : List Token) :
    opChars (⟨v, .ordinary⟩ :: ts) = opChars ts := by simp [opChars]

/-- An operator character adds one, whatever it is grouped with. -/
theorem lexLoop_opChars {c : Char} (hc : isOp c = true) (l : Str) :
    (lexLoop (c :: l)).map opChars = (lexLoop l).map fun ts => opChars ts + 1 := by
  by_cases hg : c = '>'
  · subst hg
    have hgt : ∀ {l : Str}, l.head? ≠ some '>' →
        (lexLoop ('>' :: l)).map opChars = (lexLoop l).map fun ts => opChars ts + 1 := by
      intro l hl
      rw [lexLoop_gt hl, Option.map_map]
      congr 1
      funext ts
      simp [Nat.add_comm]
    induction l with
    | nil => exact hgt (by simp)
    | cons a l ih =>
      by_cases ha : a = '>'
      · subst ha
        have : (lexLoop ('>' :: '>' :: l)).map opChars =
            (lexLoop l).map fun ts => opChars ts + 1 + 1 := by
          rw [lexLoop_gtgt, Option.map_map]
          congr 1
          funext ts
          simp only [Function.comp_apply, opChars_special, List.length_cons, List.length_nil]
          omega
        rw [this, ← Function.comp_def (fun n => n + 1), ← Option.map_map, ← ih, Option.map_map]
        rfl
      · exact hgt (by simpa using ha)
  · rw [lexLoop_op hc hg, Option.map_map]
    congr 1
    funext ts
    simp [Nat.add_comm]

theorem lexLoop_op_none {c : Char} (hc : isOp c = true) (l : Str) :
    lexLoop (c :: l) = none ↔ lexLoop l = none := by
  have h := lexLoop_opChars hc l
  rw [← Option.map_eq_none_iff (f := opChars), h, Option.map_eq_none_iff]

/-- Past a blank or an operator the loop fails as before it. -/
theorem lexLoop_tail_none {l : Str} (hl : Ends l) : lexLoop l.tail = none ↔ lexLoop l = none := by
  cases l with
  | nil => rfl
  | cons c l =>
    rcases hl c rfl with hb | ho
    · rw [lexLoop_blank hb]
      rfl
    · exact (lexLoop_op_none ho l).symm

/-- **The lexer fails exactly on the broken lines.** -/
theorem lexer_none_iff (l : Str) : lexer l = none ↔ Broken l := by
  constructor
  · unfold lexer
    induction l using line_induction with
    | nil => simp [lexLoop]
    | blank c l hb ih =>
      intro h
      rw [lexLoop_blank hb] at h
      exact .blank hb (ih h)
    | op c l ho ih =>
      intro h
      exact .op ho (ih ((lexLoop_op_none ho l).mp h))
    | word ps l hne hp hl ih =>
      intro h
      rw [lexLoop_source hne hp hl, Option.map_eq_none_iff, lexLoop_tail_none hl] at h
      exact .word hne hp hl (ih h)
    | cut ps u hp hu => exact fun _ => .here hp hu
  · intro h
    unfold lexer
    induction h with
    | here hp hu => exact lexLoop_unterminated hp hu
    | blank hb _ ih => rw [lexLoop_blank hb, ih]
    | op ho _ ih => exact (lexLoop_op_none ho _).mpr ih
    | word hne hp hl _ ih =>
      rw [lexLoop_source hne hp hl, (lexLoop_tail_none hl).mpr ih]
      rfl

/-! ### The lexer and the reference -/

/-- One more `>` in front. -/
theorem Tokenizes.cons_gt {l : Str} {ts : List Token} (h : Tokenizes l ts) :
    ∃ ts', Tokenizes ('>' :: l) ts' ∧ opChars ts' = opChars ts + 1 := by
  have one : ∀ {l : Str} {ts : List Token}, Tokenizes l ts → l.head? ≠ some '>' →
      ∃ ts', Tokenizes ('>' :: l) ts' ∧ opChars ts' = opChars ts + 1 :=
    fun h hl => ⟨_, .gt hl h, by simp [Nat.add_comm]⟩
  induction h with
  | nil => exact one .nil (by simp)
  | blank hb h _ =>
    refine one (.blank hb h) ?_
    rintro he
    cases he
    cases hb
  | op ho hc h _ => exact one (.op ho hc h) (by simpa using hc)
  | gt hl h _ => exact ⟨_, .gtgt h, by simp; omega⟩
  | gtgt h ih =>
    obtain ⟨ts', h', ht⟩ := ih
    exact ⟨_, .gtgt h', by simp [ht]; omega⟩
  | @word ps l ts hne hp hl h _ =>
    refine one (.word hne hp hl h) ?_
    obtain ⟨c, cs, hs, -, ho⟩ := source_head hne hp
    rw [hs]
    rintro he
    cases he
    cases ho

/-- A line that is not broken has a tokenization. -/
theorem exists_tokenizes (l : Str) : Broken l ∨ ∃ ts, Tokenizes l ts := by
  induction l using line_induction with
  | nil => exact .inr ⟨[], .nil⟩
  | blank c l hb ih =>
    rcases ih with h | ⟨ts, h⟩
    · exact .inl (.blank hb h)
    · exact .inr ⟨ts, .blank hb h⟩
  | op c l ho ih =>
    rcases ih with h | ⟨ts, h⟩
    · exact .inl (.op ho h)
    · by_cases hc : c = '>'
      · subst hc
        obtain ⟨ts', h', -⟩ := h.cons_gt
        exact .inr ⟨ts', h'⟩
      · exact .inr ⟨_, .op ho hc h⟩
  | word ps l hne hp hl ih =>
    rcases ih with h | ⟨ts, h⟩
    · exact .inl (.word hne hp hl h)
    · exact .inr ⟨_, .word hne hp hl h⟩
  | cut ps u hp hu => exact .inl (.here hp hu)

theorem isOp_of_isBlank {c : Char} (h : isBlank c = true) : isOp c = false := by
  simp only [isBlank, Bool.or_eq_true, decide_eq_true_eq] at h
  rcases h with ((rfl | rfl) | rfl) | rfl <;> rfl

/-- Past the character that ended a word the loop finds no more operators than
from it. -/
theorem lexLoop_tail_le {l : Str} (hl : Ends l) {ts : List Token} (h : lexLoop l = some ts) :
    ∃ ts', lexLoop l.tail = some ts' ∧ opChars ts' ≤ opChars ts := by
  cases l with
  | nil => exact ⟨ts, h, Nat.le_refl _⟩
  | cons c l =>
    rcases hl c rfl with hb | ho
    · rw [lexLoop_blank hb] at h
      exact ⟨ts, h, Nat.le_refl _⟩
    · have hop := lexLoop_opChars ho l
      rw [h] at hop
      obtain ⟨ts', h', he⟩ := Option.map_eq_some_iff.mp hop.symm
      exact ⟨ts', h', by omega⟩

/-- The lexer does not fail on a line that has a tokenization, and loses, if
anything, characters of operators. -/
theorem Tokenizes.lexer_le {l : Str} {ts : List Token} (h : Tokenizes l ts) :
    ∃ ts', lexer l = some ts' ∧ opChars ts' ≤ opChars ts := by
  unfold lexer
  induction h with
  | nil => exact ⟨[], by simp [lexLoop], Nat.le_refl _⟩
  | blank hb _ ih => rwa [lexLoop_blank hb]
  | op ho hc _ ih =>
    obtain ⟨ts', h', hle⟩ := ih
    rw [lexLoop_op ho hc, h']
    exact ⟨_, rfl, by simpa using hle⟩
  | gt hl _ ih =>
    obtain ⟨ts', h', hle⟩ := ih
    rw [lexLoop_gt hl, h']
    exact ⟨_, rfl, by simpa using hle⟩
  | gtgt _ ih =>
    obtain ⟨ts', h', hle⟩ := ih
    rw [lexLoop_gtgt, h']
    exact ⟨_, rfl, by simpa using hle⟩
  | @word ps l ts hne hp hl _ ih =>
    obtain ⟨ts', h', hle⟩ := ih
    obtain ⟨ts₁, h₁, hle₁⟩ := lexLoop_tail_le hl h'
    rw [lexLoop_source hne hp hl, h₁]
    exact ⟨_, rfl, by simpa using Nat.le_trans hle₁ hle⟩

theorem Tokenizes.blank_inv {c : Char} {l : Str} {ts : List Token} (hb : isBlank c = true)
    (h : Tokenizes (c :: l) ts) : Tokenizes l ts := by
  generalize hx : c :: l = x at h
  cases h with
  | nil => cases hx
  | blank _ h =>
    cases hx
    exact h
  | op ho =>
    cases hx
    rw [isOp_of_isBlank hb] at ho
    cases ho
  | gt =>
    cases hx
    cases hb
  | gtgt =>
    cases hx
    cases hb
  | word hne hp =>
    obtain ⟨c', cs, hs, hb', -⟩ := source_head hne hp
    rw [hs] at hx
    cases hx
    rw [hb] at hb'
    cases hb'

theorem Tokenizes.op_inv {c : Char} {l : Str} {ts : List Token} (ho : isOp c = true)
    (h : Tokenizes (c :: l) ts) : ∃ ts', Tokenizes l ts' ∧ opChars ts = opChars ts' + 1 := by
  generalize hx : c :: l = x at h
  cases h with
  | nil => cases hx
  | blank hb =>
    cases hx
    rw [isOp_of_isBlank hb] at ho
    cases ho
  | op _ _ h =>
    cases hx
    exact ⟨_, h, by simp [Nat.add_comm]⟩
  | gt _ h =>
    cases hx
    exact ⟨_, h, by simp [Nat.add_comm]⟩
  | gtgt h =>
    cases hx
    obtain ⟨ts', h', ht⟩ := h.cons_gt
    exact ⟨ts', h', by simp [ht]; omega⟩
  | word hne hp =>
    obtain ⟨c', cs, hs, -, ho'⟩ := source_head hne hp
    rw [hs] at hx
    cases hx
    rw [ho] at ho'
    cases ho'

theorem Tokenizes.word_inv {ps : List Part} {l : Str} {ts : List Token} (hne : ps ≠ [])
    (hp : ∀ p ∈ ps, p.Ok) (hl : Ends l) (h : Tokenizes (source ps ++ l) ts) :
    ∃ ts', Tokenizes l ts' ∧ opChars ts = opChars ts' := by
  obtain ⟨c, cs, hs, hb, ho⟩ := source_head hne hp
  have hw := word_source hp hl
  generalize hx : source ps ++ l = x at h hw
  cases h with
  | nil =>
    rw [hs] at hx
    cases hx
  | blank hb' =>
    rw [hs] at hx
    cases hx
    rw [hb] at hb'
    cases hb'
  | op ho' =>
    rw [hs] at hx
    cases hx
    rw [ho] at ho'
    cases ho'
  | gt =>
    rw [hs] at hx
    cases hx
    cases ho
  | gtgt =>
    rw [hs, List.cons_append, List.cons.injEq] at hx
    rw [hx.1] at ho
    cases ho
  | word hne' hp' hl' h =>
    -- both readings are the one the word loop makes
    rw [word_source hp' hl', Option.some_inj, Prod.mk.injEq] at hw
    obtain ⟨-, rfl⟩ := hw
    exact ⟨_, h, by simp⟩

/-- An operator directly after a word is lost. -/
theorem OperatorAfterWord.lexer_lt {l : Str} (h : OperatorAfterWord l) {ts : List Token}
    (ht : Tokenizes l ts) : ∃ ts', lexer l = some ts' ∧ opChars ts' < opChars ts := by
  induction h generalizing ts with
  | @here ps c l hne hp ho =>
    have hl : Ends (c :: l) := by simp [Ends, ho]
    obtain ⟨ts₁, h₁, he₁⟩ := ht.word_inv hne hp hl
    obtain ⟨ts₂, h₂, he₂⟩ := h₁.op_inv ho
    obtain ⟨ts', h', hle⟩ := h₂.lexer_le
    unfold lexer at h' ⊢
    rw [lexLoop_source hne hp hl, List.tail_cons, h']
    exact ⟨_, rfl, by simp; omega⟩
  | blank hb _ ih =>
    unfold lexer at ih ⊢
    rw [lexLoop_blank hb]
    exact ih (ht.blank_inv hb)
  | @op c l ho _ ih =>
    obtain ⟨ts₁, h₁, he₁⟩ := ht.op_inv ho
    obtain ⟨ts₂, h₂, hlt⟩ := ih h₁
    unfold lexer at h₂ ⊢
    have hop := lexLoop_opChars ho l
    rw [h₂] at hop
    obtain ⟨ts', h', he⟩ := Option.map_eq_some_iff.mp hop
    have he : opChars ts' = opChars ts₂ + 1 := he
    exact ⟨ts', h', by omega⟩
  | word hne hp hl _ ih =>
    obtain ⟨ts₁, h₁, he₁⟩ := ht.word_inv hne hp hl
    obtain ⟨ts₂, h₂, hlt⟩ := ih h₁
    obtain ⟨ts₃, h₃, hle⟩ := lexLoop_tail_le hl h₂
    unfold lexer
    rw [lexLoop_source hne hp hl, h₃]
    exact ⟨_, rfl, by simp; omega⟩

/-- With no operator directly after a word the lexer returns the tokens. -/
theorem Tokenizes.lexer_eq {l : Str} {ts : List Token} (h : Tokenizes l ts)
    (hn : ¬ OperatorAfterWord l) : lexer l = some ts := by
  unfold lexer
  induction h with
  | nil => simp [lexLoop]
  | blank hb _ ih => rw [lexLoop_blank hb, ih fun h => hn (.blank hb h)]
  | op ho hc _ ih => rw [lexLoop_op ho hc, ih fun h => hn (.op ho h), Option.map_some]
  | gt hl _ ih => rw [lexLoop_gt hl, ih fun h => hn (.op rfl h), Option.map_some]
  | gtgt _ ih => rw [lexLoop_gtgt, ih fun h => hn (.op rfl (.op rfl h)), Option.map_some]
  | @word ps l ts hne hp hl _ ih =>
    have ih := ih fun h => hn (.word hne hp hl h)
    rw [lexLoop_source hne hp hl]
    cases l with
    | nil => rw [List.tail_nil, ih, Option.map_some]
    | cons c l =>
      rcases hl c rfl with hb | ho
      · rw [List.tail_cons, ← lexLoop_blank hb l, ih, Option.map_some]
      · exact absurd (.here hne hp ho) hn

/-- What the lexer should do: fail on the broken lines only, and return the
tokens of the others. -/
def LexesAsReference (l : Str) : Prop :=
  (lexer l = none ↔ Broken l) ∧ ∀ ts, Tokenizes l ts → lexer l = some ts

/-- **When the lexer is right**: on a line that is broken, or has no operator
directly after a word. -/
theorem lexer_eq_reference_iff (l : Str) :
    LexesAsReference l ↔ Broken l ∨ ¬ OperatorAfterWord l := by
  constructor
  · rintro ⟨-, h⟩
    rcases exists_tokenizes l with hb | ⟨ts, ht⟩
    · exact .inl hb
    · refine .inr ?_
      intro ho
      obtain ⟨ts', h', hlt⟩ := ho.lexer_lt ht
      rw [h ts ht, Option.some_inj] at h'
      rw [h'] at hlt
      exact Nat.lt_irrefl _ hlt
  · intro h
    refine ⟨lexer_none_iff l, ?_⟩
    intro ts ht
    rcases h with hb | hn
    · obtain ⟨ts', h', -⟩ := ht.lexer_le
      rw [(lexer_none_iff l).mpr hb] at h'
      cases h'
    · exact ht.lexer_eq hn

/-- `ls|wc`: the pipe is lost, the line becomes the one command `ls wc`. -/
theorem lexer_loses_pipe :
    lexer ['l', 's', '|', 'w', 'c'] =
      some [⟨['l', 's'], .ordinary⟩, ⟨['w', 'c'], .ordinary⟩] ∧
    ¬ LexesAsReference ['l', 's', '|', 'w', 'c'] := by
  have hls : ∀ p ∈ [Part.plain 'l', .plain 's'], p.Ok := by simp [Part.Ok, isBlank, isOp]
  have hwc : ∀ p ∈ [Part.plain 'w', .plain 'c'], p.Ok := by simp [Part.Ok, isBlank, isOp]
  have hpipe : Ends ['|', 'w', 'c'] := by simp [Ends, isOp]
  have hend : Ends [] := by simp [Ends]
  have hlex : lexer ['l', 's', '|', 'w', 'c'] =
      some [⟨['l', 's'], .ordinary⟩, ⟨['w', 'c'], .ordinary⟩] := by
    have h₁ := lexLoop_source (by simp) hls hpipe
    have h₂ : lexLoop ['w', 'c'] = _ := lexLoop_source (by simp) hwc hend
    refine h₁.trans ?_
    rw [List.tail_cons, h₂]
    simp [lexLoop, text, Part.text]
  refine ⟨hlex, ?_⟩
  intro h
  have ht : Tokenizes ['l', 's', '|', 'w', 'c']
      [⟨['l', 's'], .ordinary⟩, ⟨['|'], .special⟩, ⟨['w', 'c'], .ordinary⟩] :=
    .word (by simp) hls hpipe (.op rfl (by simp) (.word (by simp) hwc hend .nil))
  rw [h.2 _ ht] at hlex
  simp at hlex

end Cshell
