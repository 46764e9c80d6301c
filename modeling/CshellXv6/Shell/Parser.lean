/-
The parser of the shell (`c-shell/src/parser.c`) and the grammar of its comment.

`parser` cuts the tokens into commands at `|`, `;` and `&`; the redirection
operators stay among the arguments, as texts, and so lose their token type.
The fields `redir`, `redir_type`, `output_file` and `input_file` of the source's
`node` are never read and are left out.  The tables of the source have 100
entries and are not checked: the model is the code on the lines that fit.

* `parser` — the parser, `none` for a return of -1;
* `Derives` — the grammar;
* `parser_of_derives` — the parser accepts every line of the grammar.
-/
import CshellXv6.Shell.Lexer

namespace Cshell

/-- A command of the line.  The source's `cmd` is `NULL` exactly while there is
no argument; otherwise it points to the first one. -/
structure Node where
  args : List Str
  ne : args ≠ []
  piped : Bool
  semi : Bool
  background : Bool
  deriving DecidableEq, Repr

/-- The name of the command: its first argument as it was parsed. -/
def Node.cmd (n : Node) : Str := n.args.head n.ne

/-- The next token is there and is a word. -/
def startsWord : List Token → Bool
  | [] => false
  | t :: _ => t.type = .ordinary

/-- The loop of `parser`, with the arguments of the command being read. -/
def parserLoop (cur : List Str) : List Token → Option (List Node)
  | [] => some (if h : cur ≠ [] then [⟨cur, h, false, false, false⟩] else [])
  | t :: ts =>
    if t.type = .special ∧ t.value = ['|'] then
      if h : cur ≠ [] ∧ startsWord ts then
        (parserLoop [] ts).map (⟨cur, h.1, true, false, false⟩ :: ·)
      else none
    else if t.type = .special ∧ t.value = [';'] then
      if h : cur ≠ [] ∧ startsWord ts then
        (parserLoop [] ts).map (⟨cur, h.1, false, true, false⟩ :: ·)
      else none
    else if t.type = .special ∧ t.value = ['&'] then
      -- unlike the other two, `&` does not look at the token that follows
      if h : cur ≠ [] then
        (parserLoop [] ts).map (⟨cur, h, false, false, true⟩ :: ·)
      else none
    else parserLoop (cur ++ [t.value]) ts

def parser (ts : List Token) : Option (List Node) := parserLoop [] ts

/-! ### The grammar -/

/-- The nonterminals of the grammar in the comment of `parser.c`. -/
inductive Sym
  | line
  | arg
  | cmd
  | tgt
  | bg

/-- The operator tokens. -/
abbrev op (v : Str) : Token := ⟨v, .special⟩

/-- The rules of the grammar. -/
inductive Derives : Sym → List Token → Prop
  | lineNil : Derives .line []
  | lineWord {w : Str} {ts : List Token} :
      Derives .arg ts → Derives .line (⟨w, .ordinary⟩ :: ts)
  | argNil : Derives .arg []
  | argWord {w : Str} {ts : List Token} : Derives .arg ts → Derives .arg (⟨w, .ordinary⟩ :: ts)
  | argLt {ts : List Token} : Derives .tgt ts → Derives .arg (op ['<'] :: ts)
  | argGt {ts : List Token} : Derives .tgt ts → Derives .arg (op ['>'] :: ts)
  | argGtgt {ts : List Token} : Derives .tgt ts → Derives .arg (op ['>', '>'] :: ts)
  | argPipe {ts : List Token} : Derives .cmd ts → Derives .arg (op ['|'] :: ts)
  | argSemi {ts : List Token} : Derives .cmd ts → Derives .arg (op [';'] :: ts)
  | argAmp {ts : List Token} : Derives .bg ts → Derives .arg (op ['&'] :: ts)
  | cmdWord {w : Str} {ts : List Token} : Derives .arg ts → Derives .cmd (⟨w, .ordinary⟩ :: ts)
  | tgtWord {w : Str} {ts : List Token} : Derives .arg ts → Derives .tgt (⟨w, .ordinary⟩ :: ts)
  | bgNil : Derives .bg []
  | bgWord {w : Str} {ts : List Token} : Derives .arg ts → Derives .bg (⟨w, .ordinary⟩ :: ts)

/-- A command of the grammar starts with a word. -/
theorem Derives.startsWord {ts : List Token} (h : Derives .cmd ts) : startsWord ts = true := by
  cases h with
  | cmdWord _ => rfl

@[simp] theorem parserLoop_word (cur : List Str) (w : Str) (ts : List Token) :
    parserLoop cur (⟨w, .ordinary⟩ :: ts) = parserLoop (cur ++ [w]) ts := by
  simp [parserLoop]

/-- The parser accepts what the grammar derives: an argument list when a
command has been started, the other nonterminals in any case. -/
theorem Derives.parserLoop {x : Sym} {ts : List Token} (h : Derives x ts) (cur : List Str)
    (hc : x = .arg → cur ≠ []) : (parserLoop cur ts).isSome := by
  induction h generalizing cur with
  | lineNil | argNil | bgNil => simp [Cshell.parserLoop]
  | lineWord _ ih | argWord _ ih | cmdWord _ ih | tgtWord _ ih | bgWord _ ih =>
    rw [parserLoop_word]
    exact ih _ (by simp)
  | argLt _ ih | argGt _ ih | argGtgt _ ih =>
    simpa [Cshell.parserLoop, op] using ih _ (by simp)
  | argPipe hd ih | argSemi hd ih =>
    simpa [Cshell.parserLoop, op, hc rfl, hd.startsWord] using ih [] (by simp)
  | argAmp _ ih => simpa [Cshell.parserLoop, op, hc rfl] using ih [] (by simp)

/-- The parser accepts every line of the grammar. -/
theorem parser_of_derives {ts : List Token} (h : Derives .line ts) : ∃ ns, parser ts = some ns :=
  Option.isSome_iff_exists.mp (h.parserLoop [] (by simp))

/-- Commands come out of tokens only. -/
theorem parserLoop_eq_nil {cur : List Str} {ts : List Token} (h : parserLoop cur ts = some []) :
    cur = [] ∧ ts = [] := by
  induction ts generalizing cur with
  | nil =>
    simp only [parserLoop, Option.some_inj, dite_eq_right_iff, List.cons_ne_nil, imp_false,
      not_not] at h
    exact ⟨h, rfl⟩
  | cons t ts ih =>
    simp only [parserLoop] at h
    split at h
    · split at h <;> simp at h
    · split at h
      · split at h <;> simp at h
      · split at h
        · split at h <;> simp at h
        · exact absurd (ih h).1 (by simp)

theorem parser_eq_nil_iff {ts : List Token} : parser ts = some [] ↔ ts = [] := by
  constructor
  · intro h
    exact (parserLoop_eq_nil h).2
  · rintro rfl
    simp [parser, parserLoop]

end Cshell
