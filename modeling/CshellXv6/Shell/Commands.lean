/-
The commands of a line, read off its tokens.

What the parser and the two redirection passes make of a line is a matter of
where its operators stand.  Here this is said on the tokens themselves:

* `commands` — the tokens of each command, and the separator that ends it;
* `misplaced` — a separator stands where the parser refuses it;
* `Command.inOrder` — a command as the grammar has it: it begins with a word,
  and a word follows each redirection operator;
* `Command.complete` — the same for the texts of a command, as the passes see
  them: quoted operators count, and the operator may come first;
* `derives_line_iff`, `parser_commands` and `passes_iff_complete` — the grammar,
  the parser and the passes in these terms.
-/
import Mathlib.Data.List.Forall2
import CshellXv6.Shell.Redirect

namespace Cshell

/-! ### Separators -/

/-- The tokens that end a command. -/
def isSeparator (t : Token) : Bool :=
  t.type = .special && (t.value = ['|'] || t.value = [';'] || t.value = ['&'])

theorem parserLoop_other {t : Token} (h : isSeparator t = false) (cur : List Str)
    (ts : List Token) : parserLoop cur (t :: ts) = parserLoop (cur ++ [t.value]) ts := by
  have hno : ∀ v, v = ['|'] ∨ v = [';'] ∨ v = ['&'] → ¬ (t.type = .special ∧ t.value = v) := by
    rintro v hv ⟨ht, rfl⟩
    simp only [isSeparator, ht] at h
    rcases hv with hv | hv | hv <;> simp [hv] at h
  rw [parserLoop, if_neg (hno _ (.inl rfl)), if_neg (hno _ (.inr (.inl rfl))),
    if_neg (hno _ (.inr (.inr rfl)))]

/-- A separator closes the command; `|` and `;` want a word after them. -/
theorem parserLoop_separator {t : Token} (h : isSeparator t = true) (cur : List Str)
    (ts : List Token) : parserLoop cur (t :: ts) =
      if hc : cur ≠ [] then
        if t.value = ['&'] ∨ startsWord ts then
          (parserLoop [] ts).map (⟨cur, hc, t.value = ['|'], t.value = [';'], t.value = ['&']⟩ :: ·)
        else none
      else none := by
  simp only [isSeparator, Bool.and_eq_true, Bool.or_eq_true, decide_eq_true_eq] at h
  obtain ⟨ht, hv⟩ := h
  by_cases hc : cur = []
  · rcases hv with (hv | hv) | hv <;> simp [parserLoop, ht, hv, hc]
  · cases hw : startsWord ts <;> rcases hv with (hv | hv) | hv <;>
      simp [parserLoop, ht, hv, hc, hw]

/-- A separator without a command before it, or a `|` or `;` without a word
behind it; `opened` says that the command being read has a token. -/
def misplaced (opened : Bool) : List Token → Bool
  | [] => false
  | t :: ts =>
    if isSeparator t then
      !opened || (t.value ≠ ['&'] && !startsWord ts) || misplaced false ts
    else misplaced true ts

/-! ### Commands -/

/-- How a command ends. -/
inductive Ending
  | pipe
  | semi
  | amp
  | last
  deriving DecidableEq, Repr

/-- The tokens of a command, without the separator that ends it. -/
structure Command where
  tokens : List Token
  ending : Ending
  deriving DecidableEq, Repr

def Command.texts (c : Command) : List Str := c.tokens.map Token.value

/-- The ending a separator makes. -/
def Token.ending (t : Token) : Ending :=
  if t.value = ['|'] then .pipe else if t.value = [';'] then .semi else .amp

/-- One more token in front of the first command. -/
def addToken (t : Token) : List Command → List Command
  | [] => [⟨[t], .last⟩]
  | c :: cs => ⟨t :: c.tokens, c.ending⟩ :: cs

/-- The commands of a line. -/
def commands : List Token → List Command
  | [] => []
  | t :: ts => if isSeparator t then ⟨[], t.ending⟩ :: commands ts else addToken t (commands ts)

/-- A word stands behind each redirection operator; there is no other operator. -/
def targeted : List Token → Bool
  | [] => true
  | t :: ts =>
    if t.type = .special then isRedir t.value && startsWord ts && targeted ts else targeted ts

/-- A command as the grammar has it. -/
def Command.inOrder (c : Command) : Bool := startsWord c.tokens && targeted c.tokens

/-- Some text `op` picks is last or has an operator behind it. -/
def dangles (op : Str → Bool) : List Str → Bool
  | [] => false
  | a :: as => op a && as.head?.all isRedir || dangles op as

def isLt (a : Str) : Bool := a = ['<']

def isGt (a : Str) : Bool := a = ['>'] || a = ['>', '>']

/-- The texts without each `<` and the text behind it. -/
def withoutInputs : List Str → List Str
  | [] => []
  | [a] => [a]
  | a :: t :: ts => if isLt a then withoutInputs ts else a :: withoutInputs (t :: ts)

/-- Each `<` of the texts has a file behind it, and so has each `>` and `>>` when
the inputs are taken out. -/
def complete (args : List Str) : Bool :=
  !dangles isLt args && !dangles isGt (withoutInputs args)

def Command.complete (c : Command) : Bool := Cshell.complete c.texts

/-- A command that ends the line unless it is part of a pipeline: the inputs are
there, an output is not, and `;` or `&` follows. -/
def Command.cuts (c : Command) : Bool :=
  !dangles isLt c.texts && dangles isGt (withoutInputs c.texts) &&
    (c.ending = .semi || c.ending = .amp)

/-- The commands up to the first one that ends the line; `inGroup` says that the
command before is piped into the line. -/
def reached (inGroup : Bool) : List Command → List Command
  | [] => []
  | c :: cs =>
    c :: if !inGroup && c.cuts then [] else reached (c.ending = .pipe) cs

/-! ### The grammar -/

theorem startsWord_iff {ts : List Token} :
    startsWord ts = true ↔ ∃ w ts', ts = ⟨w, .ordinary⟩ :: ts' := by
  cases ts with
  | nil => simp [startsWord]
  | cons t ts =>
    obtain ⟨v, ty⟩ := t
    simp [startsWord]

/-- The tokens of the first command. -/
def firstTokens (ts : List Token) : List Token := ((commands ts).head?.map Command.tokens).getD []

theorem commands_other {t : Token} (h : isSeparator t = false) (ts : List Token) :
    commands (t :: ts) = addToken t (commands ts) := by
  rw [commands, h]
  rfl

theorem commands_separator {t : Token} (h : isSeparator t = true) (ts : List Token) :
    commands (t :: ts) = ⟨[], t.ending⟩ :: commands ts := by
  rw [commands, if_pos h]

theorem commands_eq_nil {ts : List Token} (h : commands ts = []) : ts = [] := by
  cases ts with
  | nil => rfl
  | cons t ts =>
    cases hs : isSeparator t with
    | true =>
      rw [commands_separator hs] at h
      cases h
    | false =>
      rw [commands_other hs] at h
      cases hc : commands ts <;> simp [hc, addToken] at h

theorem mem_of_mem_commands {ts : List Token} {c : Command} {t : Token} (hc : c ∈ commands ts)
    (ht : t ∈ c.tokens) : t ∈ ts := by
  induction ts generalizing c with
  | nil => cases hc
  | cons u ts ih =>
    cases hs : isSeparator u with
    | true =>
      rw [commands_separator hs] at hc
      rcases List.mem_cons.mp hc with rfl | hc
      · cases ht
      · exact List.mem_cons_of_mem u (ih hc ht)
    | false =>
      rw [commands_other hs] at hc
      cases hcs : commands ts with
      | nil =>
        rw [hcs] at hc
        obtain rfl : c = ⟨[u], .last⟩ := by simpa [addToken] using hc
        obtain rfl : t = u := by simpa using ht
        exact List.mem_cons_self
      | cons d ds =>
        rw [hcs] at hc ih
        rcases List.mem_cons.mp hc with rfl | hc
        · -- the first command: `u` itself or a token it had
          rcases List.mem_cons.mp ht with rfl | ht
          · exact List.mem_cons_self
          · exact List.mem_cons_of_mem u (ih List.mem_cons_self ht)
        · exact List.mem_cons_of_mem u (ih (List.mem_cons_of_mem d hc) ht)

@[simp] theorem isSeparator_word (w : Str) : isSeparator ⟨w, .ordinary⟩ = false := rfl

theorem firstTokens_other {t : Token} (h : isSeparator t = false) (ts : List Token) :
    firstTokens (t :: ts) = t :: firstTokens ts := by
  rw [firstTokens, commands_other h, firstTokens]
  cases commands ts <;> rfl

theorem firstTokens_separator {t : Token} (h : isSeparator t = true) (ts : List Token) :
    firstTokens (t :: ts) = [] := by
  rw [firstTokens, commands_separator h]
  rfl

theorem tail_commands_other {t : Token} (h : isSeparator t = false) (ts : List Token) :
    (commands (t :: ts)).tail = (commands ts).tail := by
  rw [commands_other h]
  cases commands ts <;> rfl

/-- A line starts with a word when its first command does. -/
theorem startsWord_firstTokens (ts : List Token) : startsWord (firstTokens ts) = startsWord ts := by
  cases ts with
  | nil => rfl
  | cons t ts =>
    cases h : isSeparator t with
    | false =>
      rw [firstTokens_other h]
      rfl
    | true =>
      rw [firstTokens_separator h]
      simp only [isSeparator, Bool.and_eq_true, decide_eq_true_eq] at h
      simp [startsWord, h.1]

/-- What follows the name of a command: separators in place, targets behind the
operators of this command, and the other commands in order. -/
def RestOk (ts : List Token) : Prop :=
  misplaced true ts = false ∧ targeted (firstTokens ts) = true ∧
    ∀ c ∈ (commands ts).tail, c.inOrder = true

/-- The same of what starts a command. -/
def StartOk (ts : List Token) : Prop :=
  misplaced false ts = false ∧ ∀ c ∈ commands ts, c.inOrder = true

theorem restOk_nil : RestOk [] := ⟨rfl, rfl, by simp [commands]⟩

theorem restOk_word (w : Str) (ts : List Token) : RestOk (⟨w, .ordinary⟩ :: ts) ↔ RestOk ts := by
  rw [RestOk, RestOk, firstTokens_other rfl, tail_commands_other rfl, misplaced]
  simp [targeted]

theorem startOk_word (w : Str) (ts : List Token) : StartOk (⟨w, .ordinary⟩ :: ts) ↔ RestOk ts := by
  have hc : commands (⟨w, .ordinary⟩ :: ts) = addToken ⟨w, .ordinary⟩ (commands ts) :=
    commands_other rfl ts
  rw [StartOk, RestOk, misplaced, hc, firstTokens]
  cases commands ts with
  | nil => simp [addToken, Command.inOrder, startsWord, targeted]
  | cons c cs => simp [addToken, Command.inOrder, startsWord, targeted]

theorem startsWord_of_startOk {t : Token} {ts : List Token} (h : StartOk (t :: ts)) :
    startsWord (t :: ts) = true := by
  obtain ⟨hm, hc⟩ := h
  have ho : isSeparator t = false := by
    rw [Bool.eq_false_iff]
    intro h
    simp [misplaced, h] at hm
  have hmem : ∃ c ∈ commands (t :: ts), c.tokens = firstTokens (t :: ts) := by
    rw [firstTokens, commands_other ho]
    cases commands ts with
    | nil => exact ⟨_, List.mem_cons_self, rfl⟩
    | cons c cs => exact ⟨_, List.mem_cons_self, rfl⟩
  obtain ⟨c, hmem, he⟩ := hmem
  have hin := hc c hmem
  rw [Command.inOrder, he, Bool.and_eq_true, startsWord_firstTokens] at hin
  exact hin.1

/-- A command is in order when it begins with a word and goes on as it should. -/
theorem startOk_iff (ts : List Token) :
    StartOk ts ↔ ts = [] ∨ startsWord ts = true ∧ RestOk ts := by
  cases ts with
  | nil => exact iff_of_true ⟨rfl, by simp [commands]⟩ (.inl rfl)
  | cons t ts =>
    rw [or_iff_right (List.cons_ne_nil t ts)]
    constructor
    · intro h
      have hw := startsWord_of_startOk h
      obtain ⟨w, ts', he⟩ := startsWord_iff.mp hw
      rw [he] at h ⊢
      exact ⟨rfl, (restOk_word w ts').mpr ((startOk_word w ts').mp h)⟩
    · rintro ⟨hw, h⟩
      obtain ⟨w, ts', he⟩ := startsWord_iff.mp hw
      rw [he] at h ⊢
      exact (startOk_word w ts').mpr ((restOk_word w ts').mp h)

/-- Behind an operator that is no separator comes its target. -/
theorem restOk_special {v : Str} (h : isSeparator (op v) = false) (ts : List Token) :
    RestOk (op v :: ts) ↔ isRedir v = true ∧ startsWord ts = true ∧ RestOk ts := by
  rw [RestOk, RestOk, firstTokens_other h, tail_commands_other h, misplaced, if_neg (by simp [h]),
    targeted, if_pos rfl, Bool.and_eq_true, Bool.and_eq_true, startsWord_firstTokens]
  tauto

/-- Behind a separator a command starts; only behind `&` there may be none. -/
theorem restOk_separator {v : Str} (h : isSeparator (op v) = true) (ts : List Token) :
    RestOk (op v :: ts) ↔ (v = ['&'] ∨ startsWord ts = true) ∧ StartOk ts := by
  rw [RestOk, StartOk, firstTokens_separator h, commands_separator h, misplaced, if_pos h]
  by_cases hv : v = ['&'] <;> cases startsWord ts <;> simp [hv, targeted]

/-- A symbol that takes exactly one word in front of an argument list. -/
theorem derives_word_iff {x : Sym} (hx : x = .tgt ∨ x = .cmd) (ts : List Token) :
    Derives x ts ↔ startsWord ts = true ∧ Derives .arg ts := by
  rw [startsWord_iff]
  constructor
  · intro h
    rcases hx with rfl | rfl
    · cases h with
      | tgtWord h => exact ⟨⟨_, _, rfl⟩, .argWord h⟩
    · cases h with
      | cmdWord h => exact ⟨⟨_, _, rfl⟩, .argWord h⟩
  · rintro ⟨⟨w, ts', rfl⟩, h⟩
    cases h with
    | argWord h =>
      rcases hx with rfl | rfl
      · exact .tgtWord h
      · exact .cmdWord h

/-- A symbol that may also be empty. -/
theorem derives_start_iff {x : Sym} (hx : x = .line ∨ x = .bg) (ts : List Token) :
    Derives x ts ↔ ts = [] ∨ startsWord ts = true ∧ Derives .arg ts := by
  rw [startsWord_iff]
  constructor
  · intro h
    rcases hx with rfl | rfl
    · cases h with
      | lineNil => exact .inl rfl
      | lineWord h => exact .inr ⟨⟨_, _, rfl⟩, .argWord h⟩
    · cases h with
      | bgNil => exact .inl rfl
      | bgWord h => exact .inr ⟨⟨_, _, rfl⟩, .argWord h⟩
  · rintro (rfl | ⟨⟨w, ts', rfl⟩, h⟩)
    · rcases hx with rfl | rfl
      · exact .lineNil
      · exact .bgNil
    · cases h with
      | argWord h =>
        rcases hx with rfl | rfl
        · exact .lineWord h
        · exact .bgWord h

/-- What follows the name of a command in the grammar. -/
theorem derives_arg_iff (ts : List Token) : Derives .arg ts ↔ RestOk ts := by
  -- one token at a time; what follows it is again what follows the name of a command
  induction ts with
  | nil => exact iff_of_true .argNil restOk_nil
  | cons t ts ih =>
    obtain ⟨v, ty⟩ := t
    cases ty with
    | ordinary =>
      rw [restOk_word, ← ih]
      exact ⟨fun h => by cases h with | argWord h => exact h, .argWord⟩
    | special =>
      cases hs : isSeparator (op v) with
      | true =>
        rw [restOk_separator hs, startOk_iff, ← ih]
        have hcmd := derives_word_iff (x := .cmd) (.inr rfl) ts
        have hbg := derives_start_iff (x := .bg) (.inr rfl) ts
        constructor
        · intro h
          cases h with
          | argLt | argGt | argGtgt => cases hs
          | argPipe h => exact ⟨.inr h.startsWord, .inr (hcmd.mp h)⟩
          | argSemi h => exact ⟨.inr h.startsWord, .inr (hcmd.mp h)⟩
          | argAmp h => exact ⟨.inl rfl, hbg.mp h⟩
        · rintro ⟨hv, h⟩
          have hne : v ≠ ['&'] → startsWord ts = true ∧ Derives .arg ts := by
            intro hv'
            have hw := hv.resolve_left hv'
            rcases h with rfl | h
            · cases hw
            · exact h
          simp only [isSeparator, decide_true, Bool.true_and, Bool.or_eq_true,
            decide_eq_true_eq] at hs
          rcases hs with (rfl | rfl) | rfl
          · exact .argPipe (hcmd.mpr (hne (by decide)))
          · exact .argSemi (hcmd.mpr (hne (by decide)))
          · exact .argAmp (hbg.mpr h)
      | false =>
        rw [restOk_special hs, ← ih]
        have htgt := derives_word_iff (x := .tgt) (.inl rfl) ts
        constructor
        · intro h
          cases h with
          | argLt h | argGt h | argGtgt h => exact ⟨rfl, htgt.mp h⟩
          | argPipe | argSemi | argAmp => cases hs
        · rintro ⟨hv, h⟩
          rcases isRedir_cases hv with rfl | rfl | rfl
          · exact .argLt (htgt.mpr h)
          · exact .argGt (htgt.mpr h)
          · exact .argGtgt (htgt.mpr h)

/-- **The grammar, on the tokens**: separators in their places and every command
in order. -/
theorem derives_line_iff (ts : List Token) :
    Derives .line ts ↔ misplaced false ts = false ∧ ∀ c ∈ commands ts, c.inOrder = true := by
  rw [derives_start_iff (.inl rfl), derives_arg_iff, ← startOk_iff, StartOk]

/-! ### The parser -/

/-- The parser refuses a line for its separators only. -/
theorem parserLoop_isNone (cur : List Str) (ts : List Token) :
    (parserLoop cur ts).isNone = misplaced (decide (cur ≠ [])) ts := by
  induction ts generalizing cur with
  | nil => simp [parserLoop, misplaced]
  | cons t ts ih =>
    cases h : isSeparator t with
    | false =>
      rw [parserLoop_other h, ih, misplaced, h]
      simp
    | true =>
      have ih : (parserLoop [] ts).isNone = misplaced false ts := by simpa using ih []
      rw [parserLoop_separator h, misplaced, if_pos h, ← ih]
      by_cases hc : cur = []
      · simp [hc]
      · by_cases hv : t.value = ['&']
        · simp [hc, hv]
        · cases startsWord ts <;> simp [hc, hv]

theorem parser_eq_none_iff (ts : List Token) : parser ts = none ↔ misplaced false ts = true := by
  rw [← Option.isNone_iff_eq_none, parser, parserLoop_isNone]
  rfl

/-- How a parsed command ends. -/
def Node.ending (n : Node) : Ending :=
  if n.piped then .pipe else if n.semi then .semi else if n.background then .amp else .last

/-- A parsed command and the tokens it comes from. -/
def Node.Of (n : Node) (c : Command) : Prop := n.args = c.texts ∧ n.ending = c.ending

/-- The commands with `cur` in front of the first one. -/
def addTexts (cur : List Str) (cs : List Command) : List (List Str × Ending) :=
  match cs with
  | [] => if cur = [] then [] else [(cur, .last)]
  | c :: cs => (cur ++ c.texts, c.ending) :: cs.map fun c => (c.texts, c.ending)

theorem addTexts_nil (cs : List Command) :
    addTexts [] cs = cs.map fun c => (c.texts, c.ending) := by
  cases cs <;> rfl

theorem addTexts_addToken (cur : List Str) (t : Token) (cs : List Command) :
    addTexts cur (addToken t cs) = addTexts (cur ++ [t.value]) cs := by
  cases cs <;> simp [addTexts, addToken, Command.texts]

theorem parserLoop_commands {cur : List Str} {ts : List Token} {ns : List Node}
    (h : parserLoop cur ts = some ns) :
    ns.map (fun n => (n.args, n.ending)) = addTexts cur (commands ts) := by
  -- `cur` holds the texts of the command being read, which end at the separator
  induction ts generalizing cur ns with
  | nil =>
    by_cases hc : cur = []
    · simp only [parserLoop, hc, ne_eq, not_true_eq_false, dite_false, Option.some_inj] at h
      subst h
      simp [addTexts, commands, hc]
    · simp only [parserLoop, hc, ne_eq, not_false_eq_true, dite_true, Option.some_inj] at h
      subst h
      simp [addTexts, commands, hc, Node.ending]
  | cons t ts ih =>
    cases hs : isSeparator t with
    | false =>
      rw [parserLoop_other hs] at h
      rw [commands_other hs, addTexts_addToken, ih h]
    | true =>
      rw [parserLoop_separator hs] at h
      split at h
      · split at h
        · obtain ⟨ns', hns, rfl⟩ := Option.map_eq_some_iff.mp h
          rw [commands_separator hs, List.map_cons, ih hns, addTexts_nil]
          simp [addTexts, Command.texts, Node.ending, Token.ending, isSeparator] at hs ⊢
          rcases hs.2 with (hv | hv) | hv <;> simp [hv]
        · cases h
      · cases h

/-- **The parser cuts the line into its commands.** -/
theorem parser_commands {ts : List Token} {ns : List Node} (h : parser ts = some ns) :
    List.Forall₂ Node.Of ns (commands ts) := by
  have hm := parserLoop_commands h
  rw [addTexts_nil] at hm
  rw [← List.forall₂_eq_eq_eq, List.forall₂_map_left_iff, List.forall₂_map_right_iff] at hm
  exact hm.imp fun n c h => Prod.mk.inj h

/-! ### The passes -/

/-- A pass fails on an operator of its own that is last or has an operator behind
it; a target is no operator, so stepping over it loses none. -/
theorem scan_isSome {α : Type} {sel : Str → Option (Str → α)} {op : Str → Bool}
    (hsel : ∀ a, (sel a).isSome = op a) (hop : ∀ a, isRedir a = false → op a = false)
    (args : List Str) : (scan sel args).files.isSome = !dangles op args := by
  fun_induction scan sel args with
  | case1 => rfl
  | case2 a f h => simp [dangles, ← hsel, h]
  | case3 a f h t ts ht => simp [dangles, ← hsel, h, ht]
  | case4 a f h t ts ht ih =>
    rw [Bool.not_eq_true] at ht
    simp [dangles, hop t ht, ht, ih]
  | case5 a as h ih => simp [dangles, ← hsel, h, ih]

theorem inOp_isSome (a : Str) : (inOp a).isSome = isLt a := by
  rw [inOp, isLt]
  split <;> simp_all

theorem outOp_isSome (a : Str) : (outOp a).isSome = isGt a := by
  rw [outOp, isGt]
  split
  · simp_all
  · split <;> simp_all

theorem extIn_isSome (args : List Str) : (extIn args).files.isSome = !dangles isLt args := by
  rw [extIn, rewrite_isSome]
  refine scan_isSome inOp_isSome ?_ args
  intro a h
  rw [← inOp_isSome, inOp_ordinary a h]
  rfl

theorem extOut_isSome (args : List Str) : (extOut args).files.isSome = !dangles isGt args := by
  rw [extOut, rewrite_isSome]
  refine scan_isSome outOp_isSome ?_ args
  intro a h
  rw [← outOp_isSome, outOp_ordinary a h]
  rfl

/-- The first pass takes out each `<` and its file. -/
theorem scan_inOp_args {args : List Str} (h : (scan inOp args).files.isSome = true) :
    (scan inOp args).args = withoutInputs args := by
  fun_induction scan inOp args with
  | case1 => rfl
  | case2 => cases h
  | case3 => cases h
  | case4 a f hf t ts ht ih =>
    have hlt : isLt a = true := by rw [← inOp_isSome, hf, Option.isSome_some]
    rw [withoutInputs, if_pos hlt]
    exact ih (by simpa using h)
  | case5 a as hf ih =>
    have hlt : isLt a = false := by rw [← inOp_isSome, hf, Option.isSome_none]
    rw [ih h]
    cases as with
    | nil => rfl
    | cons t ts => rw [withoutInputs, if_neg (by simp [hlt])]

theorem extIn_args {args : List Str} (h : dangles isLt args = false) :
    (extIn args).args = withoutInputs args := by
  have hs : (scan inOp args).files.isSome = true := by
    rw [← rewrite_isSome args, ← extIn, extIn_isSome, h]
    rfl
  rw [extIn, rewrite, if_pos hs, scan_inOp_args hs]

/-- **The two passes, on the texts.** -/
theorem passes_iff_complete (args : List Str) : Passes args ↔ complete args = true := by
  rw [Passes, extIn_isSome, extOut_isSome, complete, Bool.and_eq_true, Bool.not_eq_true',
    Bool.not_eq_true', Bool.not_eq_true']
  refine and_congr_right fun h => ?_
  rw [extIn_args h]

/-- A text that is no operator stays where it is. -/
theorem head?_withoutInputs {a : Str} (h : isRedir a = false) (as : List Str) :
    (withoutInputs (a :: as)).head? = some a := by
  have hlt : isLt a = false := by rw [← inOp_isSome, inOp_ordinary a h, Option.isSome_none]
  cases as with
  | nil => rfl
  | cons t ts => rw [withoutInputs, if_neg (by simp [hlt]), List.head?_cons]

theorem isRedir_of_isLt {a : Str} (h : isLt a = true) : isRedir a = true := by
  obtain rfl : a = ['<'] := by simpa [isLt] using h
  rfl

theorem isRedir_of_isGt {a : Str} (h : isGt a = true) : isRedir a = true := by
  obtain rfl | rfl : a = ['>'] ∨ a = ['>', '>'] := by simpa [isGt] using h
  · rfl
  · rfl

theorem dangles_mono {op op' : Str → Bool} (hop : ∀ a, op a = true → op' a = true)
    {args : List Str} (h : dangles op' args = false) : dangles op args = false := by
  induction args with
  | nil => rfl
  | cons a as ih =>
    simp only [dangles, Bool.or_eq_false_iff, Bool.and_eq_false_imp] at h ⊢
    exact ⟨fun ha => h.1 (hop a ha), ih h.2⟩

theorem dangles_withoutInputs {args : List Str} (h : dangles isRedir args = false) :
    dangles isGt (withoutInputs args) = false := by
  fun_induction withoutInputs args with
  | case1 => rfl
  | case2 a => exact dangles_mono (fun _ => isRedir_of_isGt) h
  | case3 a t ts _ ih =>
    simp only [dangles, Bool.or_eq_false_iff] at h
    exact ih h.2.2
  | case4 a t ts _ ih =>
    rw [dangles, Bool.or_eq_false_iff] at h ⊢
    refine ⟨?_, ih h.2⟩
    rw [Bool.and_eq_false_imp] at h ⊢
    intro ha
    have ht : isRedir t = false := h.1 (isRedir_of_isGt ha)
    rw [head?_withoutInputs ht]
    exact ht

/-- An operator whose target is a word that is no quoted operator does not dangle. -/
theorem dangles_of_targeted {ts : List Token} (h : targeted ts = true)
    (hq : ∀ t ∈ ts, t.type = .ordinary → isRedir t.value = false) :
    dangles isRedir (ts.map Token.value) = false := by
  induction ts with
  | nil => rfl
  | cons t ts ih =>
    obtain ⟨ht, hts⟩ := List.forall_mem_cons.mp hq
    obtain ⟨v, ty⟩ := t
    cases ty with
    | ordinary => simp [dangles, ht rfl, ih h hts]
    | special =>
      rw [targeted, if_pos rfl, Bool.and_eq_true, Bool.and_eq_true] at h
      obtain ⟨w, ts', rfl⟩ := startsWord_iff.mp h.1.2
      have hw : isRedir w = false := (List.forall_mem_cons.mp hts).1 rfl
      have ih := ih h.2 hts
      simp only [List.map_cons, dangles, List.head?_cons, Option.all_some, hw, Bool.and_false,
        Bool.false_or] at ih ⊢
      exact ih

/-- With no quoted operator among its words a command in order is complete. -/
theorem Command.complete_of_inOrder {c : Command} (h : c.inOrder = true)
    (hq : ∀ t ∈ c.tokens, t.type = .ordinary → isRedir t.value = false) : c.complete = true := by
  rw [Command.inOrder, Bool.and_eq_true] at h
  have hd : dangles isRedir c.texts = false := dangles_of_targeted h.2 hq
  rw [Command.complete, Cshell.complete, dangles_withoutInputs hd,
    dangles_mono (fun _ => isRedir_of_isLt) hd]
  rfl

end Cshell
