/-
The nodes of the parser, as `parser.c` builds them.

`Raw.parser` fills in one node after the other: the arguments are added to the
last node, a separator sets its flag and starts a new one, and the last node
counts only if it got a command.  It is the parser of the previous module with
`cmd` as a field of its own (`Raw.parser_eq`).

What comes out is well formed, and nothing is lost: written out again, the
nodes are the tokens (`parser_lossless`).
-/
import CshellXv6.Shell.Parser

namespace Cshell

namespace Raw

/-- The fields of `node` that the shell reads; a `cmd` of `NULL` is `none`, and
`arg_index` is the number of arguments.  The defaults are those of a new
node. -/
structure Node where
  cmd : Option Str := none
  args : List Str := []
  piped : Bool := false
  semi : Bool := false
  background : Bool := false
  deriving DecidableEq, Repr

/-- A word, or an operator that is no separator, joins the node. -/
def Node.addArg (n : Node) (v : Str) : Node :=
  { n with cmd := if n.cmd = none then some v else n.cmd, args := n.args ++ [v] }

/-- The loop of `parser`: the nodes before `coms_index` and the one at it. -/
def parserLoop (done : List Node) (cur : Node) : List Token → Option (List Node × Node)
  | [] => some (done, cur)
  | t :: ts =>
    if t.type = .special then
      if t.value = ['|'] then
        if startsWord ts = false ∨ cur.cmd = none then none
        else parserLoop (done ++ [{ cur with piped := true }]) {} ts
      else if t.value = [';'] then
        if startsWord ts = false ∨ cur.cmd = none then none
        else parserLoop (done ++ [{ cur with semi := true }]) {} ts
      else if t.value = ['&'] then
        if cur.cmd = none then none
        else parserLoop (done ++ [{ cur with background := true }]) {} ts
      else parserLoop done (cur.addArg t.value) ts
    else parserLoop done (cur.addArg t.value) ts

/-- `parser`: the first `len1` nodes. -/
def parser (ts : List Token) : Option (List Node) :=
  (parserLoop [] {} ts).map fun x => if x.2.cmd = none then x.1 else x.1 ++ [x.2]

/-- The node while its arguments are being read. -/
def reading (args : List Str) : Node := { cmd := args.head?, args := args }

theorem reading_addArg (args : List Str) (v : Str) :
    (reading args).addArg v = reading (args ++ [v]) := by
  cases args <;> rfl

theorem reading_cmd {args : List Str} : (reading args).cmd = none ↔ args = [] :=
  List.head?_eq_none_iff

end Raw

/-- The fields of a node as the source keeps them. -/
def Node.raw (n : Node) : Raw.Node where
  cmd := some n.cmd
  args := n.args
  piped := n.piped
  semi := n.semi
  background := n.background

theorem Node.raw_head (n : Node) : n.raw.args.head? = some n.cmd :=
  List.head?_eq_some_head n.ne

/-- A separator after the arguments `cur` closes the node. -/
theorem reading_close {cur : List Str} (h : cur ≠ []) (p s b : Bool) :
    { Raw.reading cur with piped := p, semi := s, background := b } =
      Node.raw ⟨cur, h, p, s, b⟩ := by
  simp only [Raw.reading, List.head?_eq_some_head h]
  rfl

theorem raw_parserLoop (done : List Raw.Node) (cur : List Str) (ts : List Token) :
    ((Raw.parserLoop done (Raw.reading cur) ts).map fun x =>
      if x.2.cmd = none then x.1 else x.1 ++ [x.2]) =
    (parserLoop cur ts).map fun ns => done ++ ns.map Node.raw := by
  induction ts generalizing done cur with
  | nil =>
    simp only [Raw.parserLoop, parserLoop, Option.map_some, Raw.reading_cmd]
    by_cases h : cur = []
    · simp [h]
    · simp only [h, if_false, ne_eq, not_false_eq_true, dite_true, List.map_cons, List.map_nil]
      rw [← reading_close h false false false]
      rfl
  | cons t ts ih =>
    have word : ∀ v, ((Raw.parserLoop done ((Raw.reading cur).addArg v) ts).map fun x =>
        if x.2.cmd = none then x.1 else x.1 ++ [x.2]) =
        (parserLoop (cur ++ [v]) ts).map fun ns => done ++ ns.map Node.raw := by
      intro v
      rw [Raw.reading_addArg]
      exact ih done (cur ++ [v])
    -- after a separator the next node starts with no argument
    have next : ∀ (h : cur ≠ []) (p s b : Bool),
        ((Raw.parserLoop (done ++ [{ Raw.reading cur with piped := p, semi := s, background := b }])
          {} ts).map fun x => if x.2.cmd = none then x.1 else x.1 ++ [x.2]) =
        ((parserLoop [] ts).map (⟨cur, h, p, s, b⟩ :: ·)).map fun ns => done ++ ns.map Node.raw := by
      intro h p s b
      have hi := ih (done ++ [{ Raw.reading cur with piped := p, semi := s, background := b }]) []
      rw [show Raw.reading [] = {} from rfl] at hi
      rw [hi, Option.map_map, reading_close h p s b]
      congr 1
      funext ns
      simp
    have hcmd : (Raw.reading cur).cmd = none ↔ ¬ cur ≠ [] := by
      rw [Raw.reading_cmd, not_not]
    have hfail : startsWord ts = false ∨ (Raw.reading cur).cmd = none ↔
        ¬ (cur ≠ [] ∧ startsWord ts) := by
      rw [hcmd, not_and_or, Bool.not_eq_true, or_comm]
    rw [Raw.parserLoop, parserLoop]
    by_cases hs : t.type = .special
    · rw [if_pos hs]
      by_cases h₁ : t.value = ['|']
      · rw [if_pos h₁, if_pos (show t.type = .special ∧ t.value = ['|'] from ⟨hs, h₁⟩)]
        by_cases hc : cur ≠ [] ∧ startsWord ts
        · rw [if_neg (fun h => hfail.mp h hc), dif_pos hc]
          exact next hc.1 true false false
        · rw [if_pos (hfail.mpr hc), dif_neg hc]
          rfl
      rw [if_neg h₁, if_neg (show ¬ (t.type = .special ∧ t.value = ['|']) from fun h => h₁ h.2)]
      by_cases h₂ : t.value = [';']
      · rw [if_pos h₂, if_pos (show t.type = .special ∧ t.value = [';'] from ⟨hs, h₂⟩)]
        by_cases hc : cur ≠ [] ∧ startsWord ts
        · rw [if_neg (fun h => hfail.mp h hc), dif_pos hc]
          exact next hc.1 false true false
        · rw [if_pos (hfail.mpr hc), dif_neg hc]
          rfl
      rw [if_neg h₂, if_neg (show ¬ (t.type = .special ∧ t.value = [';']) from fun h => h₂ h.2)]
      by_cases h₃ : t.value = ['&']
      · rw [if_pos h₃, if_pos (show t.type = .special ∧ t.value = ['&'] from ⟨hs, h₃⟩)]
        by_cases hc : cur ≠ []
        · rw [if_neg (fun h => hcmd.mp h hc), dif_pos hc]
          exact next hc false false true
        · rw [if_pos (hcmd.mpr hc), dif_neg hc]
          rfl
      · rw [if_neg h₃, if_neg (show ¬ (t.type = .special ∧ t.value = ['&']) from fun h => h₃ h.2)]
        exact word t.value
    · have hno : ∀ v, ¬ (t.type = .special ∧ t.value = v) := fun v h => hs h.1
      rw [if_neg hs, if_neg (hno ['|']), if_neg (hno [';']), if_neg (hno ['&'])]
      exact word t.value

/-- **The parser of the source and its functional form are one.** -/
theorem raw_parser_eq (ts : List Token) : Raw.parser ts = (parser ts).map (·.map Node.raw) :=
  raw_parserLoop [] [] ts

/-! ### What comes out -/

/-- At most one separator closes a node. -/
def Raw.Node.FlagsOk (n : Raw.Node) : Prop :=
  ¬ (n.piped ∧ n.semi) ∧ ¬ (n.piped ∧ n.background) ∧ ¬ (n.semi ∧ n.background)

/-- The separator the flag of a node stands for. -/
def Raw.Node.separator (n : Raw.Node) : List Str :=
  if n.piped then [['|']] else if n.semi then [[';']] else if n.background then [['&']] else []

/-- A node written out. -/
def Raw.Node.unparse (n : Raw.Node) : List Str := n.args ++ n.separator

/-- What holds of the nodes of a line. -/
structure Raw.WellFormed (ns : List Raw.Node) : Prop where
  cmd : ∀ n ∈ ns, ∃ c, n.cmd = some c ∧ 1 ≤ n.args.length ∧ n.args[0]? = some c
  flags : ∀ n ∈ ns, n.FlagsOk
  closed : ∀ n ∈ ns.dropLast, n.piped ∨ n.semi ∨ n.background
  last : ∀ n, ns.getLast? = some n → n.piped = false ∧ n.semi = false

theorem Node.raw_cmd (n : Node) :
    ∃ c, n.raw.cmd = some c ∧ 1 ≤ n.raw.args.length ∧ n.raw.args[0]? = some c := by
  refine ⟨n.cmd, rfl, List.length_pos_of_ne_nil n.ne, ?_⟩
  rw [← List.head?_eq_getElem?]
  exact n.raw_head

/-- One more node in front: it is closed by a separator, which is a `&` if no node
follows. -/
theorem Raw.WellFormed.cons {ns : List Raw.Node} (h : WellFormed ns) (n : Cshell.Node)
    (hf : n.raw.FlagsOk) (hc : n.raw.piped ∨ n.raw.semi ∨ n.raw.background)
    (hl : ns = [] → n.raw.piped = false ∧ n.raw.semi = false) : WellFormed (n.raw :: ns) where
  cmd := List.forall_mem_cons.mpr ⟨n.raw_cmd, h.cmd⟩
  flags := List.forall_mem_cons.mpr ⟨hf, h.flags⟩
  closed := by
    cases ns with
    | nil => simp
    | cons m ms => exact List.forall_mem_cons.mpr ⟨hc, h.closed⟩
  last := by
    intro m hm
    cases ns with
    | nil =>
      rw [List.getLast?_singleton, Option.some_inj] at hm
      exact hm ▸ hl rfl
    | cons k ks =>
      rw [List.getLast?_cons_cons] at hm
      exact h.last m hm

theorem parserLoop_lossless {cur : List Str} {ts : List Token} {ns : List Node}
    (h : parserLoop cur ts = some ns) : Raw.WellFormed (ns.map Node.raw) ∧
      (ns.map Node.raw).flatMap Raw.Node.unparse = cur ++ ts.map Token.value := by
  induction ts generalizing cur ns with
  | nil =>
    simp only [parserLoop, Option.some_inj] at h
    subst h
    by_cases hc : cur = []
    · subst hc
      exact ⟨⟨by simp, by simp, by simp, by simp⟩, rfl⟩
    · simp only [ne_eq, hc, not_false_eq_true, dite_true, List.map_cons, List.map_nil]
      refine ⟨⟨?_, ?_, by simp, ?_⟩, ?_⟩
      · exact List.forall_mem_cons.mpr ⟨Node.raw_cmd _, by simp⟩
      · simp [Raw.Node.FlagsOk, Node.raw]
      · intro n hn
        rw [List.getLast?_singleton, Option.some_inj] at hn
        subst hn
        exact ⟨rfl, rfl⟩
      · simp [Raw.Node.unparse, Raw.Node.separator, Node.raw]
  | cons t ts ih =>
    have sep : ∀ (n : Node), n.args = cur → n.raw.FlagsOk → n.raw.separator = [t.value] →
        (n.piped ∨ n.semi → startsWord ts) → (parserLoop [] ts).map (n :: ·) = some ns →
        Raw.WellFormed (ns.map Node.raw) ∧
          (ns.map Node.raw).flatMap Raw.Node.unparse = cur ++ (t :: ts).map Token.value := by
      intro n hargs hflags hsep hnext hns
      obtain ⟨ms, hms, rfl⟩ := Option.map_eq_some_iff.mp hns
      obtain ⟨hw, hu⟩ := ih hms
      constructor
      · refine hw.cons n hflags ?_ ?_
        · by_contra hno
          push Not at hno
          simp [Raw.Node.separator, hno] at hsep
        · intro hnil
          -- a word follows, so a node does
          have hms' : ms = [] := List.map_eq_nil_iff.mp hnil
          have hts : ts = [] := (parserLoop_eq_nil (hms' ▸ hms)).2
          have hno : ¬ (n.piped ∨ n.semi) := by
            intro hp
            have := hnext hp
            rw [hts] at this
            cases this
          push Not at hno
          show n.piped = false ∧ n.semi = false
          simpa using hno
      · simp only [List.map_cons, List.flatMap_cons, hu, Raw.Node.unparse, hsep, List.nil_append]
        rw [show n.raw.args = cur from hargs, List.append_assoc, List.singleton_append]
    simp only [parserLoop] at h
    split at h
    case isTrue hp =>
      split at h
      case isFalse => cases h
      case isTrue hc =>
        refine sep _ rfl ?_ ?_ (fun _ => hc.2) h
        · simp [Raw.Node.FlagsOk, Node.raw]
        · simp [Raw.Node.separator, Node.raw, hp.2]
    case isFalse =>
      split at h
      case isTrue hp =>
        split at h
        case isFalse => cases h
        case isTrue hc =>
          refine sep _ rfl ?_ ?_ (fun _ => hc.2) h
          · simp [Raw.Node.FlagsOk, Node.raw]
          · simp [Raw.Node.separator, Node.raw, hp.2]
      case isFalse =>
        split at h
        case isTrue hp =>
          split at h
          case isFalse => cases h
          case isTrue hc =>
            refine sep _ rfl ?_ ?_ (by simp) h
            · simp [Raw.Node.FlagsOk, Node.raw]
            · simp [Raw.Node.separator, Node.raw, hp.2]
        case isFalse =>
          have := ih h
          simpa using this

/-- **The parser is lossless and its output well formed**: whenever `parser`
returns 0, every node has a command, which is its first argument; at most one
separator closes a node, and one closes every node but the last, which no `|`
and no `;` closes; and the nodes written out are the texts of the tokens, in
order. -/
theorem parser_lossless {ts : List Token} {ns : List Raw.Node} (h : Raw.parser ts = some ns) :
    Raw.WellFormed ns ∧ ns.flatMap Raw.Node.unparse = ts.map Token.value := by
  rw [raw_parser_eq] at h
  obtain ⟨ms, hms, rfl⟩ := Option.map_eq_some_iff.mp h
  exact parserLoop_lossless hms

/-- The line `a < f | b &`. -/
theorem parser_lossless_pipe : ∃ ns, Raw.parser [⟨['a'], .ordinary⟩, op ['<'], ⟨['f'], .ordinary⟩,
      op ['|'], ⟨['b'], .ordinary⟩, op ['&']] = some ns ∧ ns.length = 2 ∧ Raw.WellFormed ns ∧
      ns.flatMap Raw.Node.unparse = [['a'], ['<'], ['f'], ['|'], ['b'], ['&']] := by
  have h : Raw.parser [⟨['a'], .ordinary⟩, op ['<'], ⟨['f'], .ordinary⟩, op ['|'],
      ⟨['b'], .ordinary⟩, op ['&']] = some
      [⟨some ['a'], [['a'], ['<'], ['f']], true, false, false⟩,
        ⟨some ['b'], [['b']], false, false, true⟩] := by decide
  exact ⟨_, h, rfl, parser_lossless h⟩

end Cshell
