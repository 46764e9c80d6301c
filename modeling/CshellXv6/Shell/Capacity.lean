/-
The tables of 100 entries.

`process_cmd` gives `lexer` a table of 100 tokens and `parser` a table of 100
commands, each command has room for 100 arguments, and the passes that take the
redirections out write into arrays of 100 files.  No index is ever compared
with the size of its table.

`tableWrites` lists the entries that are written for a line.  A turn of the
loop of `process_cmd` that is not reached writes nothing, so the list is what
the line can come to.

* `parserWrites_le`, `scanWrites_le` — how far the indices of a function go;
* `tables_hold_iff` — exactly which lines stay within the tables.
-/
import CshellXv6.Shell.ProcessCmd
import CshellXv6.Shell.TokenTable

namespace Cshell

/-- The tables. -/
inductive Table
  | tokens
  | coms
  | args
  | inFiles
  | outFiles
  | appends
  deriving DecidableEq, Repr

/-- A write of an entry. -/
structure Write where
  table : Table
  index : ℕ
  deriving DecidableEq, Repr

/-- The size of the tables. -/
def capacity : ℕ := 100

/-! ### The writes of each function -/

/-- An operator that ends a command. -/
def Token.isSeparator (t : Token) : Bool :=
  t.type = .special && (t.value = ['|'] || t.value = [';'] || t.value = ['&'])

/-- The loop of `parser`: `ci` is `coms_index` and `ai` the `arg_index` of the
command being read, which has no `cmd` while it has no argument. -/
def parserWrites (ci ai : ℕ) : List Token → List Write
  -- the terminator of the last command
  | [] => if ai ≠ 0 then [⟨.args, ai⟩] else []
  | t :: ts =>
    if t.isSeparator then
      if ai ≠ 0 ∧ (t.value = ['&'] ∨ startsWord ts) then
        ⟨.coms, ci + 1⟩ :: parserWrites (ci + 1) 0 ts
      else []
    else ⟨.args, ai⟩ :: parserWrites ci (ai + 1) ts

/-- The loop of `ext_in` or `ext_out` and the terminator behind it: `count` and
`num` are its two indices, `files` the arrays a target goes to. -/
def scanWrites {α : Type} (files : List Table) (sel : Str → Option (Str → α)) (count num : ℕ) :
    List Str → List Write
  | [] => [⟨.args, count⟩]
  | a :: as =>
    match sel a with
    | some _ =>
      match as with
      | [] => []
      | t :: ts =>
        if isRedir t then []
        else files.map (⟨·, num⟩) ++ scanWrites files sel count (num + 1) ts
    | none => ⟨.args, count⟩ :: scanWrites files sel (count + 1) num as

def extInWrites (args : List Str) : List Write := scanWrites [.inFiles] inOp 0 0 args

def extOutWrites (args : List Str) : List Write := scanWrites [.outFiles, .appends] outOp 0 0 args

/-- The operand put in for `reveal`. -/
def revealWrites (args : List Str) : List Write := if args.length < 2 then [⟨.args, 1⟩] else []

/-- The operands put in for `peek`. -/
def peekWrites (args : List Str) : List Write :=
  let args' := if args.length < 2 then args ++ [['-']] else args
  (if args.length < 2 then [⟨.args, 1⟩] else []) ++
    if 1 + (skipOptions args'.tail).1 = args'.length then [⟨.args, args'.length⟩] else []

/-- A command outside a pipeline. -/
def singleWrites (home : Home) (n : Node) : List Write :=
  let i := extIn (n.args.map (expand home))
  extInWrites (n.args.map (expand home)) ++
    match i.files with
    | none => []
    | some _ =>
      extOutWrites i.args ++
        match (extOut i.args).files with
        | none => []
        | some _ =>
          if expand home n.cmd = "reveal".toList then revealWrites (extOut i.args).args
          else if expand home n.cmd = "peek".toList then peekWrites (extOut i.args).args
          else []

/-- A stage of a pipeline: the second pass runs in any case, and `exec_builtin` puts
in the operand of `reveal` only. -/
def stageWrites (home : Home) (n : Node) : List Write :=
  let i := extIn (n.args.map (expand home))
  extInWrites (n.args.map (expand home)) ++ extOutWrites i.args ++
    match i.files, (extOut i.args).files with
    | some _, some _ =>
      if expand home n.cmd = "reveal".toList then revealWrites (extOut i.args).args else []
    | _, _ => []

/-- The commands of a line; `stage` says that the one before is piped into the
first. -/
def lineWrites (home : Home) (stage : Bool) : List Node → List Write
  | [] => []
  | n :: ns =>
    (if stage || n.piped then stageWrites home n else singleWrites home n) ++
      lineWrites home n.piped ns

/-- What `process_cmd` writes into the tables for a line. -/
def tableWrites (home : Home) (cmd : Str) : List Write :=
  (lexTable 0 cmd).map (fun s => ⟨.tokens, s.index⟩) ++
    match lexer cmd with
    | none => []
    | some ts =>
      ⟨.coms, 0⟩ :: parserWrites 0 0 ts ++
        match parser ts with
        | none => []
        | some ns => lineWrites home false ns

/-! ### `parser` -/

/-- The loop of `parser`, one token at a time. -/
theorem parserLoop_cons (cur : List Str) (t : Token) (ts : List Token) :
    parserLoop cur (t :: ts) =
      if t.isSeparator then
        if h : cur ≠ [] ∧ (t.value = ['&'] ∨ startsWord ts) then
          (parserLoop [] ts).map (⟨cur, h.1, t.value = ['|'], t.value = [';'], t.value = ['&']⟩ :: ·)
        else none
      else parserLoop (cur ++ [t.value]) ts := by
  rw [parserLoop]
  by_cases hs : t.type = .special
  · by_cases h₁ : t.value = ['|']
    · simp [Token.isSeparator, hs, h₁]
    · by_cases h₂ : t.value = [';']
      · simp [Token.isSeparator, hs, h₂]
      · by_cases h₃ : t.value = ['&']
        · simp [Token.isSeparator, hs, h₃]
        · simp [Token.isSeparator, hs, h₁, h₂, h₃]
  · simp [Token.isSeparator, hs]

/-- How far the indices of `parser` go: an argument or a terminator within the
tokens left, a command with at least one token in front of its separator. -/
theorem parserWrites_le {ci ai : ℕ} {ts : List Token} {w : Write} (h : w ∈ parserWrites ci ai ts) :
    w.index ≤ ai + ts.length ∧ (ts.any Token.isSeparator = true → w.index < ai + ts.length) ∨
      w.index + (if ai = 0 then 1 else 0) ≤ ci + ts.length := by
  fun_induction parserWrites ci ai ts with
  | case1 ci ai hai =>
    rw [List.mem_singleton] at h
    subst h
    exact .inl ⟨Nat.le_refl _, by simp⟩
  | case2 => cases h
  | case3 ci ai t ts ht hok ih =>
    -- a separator after an argument: two tokens for the one command it closes
    rw [List.mem_cons] at h
    rw [List.length_cons, if_neg hok.1]
    rcases h with rfl | h
    · refine .inr ?_
      show ci + 1 + 0 ≤ _
      omega
    · rcases ih h with ⟨h₁, -⟩ | h₂
      · exact .inl ⟨by omega, fun _ => by omega⟩
      · rw [if_pos rfl] at h₂
        exact .inr (by omega)
  | case4 => cases h
  | case5 ci ai t ts ht ih =>
    rw [List.mem_cons] at h
    have hany : (t :: ts).any Token.isSeparator = ts.any Token.isSeparator := by simp [ht]
    rw [List.length_cons, hany]
    rcases h with rfl | h
    · exact .inl ⟨Nat.le_add_right _ _, fun _ => by
        show ai < _
        omega⟩
    · rcases ih h with ⟨h₁, h₂⟩ | h₃
      · exact .inl ⟨by omega, fun ha => by
          have := h₂ ha
          omega⟩
      · rw [if_neg (by omega)] at h₃
        refine .inr ?_
        split <;> omega

/-- Without a separator the terminator goes behind all the tokens. -/
theorem terminator_mem {ci ai : ℕ} {ts : List Token} (h : ts.any Token.isSeparator = false)
    (hne : ai + ts.length ≠ 0) : ⟨.args, ai + ts.length⟩ ∈ parserWrites ci ai ts := by
  induction ts generalizing ai with
  | nil =>
    rw [List.length_nil, Nat.add_zero] at hne ⊢
    rw [parserWrites, if_pos hne]
    exact List.mem_singleton.mpr rfl
  | cons t ts ih =>
    rw [List.any_cons, Bool.or_eq_false_iff] at h
    have hmem : ⟨.args, ai + 1 + ts.length⟩ ∈ parserWrites ci (ai + 1) ts := ih h.2 (by omega)
    rw [parserWrites, if_neg (by simp [h.1]), List.length_cons, Nat.add_comm ts.length,
      ← Nat.add_assoc]
    exact List.mem_cons_of_mem _ hmem

/-- A command has at most the tokens of the line as arguments, and fewer if the
line has a separator. -/
theorem parserLoop_args_le {cur : List Str} {ts : List Token} {ns : List Node}
    (h : parserLoop cur ts = some ns) {n : Node} (hn : n ∈ ns) :
    n.args.length ≤ cur.length + ts.length ∧
      (ts.any Token.isSeparator = true → n.args.length < cur.length + ts.length) := by
  induction ts generalizing cur ns with
  | nil =>
    simp only [parserLoop, Option.some_inj] at h
    split at h
    case isTrue hc =>
      subst h
      rw [List.mem_singleton] at hn
      subst hn
      exact ⟨Nat.le_refl _, by simp⟩
    case isFalse =>
      subst h
      cases hn
  | cons t ts ih =>
    rw [parserLoop_cons] at h
    rw [List.length_cons]
    by_cases ht : t.isSeparator = true
    · rw [if_pos ht] at h
      split at h
      case isFalse => cases h
      case isTrue hc =>
        obtain ⟨ms, hms, rfl⟩ := Option.map_eq_some_iff.mp h
        rw [List.mem_cons] at hn
        rcases hn with rfl | hn
        · exact ⟨Nat.le_add_right _ _, fun _ => by
          -- the command ends here, and its separator is no argument of it
            show cur.length < _
            omega⟩
        · obtain ⟨hle, -⟩ := ih hms hn
          -- a later command starts with no arguments
          rw [List.length_nil] at hle
          exact ⟨by omega, fun _ => by omega⟩
    · rw [if_neg ht] at h
      obtain ⟨hle, hlt⟩ := ih h hn
      rw [List.length_append, List.length_singleton] at hle hlt
      rw [List.any_cons, Bool.or_eq_true]
      refine ⟨by omega, ?_⟩
      rintro (h' | h')
      · exact absurd h' ht
      · have := hlt h'
        omega

/-! ### The passes and the operands -/

section Pass

variable {α : Type} {sel : Str → Option (Str → α)}

theorem scanWrites_le {files : List Table} {count num : ℕ} {args : List Str} {w : Write}
    (h : w ∈ scanWrites files sel count num args) : w.index ≤ max count num + args.length := by
  fun_induction scanWrites files sel count num args with
  | case1 count num =>
    rw [List.mem_singleton] at h
    subst h
    show count ≤ _
    omega
  | case2 => cases h
  | case3 => cases h
  | case4 count num a f ha t ts ht ih =>
    rw [List.mem_append] at h
    rw [List.length_cons, List.length_cons]
    rcases h with h | h
    · obtain ⟨f, -, rfl⟩ := List.mem_map.mp h
      show num ≤ _
      omega
    · have := ih h
      omega
  | case5 count num a as ha ih =>
    rw [List.mem_cons] at h
    rw [List.length_cons]
    rcases h with rfl | h
    · show count ≤ _
      omega
    · have := ih h
      omega

theorem scan_args_le (args : List Str) : (scan sel args).args.length ≤ args.length := by
  fun_induction scan sel args with
  | case1 => simp
  | case2 => simp
  | case3 => simp
  | case4 a f h t ts ht ih =>
    simp only [List.length_cons]
    omega
  | case5 a as h ih =>
    simp only [List.length_cons]
    omega

/-- A pass leaves no more arguments than it finds. -/
theorem rewrite_args_le {old : List Str} {x : Ext α} (h : x.args.length ≤ old.length) :
    (rewrite old x).args.length ≤ old.length := by
  unfold rewrite
  split
  · exact h
  · simp only [List.length_append, List.length_drop]
    omega

end Pass

theorem revealWrites_le {args : List Str} {w : Write} (h : w ∈ revealWrites args) : w.index ≤ 1 := by
  unfold revealWrites at h
  split at h
  · rw [List.mem_singleton] at h
    subst h
    exact Nat.le_refl _
  · cases h

theorem peekWrites_le {args : List Str} {w : Write} (h : w ∈ peekWrites args) :
    w.index ≤ max 2 args.length := by
  simp only [peekWrites, List.mem_append] at h
  rcases h with h | h
  · have := revealWrites_le h
    omega
  · have hmem : ∀ (c : Prop) [Decidable c] (i : ℕ), w ∈ (if c then [⟨.args, i⟩] else []) →
        w.index = i := by
      intro c _ i hw
      split at hw
      · rw [List.mem_singleton] at hw
        rw [hw]
      · cases hw
    rw [hmem _ _ h]
    split
    · rw [List.length_append, List.length_singleton]
      omega
    · omega

section Node

variable {home : Home} {n : Node} {w : Write}

theorem extIn_args_le (args : List Str) : (extIn args).args.length ≤ args.length :=
  rewrite_args_le (scan_args_le args)

theorem extOut_args_le (args : List Str) : (extOut args).args.length ≤ args.length :=
  rewrite_args_le (scan_args_le args)

/-- The two passes of a command stay within its arguments. -/
theorem pass_le {args : List Str}
    (h : w ∈ extInWrites args ∨ w ∈ extOutWrites (extIn args).args) : w.index ≤ args.length := by
  rcases h with h | h
  · have hw : w.index ≤ max 0 0 + args.length := scanWrites_le h
    omega
  · have hw : w.index ≤ max 0 0 + (extIn args).args.length := scanWrites_le h
    have := extIn_args_le args
    omega

theorem singleWrites_le (h : w ∈ singleWrites home n) : w.index ≤ max 2 n.args.length := by
  have hlen : (n.args.map (expand home)).length = n.args.length := List.length_map _
  have hin := extIn_args_le (n.args.map (expand home))
  have hout := extOut_args_le (extIn (n.args.map (expand home))).args
  simp only [singleWrites, List.mem_append] at h
  rcases h with h | h
  · have := pass_le (.inl h)
    omega
  · split at h
    case h_1 => cases h
    case h_2 =>
      rw [List.mem_append] at h
      rcases h with h | h
      · have := pass_le (.inr h)
        omega
      · split at h
        case h_1 => cases h
        case h_2 =>
          split at h
          · have := revealWrites_le h
            omega
          · split at h
            · have := peekWrites_le h
              omega
            · cases h

theorem stageWrites_le (h : w ∈ stageWrites home n) : w.index ≤ max 2 n.args.length := by
  have hlen : (n.args.map (expand home)).length = n.args.length := List.length_map _
  simp only [stageWrites, List.mem_append] at h
  rcases h with h | h
  · have := pass_le h
    omega
  · split at h
    case h_1 =>
      split at h
      · have := revealWrites_le h
        omega
      · cases h
    case h_2 => cases h

/-- What is written for a command stays within its arguments and one entry for a
terminator or an operand. -/
theorem lineWrites_le {stage : Bool} {ns : List Node} {k : ℕ} (hk : 2 ≤ k)
    (hn : ∀ n ∈ ns, n.args.length ≤ k) (h : w ∈ lineWrites home stage ns) : w.index ≤ k := by
  induction ns generalizing stage with
  | nil => cases h
  | cons n ns ih =>
    have hargs := hn n List.mem_cons_self
    rw [lineWrites, List.mem_append] at h
    rcases h with h | h
    · split at h
      · have := stageWrites_le h
        omega
      · have := singleWrites_le h
        omega
    · exact ih (fun m hm => hn m (List.mem_cons_of_mem _ hm)) h

end Node

/-! ### The line -/

/-- A character that ends a command when it starts a token. -/
def endsCommand (c : Char) : Bool := c = '|' || c = ';' || c = '&'

/-- The outcome of `lexer` and of a reader of the line: the line is cut off for
both, or they find as many tokens and the same ones end a command. -/
def Agree (r : Option (List Token)) (x : Str × Bool) : Prop :=
  r.map (·.map Token.isSeparator) = if x.2 then none else some (x.1.map endsCommand)

theorem Agree.cons {r : Option (List Token)} {x : Str × Bool} {t : Token} {c : Char}
    (h : Agree r x) (ht : t.isSeparator = endsCommand c) :
    Agree (r.map (t :: ·)) (withStart c x) := by
  obtain ⟨s, cut⟩ := x
  cases r with
  | none =>
    cases cut with
    | true => rfl
    | false => cases h
  | some ts =>
    cases cut with
    | true => cases h
    | false =>
      have hts : ts.map Token.isSeparator = s.map endsCommand := Option.some_inj.mp h
      show some ((t :: ts).map Token.isSeparator) = some ((c :: s).map endsCommand)
      rw [List.map_cons, List.map_cons, hts, ht]

/-- The tokens of `lexer` are those that start on the line. -/
theorem lexLoop_agree (cmd : Str) : Agree (lexLoop cmd) (readLine .between cmd) := by
  rw [← lexer, ← lexTable_tokens 0]
  generalize 0 = k
  fun_induction lexTable k cmd with
  | case1 => rfl
  | case2 k c cs hc ih =>
    rw [readLine_blank hc]
    exact ih
  | case3 k => rfl
  | case4 k ds _ ih =>
    rw [readLine_gtgt, tokens_some]
    exact ih.cons rfl
  | case5 k d ds hd _ ih =>
    rw [readLine_gt (by simpa using hd), tokens_some]
    exact ih.cons rfl
  | case6 k c cs hb hc ho ih =>
    rw [readLine_op ho hc, tokens_some]
    exact ih.cons (by simp [Token.isSeparator, endsCommand])
  | case7 k c cs hb hc ho hw =>
    rw [readLine_first (by simpa using hb) (by simpa using ho), hw, tokens_none]
    rfl
  | case8 k c cs hb hc ho t r hw ih =>
    have hend : endsCommand c = false := by
      simp only [isOp, Bool.or_eq_true, decide_eq_true_eq, not_or] at ho
      simp [endsCommand, ho]
    rw [readLine_first (by simpa using hb) (by simpa using ho), hw, tokens_some]
    exact ih.cons (by rw [hend]; rfl)

/-- A line that is not cut off: its tokens, as they start on the line. -/
theorem lexer_starts {cmd : Str} {ts : List Token} (h : lexer cmd = some ts) :
    endsOpen cmd = false ∧ ts.map Token.isSeparator = (tokenStarts cmd).map endsCommand := by
  have hagree := lexLoop_agree cmd
  rw [show lexLoop cmd = some ts from h, Agree, Option.map_some] at hagree
  split at hagree
  · cases hagree
  case isFalse ho => exact ⟨by simpa [endsOpen] using ho, Option.some_inj.mp hagree⟩

theorem lexer_length {cmd : Str} {ts : List Token} (h : lexer cmd = some ts) :
    ts.length = (tokenStarts cmd).length := by
  simpa using congrArg List.length (lexer_starts h).2

theorem lexer_any {cmd : Str} {ts : List Token} (h : lexer cmd = some ts) :
    ts.any Token.isSeparator = (tokenStarts cmd).any endsCommand := by
  have hany := congrArg (List.any · id) (lexer_starts h).2
  simpa only [List.any_map, Function.id_comp] using hany

theorem endsOpen_iff {cmd : Str} : endsOpen cmd = true ↔ lexer cmd = none := by
  constructor
  · intro h
    cases hts : lexer cmd with
    | none => rfl
    | some ts =>
      rw [(lexer_starts hts).1] at h
      cases h
  · intro h
    have hagree := lexLoop_agree cmd
    rw [show lexLoop cmd = none from h, Agree, Option.map_none] at hagree
    by_contra hopen
    rw [if_neg (show ¬ (readLine .between cmd).2 = true from hopen)] at hagree
    cases hagree

theorem lexTable_index_iff {cmd : Str} :
    (∀ s ∈ lexTable 0 cmd, s.index < capacity) ↔ (tokenStarts cmd).length ≤ capacity := by
  have hall : (∀ s ∈ lexTable 0 cmd, s.index < capacity) ↔
      ∀ i ∈ (lexTable 0 cmd).map Slot.index, i < capacity := by simp
  rw [hall, lexTable_indices]
  simp only [List.mem_range'_1, Nat.zero_le, true_and, Nat.zero_add]
  constructor
  · intro h
    by_contra hlt
    have := h capacity (by omega)
    omega
  · intro h i hi
    omega

/-- **When the tables hold a line**: every entry that is written for the line is
one of the 100 of its table if and only if at most 99 tokens start on the line,
or 100 tokens do and one of them is `|`, `;` or `&`, or 100 tokens do and the line
ends in a quote or after a backslash.  With 100 words in one command only the
terminator is too much. -/
theorem tables_hold_iff (home : Home) (cmd : Str) :
    (∀ w ∈ tableWrites home cmd, w.index < capacity) ↔
      (tokenStarts cmd).length < capacity ∨
      (tokenStarts cmd).length = capacity ∧
        ((tokenStarts cmd).any endsCommand = true ∨ endsOpen cmd = true) := by
  constructor
  · intro h
    have hlex : (tokenStarts cmd).length ≤ capacity := by
      rw [← lexTable_index_iff]
      intro s hs
      exact h ⟨.tokens, s.index⟩ (List.mem_append_left _ (List.mem_map.mpr ⟨s, hs, rfl⟩))
    rcases Nat.lt_or_eq_of_le hlex with hlt | heq
    · exact .inl hlt
    · refine .inr ⟨heq, ?_⟩
      cases hts : lexer cmd with
      | none => exact .inr (endsOpen_iff.mpr hts)
      | some ts =>
        refine .inl ?_
        rw [← lexer_any hts]
        by_contra hsep
        -- the terminator of the one command of the line is out of the table
        have hlen := lexer_length hts
        have hmem : ⟨.args, 0 + ts.length⟩ ∈ parserWrites 0 0 ts :=
          terminator_mem (by simpa using hsep) (by rw [hlen, heq]; decide)
        have hin : ⟨.args, 0 + ts.length⟩ ∈ tableWrites home cmd := by
          refine List.mem_append_right _ ?_
          rw [hts]
          exact List.mem_append_left _ (List.mem_cons_of_mem _ hmem)
        have hlt : 0 + ts.length < capacity := h _ hin
        omega
  · intro hcond w hw
    have hlex : (tokenStarts cmd).length ≤ capacity := by
      rcases hcond with h | ⟨h, -⟩ <;> omega
    rw [tableWrites, List.mem_append] at hw
    rcases hw with hw | hw
    · obtain ⟨s, hs, rfl⟩ := List.mem_map.mp hw
      exact lexTable_index_iff.mpr hlex s hs
    · cases hts : lexer cmd with
      | none =>
        rw [hts] at hw
        cases hw
      | some ts =>
        rw [hts] at hw
        have hlen := lexer_length hts
        have hsep : ts.length < capacity ∨ ts.length = capacity ∧ ts.any Token.isSeparator = true := by
          rcases hcond with h | ⟨h, hs⟩
          · exact .inl (by omega)
          · refine .inr ⟨by omega, ?_⟩
            rcases hs with hs | ho
            · rw [lexer_any hts]
              exact hs
            · rw [(lexer_starts hts).1] at ho
              cases ho
        rw [List.mem_append, List.mem_cons] at hw
        rcases hw with (rfl | hw) | hw
        · show 0 < capacity
          decide
        · rcases parserWrites_le hw with ⟨hle, hlt⟩ | hle
          · rcases hsep with hs | ⟨hs, ha⟩
            · omega
            · have := hlt ha
              omega
          · rw [if_pos rfl] at hle
            omega
        · cases hns : parser ts with
          | none =>
            rw [hns] at hw
            cases hw
          | some ns =>
            rw [hns] at hw
            have hargs : ∀ n ∈ ns, n.args.length ≤ 99 := by
              intro n hn
              obtain ⟨hle, hlt⟩ := parserLoop_args_le hns hn
              rw [List.length_nil] at hle hlt
              have hcap : capacity = 100 := rfl
              rcases hsep with hs | ⟨hs, ha⟩
              · omega
              · have := hlt ha
                omega
            have := lineWrites_le (by decide) hargs hw
            show w.index < 100
            omega

/-- 101 words of one letter: a line of 202 characters whose last token goes behind
the end of the token table. -/
theorem long_line_overflows : ∃ (home : Home) (cmd : Str), cmd.length ≤ 1025 ∧
    ¬ ∀ w ∈ tableWrites home cmd, w.index < capacity := by
  refine ⟨⟨['/'], rfl⟩, (List.replicate 101 ['a', ' ']).flatten, by decide +kernel, ?_⟩
  intro h
  have hcount : (tokenStarts (List.replicate 101 ['a', ' ']).flatten).length = 101 := by
    decide +kernel
  have hmem : 100 ∈ (lexTable 0 (List.replicate 101 ['a', ' ']).flatten).map Slot.index := by
    rw [lexTable_indices, hcount]
    simp
  obtain ⟨s, hs, hi⟩ := List.mem_map.mp hmem
  have hlt : s.index < capacity :=
    h ⟨.tokens, s.index⟩ (List.mem_append_left _ (List.mem_map.mpr ⟨s, hs, rfl⟩))
  rw [hi] at hlt
  exact absurd hlt (by decide)

end Cshell
