/-
The accesses of `lexer` to memory.

The line is in a block of `len + 1` bytes, and the buffer of a token that starts
at `i` is a block of `len - i + 1` bytes.  Here `lexer` is a machine that takes
the turns of its loops one by one, with the index `i` of the source.  Every read
and every write goes to a block and to a position in it, and the machine has no
next state when the block does not have that position.

Two places read before they compare: the loop over the blanks reads `cmd[i]`
before it compares `i` with `len`, and `>` looks at `cmd[i+1]`.  Both may read the
terminator, and nothing beyond it.

* `lexStep` — a turn of one of the loops;
* `dquote_run`, `squote_run`, `word_run`, `blanks_run` — from every suffix of the
  line a loop runs to its end and does what the lexer does on the suffix;
* `lexer_in_bounds` — the machine never misses a block and returns.
-/
import CshellXv6.Shell.Buffers
import Mathlib.Computability.StateTransition

namespace Cshell

open StateTransition

/-- A block from `malloc`, `none` where nothing has been written. -/
abbrev Buffer := List (Option Char)

/-- `v[k] = c`. -/
def Buffer.put (v : Buffer) (k : ℕ) (c : Char) : Option Buffer :=
  if k < v.length then some (v.set k (some c)) else none

/-- An entry of the token table. -/
structure TokEntry where
  type : TokType
  value : Buffer
  deriving DecidableEq, Repr

/-- Where the lexer stands.  In a word, `v` is the buffer of its token. -/
inductive Pc
  | strlen (n : ℕ)
  | outer
  | blanks
  | token
  | word (v : Buffer) (k : ℕ)
  | dquote (v : Buffer) (k : ℕ)
  | squote (v : Buffer) (k : ℕ)
  | ret (r : ℤ)
  deriving DecidableEq, Repr

/-- `args_index` is the length of `args`. -/
structure LexState where
  pc : Pc
  i : ℕ
  len : ℕ
  args : List TokEntry
  deriving DecidableEq, Repr

namespace LexState

/-- A token is finished: `args_index++`, and the `i++` of the outer loop. -/
def next (s : LexState) (type : TokType) (v : Buffer) (i : ℕ) : LexState :=
  ⟨.outer, i + 1, s.len, s.args ++ [⟨type, v⟩]⟩

/-- The branches over the first character of a token. -/
def choose (mem : Str) (s : LexState) (v : Buffer) : Option LexState := do
  let c ← mem[s.i]?
  if c = '|' ∨ c = '&' ∨ c = '<' ∨ c = ';' then
    let v ← v.put 0 c
    let v ← v.put 1 '\x00'
    some (s.next .special v s.i)
  else if c = '>' then
    let v ← v.put 0 c
    -- always true here
    if s.i < s.len then
      let d ← mem[s.i + 1]?
      if d = '>' then
        let v ← v.put 1 d
        let v ← v.put 2 '\x00'
        some (s.next .special v (s.i + 1))
      else
        let v ← v.put 1 '\x00'
        some (s.next .special v s.i)
    else
      let v ← v.put 1 '\x00'
      some (s.next .special v s.i)
  else some { s with pc := .word v 0 }

/-- A turn of the loop inside double quotes, and what follows the loop. -/
def dquoteTurn (mem : Str) (s : LexState) (v : Buffer) (k : ℕ) : Option LexState :=
  if s.i < s.len then do
    let c ← mem[s.i]?
    if c = '"' then some { s with pc := .word v k, i := s.i + 1 }
    else if c = '\\' then
      if s.len ≤ s.i + 1 then some { s with pc := .ret (-1), i := s.i + 1 }
      else
        let d ← mem[s.i + 1]?
        if d = '"' ∨ d = '\\' then
          let v ← v.put k d
          some { s with pc := .dquote v (k + 1), i := s.i + 2 }
        else
          let v ← v.put k '\\'
          let v ← v.put (k + 1) d
          some { s with pc := .dquote v (k + 2), i := s.i + 2 }
    else
      let v ← v.put k c
      some { s with pc := .dquote v (k + 1), i := s.i + 1 }
  else some { s with pc := .ret (-1) }

/-- A turn of the loop inside single quotes, and what follows the loop. -/
def squoteTurn (mem : Str) (s : LexState) (v : Buffer) (k : ℕ) : Option LexState :=
  if s.i < s.len then do
    let c ← mem[s.i]?
    if c = '\'' then some { s with pc := .word v k, i := s.i + 1 }
    else
      let v ← v.put k c
      some { s with pc := .squote v (k + 1), i := s.i + 1 }
  else some { s with pc := .ret (-1) }

/-- What follows the loop over a word. -/
def wordEnd (s : LexState) (v : Buffer) (k : ℕ) : Option LexState := do
  let v ← v.put k '\x00'
  some (s.next .ordinary v s.i)

/-- A turn of the loop over a word. -/
def wordTurn (mem : Str) (s : LexState) (v : Buffer) (k : ℕ) : Option LexState :=
  if s.i < s.len then do
    let c ← mem[s.i]?
    if isBlank c || isOp c then s.wordEnd v k
    else if c = '\\' then
      if s.len ≤ s.i + 1 then some { s with pc := .ret (-1), i := s.i + 1 }
      else
        let d ← mem[s.i + 1]?
        let v ← v.put k d
        some { s with pc := .word v (k + 1), i := s.i + 2 }
    else if c = '"' then some { s with pc := .dquote v k, i := s.i + 1 }
    else if c = '\'' then some { s with pc := .squote v k, i := s.i + 1 }
    else
      let v ← v.put k c
      some { s with pc := .word v (k + 1), i := s.i + 1 }
  else s.wordEnd v k

end LexState

/-- One turn, on the block `mem` of the line.  A returned call stays as it is; no
state follows an access outside a block. -/
def lexStep (mem : Str) (s : LexState) : Option LexState :=
  match s.pc with
  | .strlen n => do
    let c ← mem[n]?
    if c = '\x00' then some { s with pc := .outer, len := n }
    else some { s with pc := .strlen (n + 1) }
  | .outer => some { s with pc := if s.i < s.len then .blanks else .ret 0 }
  | .blanks => do
    let c ← mem[s.i]?
    if isBlank c = true ∧ s.i < s.len then some { s with i := s.i + 1 }
    else if s.len ≤ s.i then some { s with pc := .ret 0 }
    else some { s with pc := .token }
  | .token =>
    if s.args.length < capacity then s.choose mem (List.replicate (s.len - s.i + 1) none) else none
  | .word v k => s.wordTurn mem v k
  | .dquote v k => s.dquoteTurn mem v k
  | .squote v k => s.squoteTurn mem v k
  | .ret _ => some s

/-- `lexer` is called. -/
def LexState.start : LexState := ⟨.strlen 0, 0, 0, []⟩

/-! ### Blocks -/

/-- The buffer of `n` bytes that holds the text `t` so far. -/
def filled (t : Str) (n : ℕ) : Buffer := t.map some ++ List.replicate (n - t.length) none

theorem put_filled {t : Str} {n : ℕ} (h : t.length < n) (c : Char) :
    (filled t n).put t.length c = some (filled (t ++ [c]) n) := by
  have hlen : t.length < (filled t n).length := by
    simp only [filled, List.length_append, List.length_map, List.length_replicate]
    omega
  have hrep : n - t.length = (n - (t.length + 1)) + 1 := by omega
  rw [Buffer.put, if_pos hlen]
  simp [filled, hrep, List.replicate_succ]

theorem put_zero {n : ℕ} (h : 0 < n) (c : Char) : (filled [] n).put 0 c = some (filled [c] n) :=
  put_filled h c

theorem put_one {n : ℕ} (h : 1 < n) (b c : Char) :
    (filled [b] n).put 1 c = some (filled [b, c] n) :=
  put_filled h c

theorem put_two {n : ℕ} (h : 2 < n) (a b c : Char) :
    (filled [a, b] n).put 2 c = some (filled [a, b, c] n) :=
  put_filled h c

/-- The block of a line. -/
def terminated (cmd : Str) : Str := cmd ++ ['\x00']

/-- The index at which a suffix of the line starts. -/
def indexOf (cmd rest : Str) : ℕ := cmd.length - rest.length

section Suffix

variable {cmd cs : Str} {c : Char}

theorem read_cons (h : c :: cs <:+ cmd) : (terminated cmd)[indexOf cmd (c :: cs)]? = some c := by
  obtain ⟨p, rfl⟩ := h
  simp [terminated, indexOf]

theorem read_end : (terminated cmd)[cmd.length]? = some '\x00' := by
  simp [terminated]

theorem indexOf_lt (h : c :: cs <:+ cmd) : indexOf cmd (c :: cs) < cmd.length := by
  have := h.length_le
  simp only [indexOf, List.length_cons] at this ⊢
  omega

theorem indexOf_succ (h : c :: cs <:+ cmd) : indexOf cmd (c :: cs) + 1 = indexOf cmd cs := by
  have := h.length_le
  simp only [indexOf, List.length_cons] at this ⊢
  omega

@[simp] theorem indexOf_nil : indexOf cmd [] = cmd.length := by simp [indexOf]

@[simp] theorem indexOf_self : indexOf cmd cmd = 0 := by simp [indexOf]

theorem suffix_of_cons (h : c :: cs <:+ cmd) : cs <:+ cmd := (List.suffix_cons c cs).trans h

end Suffix

/-! ### The loops -/

section Loops

variable {cmd : Str} {args : List TokEntry} {t : Str} {n : ℕ}

/-- The lexer at the suffix `rest` of the line. -/
def LexState.at (cmd rest : Str) (pc : Pc) (args : List TokEntry) : LexState :=
  ⟨pc, indexOf cmd rest, cmd.length, args⟩

/-- The state follows after some turns. -/
abbrev LexRuns (cmd : Str) : LexState → LexState → Prop := Reaches (lexStep (terminated cmd))

/-- The call returns -1. -/
def LexFails (cmd : Str) (args : List TokEntry) (s : LexState) : Prop :=
  ∃ i, LexRuns cmd s ⟨.ret (-1), i, cmd.length, args⟩

/-- Where the loop inside quotes leads to: back to the word with what was read, or
out of the lexer. -/
def QuoteRun (cmd t : Str) (n : ℕ) (args : List TokEntry) (s : LexState) : Option (Str × Str) → Prop
  | some (t', r) => r <:+ cmd ∧ LexRuns cmd s (.at cmd r (.word (filled (t ++ t') n) (t ++ t').length) args)
  | none => LexFails cmd args s

theorem LexFails.trans {s s' : LexState} (h : LexRuns cmd s s') (hs : LexFails cmd args s') :
    LexFails cmd args s := by
  obtain ⟨i, hi⟩ := hs
  exact ⟨i, h.trans hi⟩

/-- A turn that reads `d` before the rest of the loop. -/
theorem QuoteRun.head {s s' : LexState} {d : Str} {x : Option (Str × Str)}
    (h : lexStep (terminated cmd) s = some s') (hs : QuoteRun cmd (t ++ d) n args s' x) :
    QuoteRun cmd t n args s (x.map (prepend d)) := by
  cases x with
  | none => exact LexFails.trans (.single h) hs
  | some x =>
    obtain ⟨hr, hrun⟩ := hs
    rw [List.append_assoc] at hrun
    exact ⟨hr, .head h hrun⟩

theorem squote_run (rest : Str) (hs : rest <:+ cmd) (hn : t.length + rest.length < n) :
    QuoteRun cmd t n args (.at cmd rest (.squote (filled t n) t.length) args) (squote rest) := by
  induction rest generalizing t with
  | nil =>
    refine ⟨cmd.length, .single ?_⟩
    simp [lexStep, LexState.at, LexState.squoteTurn]
  | cons c cs ih =>
    have hlt := indexOf_lt hs
    have hread := read_cons hs
    have hsucc := indexOf_succ hs
    have hs' := suffix_of_cons hs
    rw [List.length_cons] at hn
    by_cases hc : c = '\''
    · subst hc
      refine ⟨hs', .single ?_⟩
      simp [lexStep, LexState.at, LexState.squoteTurn, hlt, hread, hsucc]
    · rw [squote, if_neg hc]
      refine QuoteRun.head ?_ (ih hs' (by simp; omega))
      simp [lexStep, LexState.at, LexState.squoteTurn, hlt, hread, hsucc, hc,
        put_filled (show t.length < n by omega)]

theorem dquote_run (rest : Str) (hs : rest <:+ cmd) (hn : t.length + rest.length < n) :
    QuoteRun cmd t n args (.at cmd rest (.dquote (filled t n) t.length) args) (dquote rest) := by
  fun_induction dquote rest generalizing t with
  | case1 =>
    refine ⟨cmd.length, .single ?_⟩
    simp [lexStep, LexState.at, LexState.dquoteTurn]
  | case2 cs =>
    have hlt := indexOf_lt hs
    have hread := read_cons hs
    refine ⟨suffix_of_cons hs, .single ?_⟩
    simp [lexStep, LexState.at, LexState.dquoteTurn, hlt, hread, indexOf_succ hs]
  | case3 =>
    have hlt := indexOf_lt hs
    have hread := read_cons hs
    refine ⟨cmd.length, .single ?_⟩
    simp [lexStep, LexState.at, LexState.dquoteTurn, hlt, hread, indexOf_succ hs]
  | case4 d ds _ ih =>
    have hlt := indexOf_lt hs
    have hread := read_cons hs
    have hs₁ := suffix_of_cons hs
    have hlt₁ := indexOf_lt hs₁
    have hread₁ := read_cons hs₁
    have hsucc₁ := indexOf_succ hs₁
    rw [← indexOf_succ hs] at hlt₁ hread₁ hsucc₁
    rw [List.length_cons, List.length_cons] at hn
    by_cases hd : d = '"' ∨ d = '\\'
    · rw [if_pos hd]
      refine QuoteRun.head ?_ (ih (suffix_of_cons hs₁) (by simp; omega))
      simp [lexStep, LexState.at, LexState.dquoteTurn, hlt, hread, hlt₁, hread₁, hsucc₁, hd,
        put_filled (show t.length < n by omega)]
    · rw [if_neg hd]
      refine QuoteRun.head ?_ (ih (suffix_of_cons hs₁) (by simp; omega))
      have hput₁ := put_filled (show t.length < n by omega) '\\'
      have hput₂ := put_filled (t := t ++ ['\\']) (n := n) (by simp; omega) d
      simp at hput₂
      simp [lexStep, LexState.at, LexState.dquoteTurn, hlt, hread, hlt₁, hread₁, hsucc₁, hd,
        hput₁, hput₂]
  | case5 c cs hq he ih =>
    have hlt := indexOf_lt hs
    have hread := read_cons hs
    rw [List.length_cons] at hn
    refine QuoteRun.head ?_ (ih (suffix_of_cons hs) (by simp; omega))
    simp [lexStep, LexState.at, LexState.dquoteTurn, hlt, hread, indexOf_succ hs, hq, he,
      put_filled (show t.length < n by omega)]

/-- Where the loop over a word leads to: past the character that ended the word,
with its token in the table, or out of the lexer. -/
def WordRun (cmd t : Str) (n : ℕ) (args : List TokEntry) (s : LexState) : Option (Str × Str) → Prop
  | some (t', r) => r <:+ cmd ∧ LexRuns cmd s ⟨.outer, indexOf cmd r + 1, cmd.length,
      args ++ [⟨.ordinary, filled (t ++ t' ++ ['\x00']) n⟩]⟩
  | none => LexFails cmd args s

theorem WordRun.trans {s s' : LexState} {x : Option (Str × Str)} (h : LexRuns cmd s s')
    (hs : WordRun cmd t n args s' x) : WordRun cmd t n args s x := by
  cases x with
  | none => exact LexFails.trans h hs
  | some x => exact ⟨hs.1, h.trans hs.2⟩

/-- The text `d` has been read before the rest of the loop. -/
theorem WordRun.head {s s' : LexState} {d : Str} {x : Option (Str × Str)} (h : LexRuns cmd s s')
    (hs : WordRun cmd (t ++ d) n args s' x) : WordRun cmd t n args s (x.map (prepend d)) := by
  cases x with
  | none => exact LexFails.trans h hs
  | some x =>
    obtain ⟨hr, hrun⟩ := hs
    rw [List.append_assoc t] at hrun
    exact ⟨hr, h.trans hrun⟩

theorem word_run (rest : Str) (hs : rest <:+ cmd) (hn : t.length + rest.length < n) :
    WordRun cmd t n args (.at cmd rest (.word (filled t n) t.length) args) (word rest) := by
  have hput := put_filled (show t.length < n by omega)
  -- along the reading of the word: end of line, end of word, escape, quotes, plain
  fun_induction word rest generalizing t with
  | case1 =>
    refine ⟨hs, .single ?_⟩
    simp [lexStep, LexState.at, LexState.wordTurn, LexState.wordEnd, LexState.next, hput]
  | case2 c cs hend =>
    have hend' : isBlank c = true ∨ isOp c = true := by simpa using hend
    refine ⟨hs, .single ?_⟩
    simp [lexStep, LexState.at, LexState.wordTurn, LexState.wordEnd, LexState.next, indexOf_lt hs,
      read_cons hs, hput, hend']
  | case3 =>
    refine ⟨cmd.length, .single ?_⟩
    simp [lexStep, LexState.at, LexState.wordTurn, indexOf_lt hs, read_cons hs, indexOf_succ hs,
      isBlank, isOp]
  | case4 d ds _ ih =>
    have hs₁ := suffix_of_cons hs
    have hlt₁ := indexOf_lt hs₁
    have hread₁ := read_cons hs₁
    have hsucc₁ := indexOf_succ hs₁
    rw [← indexOf_succ hs] at hlt₁ hread₁ hsucc₁
    rw [List.length_cons, List.length_cons] at hn
    have hn' : (t ++ [d]).length + ds.length < n := by simp; omega
    refine WordRun.head (.single ?_) (ih (suffix_of_cons hs₁) hn' (put_filled (by omega)))
    simp [lexStep, LexState.at, LexState.wordTurn, indexOf_lt hs, read_cons hs, hlt₁, hread₁,
      hsucc₁, hput, isBlank, isOp]
  | case5 cs hq _ _ =>
    -- a quote that does not end: the lexer fails in it
    rw [List.length_cons] at hn
    have hrun : QuoteRun cmd t n args (.at cmd cs (.dquote (filled t n) t.length) args) _ :=
      dquote_run cs (suffix_of_cons hs) (by omega)
    rw [hq] at hrun
    refine LexFails.trans (.single ?_) hrun
    simp [lexStep, LexState.at, LexState.wordTurn, indexOf_lt hs, read_cons hs, indexOf_succ hs,
      isBlank, isOp]
  | case6 cs t' r hq _ _ ih =>
    rw [List.length_cons] at hn
    have hrun : QuoteRun cmd t n args (.at cmd cs (.dquote (filled t n) t.length) args) _ :=
      dquote_run cs (suffix_of_cons hs) (by omega)
    rw [hq] at hrun
    have hroom : t'.length + r.length < cs.length := dquote_text_le hq
    have hn' : (t ++ t').length + r.length < n := by simp; omega
    refine WordRun.head (.head ?_ hrun.2) (ih hrun.1 hn' (put_filled (by omega)))
    simp [lexStep, LexState.at, LexState.wordTurn, indexOf_lt hs, read_cons hs, indexOf_succ hs,
      isBlank, isOp]
  | case7 cs hq _ _ =>
    rw [List.length_cons] at hn
    have hrun : QuoteRun cmd t n args (.at cmd cs (.squote (filled t n) t.length) args) _ :=
      squote_run cs (suffix_of_cons hs) (by omega)
    rw [hq] at hrun
    refine LexFails.trans (.single ?_) hrun
    simp [lexStep, LexState.at, LexState.wordTurn, indexOf_lt hs, read_cons hs, indexOf_succ hs,
      isBlank, isOp]
  | case8 cs t' r hq _ _ _ ih =>
    rw [List.length_cons] at hn
    have hrun : QuoteRun cmd t n args (.at cmd cs (.squote (filled t n) t.length) args) _ :=
      squote_run cs (suffix_of_cons hs) (by omega)
    rw [hq] at hrun
    have hroom : t'.length + r.length < cs.length := squote_text_le hq
    have hn' : (t ++ t').length + r.length < n := by simp; omega
    refine WordRun.head (.head ?_ hrun.2) (ih hrun.1 hn' (put_filled (by omega)))
    simp [lexStep, LexState.at, LexState.wordTurn, indexOf_lt hs, read_cons hs, indexOf_succ hs,
      isBlank, isOp]
  | case9 c cs hend he hd hsq ih =>
    rw [List.length_cons] at hn
    have hn' : (t ++ [c]).length + cs.length < n := by simp; omega
    have hend' : ¬ (isBlank c = true ∨ isOp c = true) := by simpa using hend
    refine WordRun.head (.single ?_) (ih (suffix_of_cons hs) hn' (put_filled (by omega)))
    simp [lexStep, LexState.at, LexState.wordTurn, indexOf_lt hs, read_cons hs, indexOf_succ hs,
      hend', he, hd, hsq, hput]

/-- The entry of the table that holds the token of a slot. -/
def Slot.entry (s : Slot) : Option TokEntry :=
  s.token.map fun t => ⟨t.type, filled (t.value ++ ['\x00']) s.size⟩

/-- The call returns and its tokens are in the table, those of `slots` being the last. -/
def Finishes (cmd : Str) (args : List TokEntry) (slots : List Slot) (s : LexState) : Prop :=
  ∃ i, LexRuns cmd s ⟨.ret (if (tokens slots).isSome then 0 else -1), i, cmd.length,
    args ++ slots.filterMap Slot.entry⟩

variable {slots : List Slot}

theorem Finishes.head {s s' : LexState} (h : LexRuns cmd s s') (hs : Finishes cmd args slots s') :
    Finishes cmd args slots s := by
  obtain ⟨i, hi⟩ := hs
  exact ⟨i, h.trans hi⟩

theorem blanks_nil : Finishes cmd args [] (.at cmd [] .blanks args) := by
  refine ⟨cmd.length, .single ?_⟩
  simp [lexStep, LexState.at, read_end]

/-- The test of the outer loop. -/
theorem outer_at {rest : Str} (hr : rest <:+ cmd) (hnil : rest = [] → slots = [])
    (hs : Finishes cmd args slots (.at cmd rest .blanks args)) :
    Finishes cmd args slots (.at cmd rest .outer args) := by
  cases rest with
  | nil =>
    rw [hnil rfl]
    refine ⟨cmd.length, .single ?_⟩
    simp [lexStep, LexState.at]
  | cons c cs =>
    refine hs.head (.single ?_)
    simp [lexStep, LexState.at, indexOf_lt hr]

/-- The test of the outer loop after its `i++`, which goes past the terminator when the
line has ended a word. -/
theorem outer_run {r : Str} (hr : r <:+ cmd) (hnil : r.tail = [] → slots = [])
    (hs : Finishes cmd args slots (.at cmd r.tail .blanks args)) :
    Finishes cmd args slots ⟨.outer, indexOf cmd r + 1, cmd.length, args⟩ := by
  cases r with
  | nil =>
    rw [hnil rfl]
    refine ⟨cmd.length + 1, .single ?_⟩
    simp [lexStep]
  | cons c cs =>
    rw [indexOf_succ hr]
    exact outer_at (suffix_of_cons hr) hnil hs

/-- A token, and what the lexer does after it. -/
theorem Finishes.token {s : LexState} {r : Str} {k size : ℕ} {u : Token}
    (h : LexRuns cmd s ⟨.outer, indexOf cmd r + 1, cmd.length,
      args ++ [⟨u.type, filled (u.value ++ ['\x00']) size⟩]⟩)
    (hs : Finishes cmd (args ++ [⟨u.type, filled (u.value ++ ['\x00']) size⟩]) slots
      ⟨.outer, indexOf cmd r + 1, cmd.length,
        args ++ [⟨u.type, filled (u.value ++ ['\x00']) size⟩]⟩) :
    Finishes cmd args (⟨k, size, some u⟩ :: slots) s := by
  obtain ⟨i, hi⟩ := hs
  have hentry : Slot.entry ⟨k, size, some u⟩ =
      some ⟨u.type, filled (u.value ++ ['\x00']) size⟩ := rfl
  rw [Finishes, tokens_some, Option.isSome_map, List.filterMap_cons_some hentry]
  rw [List.append_assoc] at hi
  exact ⟨i, h.trans hi⟩

/-- The first character of a token is read with its buffer allocated: what is left of
the line, and a byte for the terminator. -/
theorem token_run {c : Char} {cs : Str} {s : LexState} (hs : c :: cs <:+ cmd)
    (hb : isBlank c = false) (ha : args.length < capacity)
    (hc : (LexState.at cmd (c :: cs) .token args).choose (terminated cmd) (filled [] (cs.length + 2)) =
      some s) :
    LexRuns cmd (.at cmd (c :: cs) .blanks args) s := by
  have hlen := hs.length_le
  have hlt := indexOf_lt hs
  have hsize : cmd.length - indexOf cmd (c :: cs) + 1 = cs.length + 2 := by
    rw [List.length_cons] at hlen
    rw [indexOf, List.length_cons]
    omega
  have htoken : lexStep (terminated cmd) (.at cmd (c :: cs) .blanks args) =
      some (.at cmd (c :: cs) .token args) := by
    simp [lexStep, LexState.at, read_cons hs, hb, Nat.not_le.mpr hlt]
  refine .head htoken (.single ?_)
  rw [← hsize] at hc
  show (if args.length < capacity then _ else none) = some s
  rw [if_pos ha]
  exact hc

/-- Any other character starts a word. -/
theorem first_run {c : Char} {cs : Str} (hs : c :: cs <:+ cmd) (hb : isBlank c = false)
    (ho : isOp c = false) (ha : args.length < capacity) :
    WordRun cmd [] (cs.length + 2) args (.at cmd (c :: cs) .blanks args) (word (c :: cs)) := by
  refine WordRun.trans (token_run hs hb ha ?_) (word_run (c :: cs) hs (by simp))
  simp only [isOp, Bool.or_eq_false_iff, decide_eq_false_iff_not] at ho
  simp [LexState.choose, LexState.at, read_cons hs, ho]

theorem lexTable_eq_nil (k : ℕ) {r : Str} (h : r = []) : lexTable k r = [] := by
  rw [h, lexTable]

theorem blanks_run (rest : Str) {k : ℕ} (hk : args.length = k) (hs : rest <:+ cmd)
    (hcap : k + (lexTable k rest).length ≤ capacity) :
    Finishes cmd args (lexTable k rest) (.at cmd rest .blanks args) := by
  fun_induction lexTable k rest generalizing args with
  | case1 => exact blanks_nil
  | case2 k c cs hc ih =>
    refine (ih hk (suffix_of_cons hs) hcap).head (.single ?_)
    simp [lexStep, LexState.at, read_cons hs, hc, indexOf_lt hs, indexOf_succ hs]
  | case3 k =>
    refine Finishes.token ?_ (outer_run hs (fun _ => rfl) blanks_nil)
    refine token_run hs rfl (by simp at hcap; omega) ?_
    -- the look-ahead reads the terminator
    have hend : (terminated cmd)[indexOf cmd ['>'] + 1]? = some '\x00' := by
      rw [indexOf_succ hs, indexOf_nil, read_end]
    simp [LexState.choose, LexState.at, LexState.next, read_cons hs, indexOf_lt hs, hend, put_zero,
      put_one]
  | case4 k ds _ ih =>
    have hs₁ := suffix_of_cons hs
    rw [List.length_cons] at hcap
    refine Finishes.token ?_ (outer_run hs₁ (lexTable_eq_nil (k + 1))
      (ih (by simp [hk]) (suffix_of_cons hs₁) (by omega)))
    refine token_run hs rfl (by omega) ?_
    have hread₁ := read_cons hs₁
    have hsucc := indexOf_succ hs
    rw [← hsucc] at hread₁ ⊢
    simp [LexState.choose, LexState.at, LexState.next, read_cons hs, indexOf_lt hs, hread₁, put_zero,
      put_one, put_two]
  | case5 k d ds hd _ ih =>
    have hs₁ := suffix_of_cons hs
    rw [List.length_cons] at hcap
    refine Finishes.token ?_ (outer_run hs (lexTable_eq_nil (k + 1))
      (ih (by simp [hk]) hs₁ (by omega)))
    refine token_run hs rfl (by omega) ?_
    have hread₁ := read_cons hs₁
    rw [← indexOf_succ hs] at hread₁
    simp [LexState.choose, LexState.at, LexState.next, read_cons hs, indexOf_lt hs, hread₁, hd,
      put_zero, put_one]
  | case6 k c cs hb hc ho ih =>
    rw [List.length_cons] at hcap
    refine Finishes.token ?_ (outer_run hs (lexTable_eq_nil (k + 1))
      (ih (by simp [hk]) (suffix_of_cons hs) (by omega)))
    refine token_run hs (by simpa using hb) (by omega) ?_
    have hop : c = '|' ∨ c = '&' ∨ c = '<' ∨ c = ';' := by
      simp [isOp] at ho
      tauto
    simp [LexState.choose, LexState.at, LexState.next, read_cons hs, hop, put_zero, put_one]
  | case7 k c cs hb hc ho hw =>
    rw [List.length_singleton] at hcap
    have hrun : WordRun cmd [] (cs.length + 2) args _ _ :=
      first_run hs (by simpa using hb) (by simpa using ho) (by omega)
    rw [hw] at hrun
    obtain ⟨i, hi⟩ := hrun
    refine ⟨i, ?_⟩
    rw [tokens_none, List.filterMap_cons_none rfl, List.filterMap_nil, List.append_nil]
    exact hi
  | case8 k c cs hb hc ho t r hw ih =>
    rw [List.length_cons] at hcap
    have hrun : WordRun cmd [] (cs.length + 2) args _ _ :=
      first_run hs (by simpa using hb) (by simpa using ho) (by omega)
    rw [hw] at hrun
    obtain ⟨hr, hrun⟩ := hrun
    exact Finishes.token hrun (outer_run hr (lexTable_eq_nil (k + 1))
      (ih (by simp [hk]) ((List.tail_suffix r).trans hr) (by omega)))

end Loops

/-! ### The call -/

theorem strlen_run {cmd : Str} (hnul : '\x00' ∉ cmd) (n : ℕ) (h : n ≤ cmd.length) :
    LexRuns cmd ⟨.strlen n, 0, 0, []⟩ ⟨.outer, 0, cmd.length, []⟩ := by
  induction hm : cmd.length - n generalizing n with
  | zero =>
    have hn : n = cmd.length := by omega
    refine .single ?_
    simp [lexStep, hn, read_end]
  | succ m ih =>
    refine .head ?_ (ih (n + 1) (by omega) (by omega))
    have hlt : n < cmd.length := by omega
    have hread : (terminated cmd)[n]? = some cmd[n] := by
      rw [terminated, List.getElem?_append_left hlt, List.getElem?_eq_getElem hlt]
    have hne : cmd[n] ≠ '\x00' := by
      intro he
      exact hnul (he ▸ List.getElem_mem hlt)
    simp [lexStep, hread, hne]

/-- The turns lead to one state after the other, so a run that has returned has had no
other way. -/
theorem isSome_of_returned {cmd : Str} {s s' x : LexState} (h : LexRuns cmd s s')
    (hret : lexStep (terminated cmd) s' = some s') (hx : LexRuns cmd s x) :
    (lexStep (terminated cmd) x).isSome := by
  have hstay : ∀ y, LexRuns cmd s' y → y = s' := by
    intro y hy
    induction hy with
    | refl => rfl
    | tail _ hstep ih =>
      rw [ih, hret] at hstep
      exact (Option.some.inj hstep).symm
  rcases reaches_total h hx with hafter | hbefore
  · rw [hstay x hafter, hret]
    rfl
  · rcases Relation.ReflTransGen.cases_head hbefore with rfl | ⟨y, hy, -⟩
    · rw [hret]
      rfl
    · rw [Option.mem_def.mp hy]
      rfl

/-- **Every access of `lexer` is inside its block**: on a line in a block of `len + 1`
bytes whose tokens fit the table the lexer returns, 0 or -1 as it should, with the
text and the terminator of every token in a buffer of as many bytes as the line has
from the start of the token on, and one more; and no turn on the way there reads
or writes outside a block. -/
theorem lexer_in_bounds {cmd : Str} (hnul : '\x00' ∉ cmd)
    (hcap : (tokenStarts cmd).length ≤ capacity) :
    (∃ i, Reaches (lexStep (cmd ++ ['\x00'])) LexState.start
      ⟨.ret (if (lexer cmd).isSome then 0 else -1), i, cmd.length,
        (lexTable 0 cmd).filterMap Slot.entry⟩) ∧
    ∀ s, Reaches (lexStep (cmd ++ ['\x00'])) LexState.start s →
      (lexStep (cmd ++ ['\x00']) s).isSome := by
  have hlen : (lexTable 0 cmd).length = (tokenStarts cmd).length := by
    have := congrArg List.length (lexTable_indices 0 cmd)
    simpa using this
  have hret : ∃ i, LexRuns cmd .start ⟨.ret (if (lexer cmd).isSome then 0 else -1), i, cmd.length,
      (lexTable 0 cmd).filterMap Slot.entry⟩ := by
    have hends : Finishes cmd [] (lexTable 0 cmd) (.at cmd cmd .outer []) :=
      outer_at List.suffix_rfl (lexTable_eq_nil 0) (blanks_run cmd rfl List.suffix_rfl (by omega))
    rw [LexState.at, indexOf_self] at hends
    obtain ⟨i, hi⟩ := hends.head (strlen_run hnul 0 (Nat.zero_le _))
    rw [lexTable_tokens] at hi
    exact ⟨i, hi⟩
  refine ⟨hret, ?_⟩
  obtain ⟨i, hi⟩ := hret
  intro s hs
  exact isSome_of_returned hi rfl hs

/-- A `>` before a blank, and a quote that does not end. -/
theorem lexer_in_bounds_open :
    (∃ i, Reaches (lexStep "> \"\\b\x00".toList) LexState.start
      ⟨.ret (-1), i, 5, [⟨.special, [some '>', some '\x00', none, none, none, none]⟩]⟩) ∧
    ∀ s, Reaches (lexStep "> \"\\b\x00".toList) LexState.start s →
      (lexStep "> \"\\b\x00".toList s).isSome := by
  have hnul : '\x00' ∉ "> \"\\b".toList := by decide
  obtain ⟨⟨i, hi⟩, hall⟩ := lexer_in_bounds hnul (by decide)
  have hword : word ['"', '\\', 'b'] = none := by
    rw [word_dquote]
    rfl
  have hlex : lexer "> \"\\b".toList = none := by
    show lexLoop ['>', ' ', '"', '\\', 'b'] = none
    rw [lexLoop_gt (by decide), lexLoop_blank rfl, lexLoop_word rfl rfl, hword]
    rfl
  have htab : lexTable 0 "> \"\\b".toList = [⟨0, 6, some ⟨['>'], .special⟩⟩, ⟨1, 4, none⟩] := by
    show lexTable 0 ['>', ' ', '"', '\\', 'b'] = _
    simp only [lexTable, isBlank, isOp]
    simp only [Char.reduceEq, decide_false, decide_true, Bool.or_self, Bool.or_true, Bool.true_or,
      Bool.false_eq_true, if_false, if_true]
    split
    case h_1 => rfl
    case h_2 hs =>
      rw [hword] at hs
      cases hs
  rw [hlex, htab] at hi
  exact ⟨⟨i, hi⟩, hall⟩

end Cshell
