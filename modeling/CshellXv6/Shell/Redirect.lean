/-
Redirections: `ext_in` and `ext_out` of `c-shell/src/command.c`.

Each pass takes its operators and their targets out of the argument array, in
place, and fails on an operator that is last or has another operator after it.
A failed pass leaves the array half rewritten: what it kept so far stands in
front, the rest is as it was, and `arg_index` is not updated.

The two passes compare texts, so a quoted `"<"` is an operator to them, and
the second pass sees what the first one left.

* `extIn`, `extOut` — the two passes;
* `Passes` — a command gets through both.
-/
import CshellXv6.Shell.Parser

namespace Cshell

/-- The texts the two passes do not take as a target. -/
def isRedir (a : Str) : Bool := a = ['<'] || a = ['>'] || a = ['>', '>']

theorem isRedir_cases {a : Str} (h : isRedir a = true) :
    a = ['<'] ∨ a = ['>'] ∨ a = ['>', '>'] := by
  simpa [isRedir, or_assoc] using h

/-- What a pass leaves: the arguments, and the files unless it failed. -/
structure Ext (α : Type) where
  args : List Str
  files : Option (List α)
  deriving DecidableEq, Repr

/-- The loop of a pass.  `sel a` is what operator `a` makes of its target, `none`
when `a` is not an operator of this pass. -/
def scan {α : Type} (sel : Str → Option (Str → α)) : List Str → Ext α
  | [] => ⟨[], some []⟩
  | a :: as =>
    match sel a with
    | some f =>
      match as with
      | [] => ⟨[], none⟩
      | t :: ts =>
        if isRedir t then ⟨[], none⟩
        else ⟨(scan sel ts).args, (scan sel ts).files.map (f t :: ·)⟩
    | none => ⟨a :: (scan sel as).args, (scan sel as).files⟩

section Scan

variable {α : Type} {sel : Str → Option (Str → α)}

theorem scan_cons_kept {a : Str} (h : sel a = none) (as : List Str) :
    scan sel (a :: as) = ⟨a :: (scan sel as).args, (scan sel as).files⟩ := by
  rw [scan.eq_def]
  simp only [h]

theorem scan_cons_last {a : Str} {f : Str → α} (h : sel a = some f) :
    scan sel [a] = ⟨[], none⟩ := by
  rw [scan.eq_def]
  simp only [h]

theorem scan_cons_redir {a t : Str} {f : Str → α} (h : sel a = some f) (ht : isRedir t = true)
    (ts : List Str) : scan sel (a :: t :: ts) = ⟨[], none⟩ := by
  rw [scan.eq_def]
  simp only [h, ht, if_true]

theorem scan_cons_target {a t : Str} {f : Str → α} (h : sel a = some f) (ht : isRedir t = false)
    (ts : List Str) : scan sel (a :: t :: ts) =
      ⟨(scan sel ts).args, (scan sel ts).files.map (f t :: ·)⟩ := by
  rw [scan.eq_def]
  simp only [h, ht, Bool.false_eq_true, if_false]

end Scan

/-- The array after the loop: on success what was kept, otherwise the kept
arguments written over the old ones. -/
def rewrite {α : Type} (old : List Str) (x : Ext α) : Ext α :=
  if x.files.isSome then x else ⟨x.args ++ old.drop x.args.length, none⟩

/-- The operator of `ext_in`. -/
def inOp (a : Str) : Option (Str → Str) := if a = ['<'] then some id else none

/-- `ext_in`: the input files. -/
def extIn (args : List Str) : Ext Str := rewrite args (scan inOp args)

/-- The operators of `ext_out`; each file gets its `append` flag. -/
def outOp (a : Str) : Option (Str → Str × Bool) :=
  if a = ['>'] then some (·, false) else if a = ['>', '>'] then some (·, true) else none

/-- `ext_out`: the output files. -/
def extOut (args : List Str) : Ext (Str × Bool) := rewrite args (scan outOp args)

/-! An ordinary string is no operator of either pass. -/

theorem inOp_ordinary (a : Str) (h : isRedir a = false) : inOp a = none := by
  refine if_neg ?_
  rintro rfl
  cases h

theorem outOp_ordinary (a : Str) (h : isRedir a = false) : outOp a = none := by
  have h₁ : a ≠ ['>'] := by
    rintro rfl
    cases h
  have h₂ : a ≠ ['>', '>'] := by
    rintro rfl
    cases h
  rw [outOp, if_neg h₁, if_neg h₂]

/-- A command gets through the two passes. -/
def Passes (args : List Str) : Prop :=
  (extIn args).files.isSome ∧ (extOut (extIn args).args).files.isSome

instance (args : List Str) : Decidable (Passes args) :=
  inferInstanceAs (Decidable (_ ∧ _))

/-! ### Home directories

The shell replaces a leading `~` by `home`, the directory it was started in. -/

/-- What `getcwd` gives: an absolute path. -/
abbrev Home := { h : Str // h.head? = some '/' }

/-- `str_replace(arg, "~", home)` for an argument that starts with `~`; its loop
runs once, as `home` does not start with `~`. -/
def expand (home : Home) (a : Str) : Str := if a.head? = some '~' then home.1 ++ a.tail else a

/-- An expanded argument starts with `/`, another one is as it was. -/
theorem expand_cases (home : Home) (a : Str) :
    expand home a = a ∨ a.head? = some '~' ∧ (expand home a).head? = some '/' := by
  unfold expand
  split
  · rename_i h
    obtain ⟨x, hx⟩ := home
    cases x with
    | nil => simp at hx
    | cons c cs => exact .inr ⟨h, by simpa using hx⟩
  · exact .inl rfl

/-- Expansion neither makes nor removes a text that starts with neither `~` nor
`/`. -/
theorem expand_eq_cons_iff (home : Home) {a cs : Str} {c : Char} (h₁ : c ≠ '~') (h₂ : c ≠ '/') :
    expand home a = c :: cs ↔ a = c :: cs := by
  rcases expand_cases home a with h | ⟨h, h'⟩
  · rw [h]
  · constructor
    · intro he
      rw [he] at h'
      exact absurd (Option.some_inj.mp h') h₂
    · rintro rfl
      exact absurd (Option.some_inj.mp h) h₁

theorem expand_lt (home : Home) (a : Str) : expand home a = ['<'] ↔ a = ['<'] :=
  expand_eq_cons_iff home (by decide) (by decide)

theorem expand_gt (home : Home) (a cs : Str) : expand home a = '>' :: cs ↔ a = '>' :: cs :=
  expand_eq_cons_iff home (by decide) (by decide)

theorem isRedir_expand (home : Home) (a : Str) : isRedir (expand home a) = isRedir a := by
  simp only [isRedir, expand_lt, expand_gt]

/-- A pass that treats an argument and its expansion alike goes through the
expanded arguments as through the raw ones. -/
theorem scan_expand {α : Type} (home : Home) (sel : Str → Option (Str → α))
    (hs : ∀ a, sel (expand home a) = sel a) (args : List Str) :
    (scan sel (args.map (expand home))).args = (scan sel args).args.map (expand home) ∧
    ((scan sel (args.map (expand home))).files.isSome = (scan sel args).files.isSome) := by
  fun_induction scan sel args with
  | case1 => simp [scan]
  | case2 a f h => simp [scan, hs, h]
  | case3 a f h t ts ht => simp [scan, hs, h, isRedir_expand, ht]
  | case4 a f h t ts ht ih =>
    simp only [List.map_cons, scan, hs, h, isRedir_expand, ht, Bool.false_eq_true, if_false]
    simpa using ih
  | case5 a as h ih =>
    simp only [List.map_cons, scan, hs, h]
    exact ⟨by rw [ih.1], ih.2⟩

theorem rewrite_isSome {α : Type} (old : List Str) (x : Ext α) :
    (rewrite old x).files.isSome = x.files.isSome := by
  unfold rewrite
  split
  · rfl
  · rename_i h
    simpa using h

theorem rewrite_expand {α : Type} (home : Home) (old : List Str) {x y : Ext α}
    (ha : x.args = y.args.map (expand home)) (hf : x.files.isSome = y.files.isSome) :
    (rewrite (old.map (expand home)) x).args = (rewrite old y).args.map (expand home) := by
  unfold rewrite
  rw [hf]
  split
  · exact ha
  · simp [ha, List.map_drop]

/-- Expanding `~` does not change whether a command gets through. -/
theorem passes_expand (home : Home) (args : List Str) :
    Passes (args.map (expand home)) ↔ Passes args := by
  have hin := scan_expand home inOp (fun a => by simp only [inOp, expand_lt]) args
  have hargs : (extIn (args.map (expand home))).args = (extIn args).args.map (expand home) :=
    rewrite_expand home args hin.1 hin.2
  have hout := scan_expand home outOp (fun a => by simp only [outOp, expand_gt])
    (extIn args).args
  unfold Passes
  rw [hargs, extIn, extIn, extOut, extOut, rewrite_isSome, rewrite_isSome, rewrite_isSome,
    rewrite_isSome, hin.2]
  exact and_congr_right fun _ => by rw [← extIn, hout.2]

end Cshell
