/-
`ext_in` and `ext_out` on the argument array.

The passes of `Redirect.lean` are lists.  In the source a pass goes over the
array of a command with two cursors: `i` reads, `count` writes what is kept
into the same array, behind `i` or at it, and a NULL closes what is left.

* `passLoop` — the loop on the array;
* `passLoop_scan` — it leaves what `scan` says, in place, also when it fails;
* `redirections_split` — what the two passes make of the arguments of a command
  whose operators all have their targets.
-/
import CshellXv6.Shell.Redirect

namespace Cshell

/-- The argument array; NULL is `none`. -/
abbrev Slots := List (Option Str)

/-- The string at `args[i]`. -/
def Slots.text (a : Slots) (i : ℕ) : Str := (a[i]?.join).getD []

/-- What a pass leaves: the array, `*args_index`, and the files, `none` for a return
of -1. -/
structure Pass (α : Type) where
  args : Slots
  argIndex : ℕ
  files : Option (List α)
  deriving DecidableEq, Repr

/-- The loop of a pass with its two cursors, `n` being `*args_index`.  Every turn
moves `i`, so `n` is fuel enough. -/
def passLoop {α : Type} (sel : Str → Option (Str → α)) (n : ℕ) :
    ℕ → ℕ → ℕ → List α → Slots → Pass α
  | 0, _, count, files, a => ⟨a.set count none, count, some files⟩
  | fuel + 1, i, count, files, a =>
    if i < n then
      match sel (a.text i) with
      | some f =>
        if i + 1 < n ∧ isRedir (a.text (i + 1)) = false then
          passLoop sel n fuel (i + 2) count (files ++ [f (a.text (i + 1))]) a
        else ⟨a, n, none⟩
      | none => passLoop sel n fuel (i + 1) (count + 1) files (a.set count (some (a.text i)))
    else ⟨a.set count none, count, some files⟩

/-- `ext_in(args, &arg_index, in)`. -/
def extInArray (a : Slots) (n : ℕ) : Pass Str := passLoop inOp n n 0 0 [] a

/-- `ext_out(args, &arg_index, out, append)`. -/
def extOutArray (a : Slots) (n : ℕ) : Pass (Str × Bool) := passLoop outOp n n 0 0 [] a

/-! ### The array and the list -/

/-- The arguments `old` with `new` written over their start. -/
def overwrite (old new : List Str) : List Str := new ++ old.drop new.length

/-- The array that holds the arguments `as`, with `junk` behind them. -/
def slots (as : List Str) (junk : Slots) : Slots := as.map some ++ junk

theorem text_slots {as : List Str} {a : Str} {i : ℕ} (h : as[i]? = some a) (junk : Slots) :
    (slots as junk).text i = a := by
  have hi : i < as.length := (List.getElem?_eq_some_iff.mp h).1
  rw [Slots.text, slots, List.getElem?_append_left (by simpa using hi), List.getElem?_map, h]
  rfl

/-- Behind the cursor that writes the arguments are as they were. -/
theorem getElem?_overwrite {old new : List Str} {i : ℕ} (h : new.length ≤ i) :
    (overwrite old new)[i]? = old[i]? := by
  rw [overwrite, List.getElem?_append_right h, List.getElem?_drop]
  congr 1
  omega

/-- Writing the next argument that is kept. -/
theorem set_overwrite {old new : List Str} {junk : Slots} (h : new.length < old.length) (a : Str) :
    (slots (overwrite old new) junk).set new.length (some a) =
      slots (overwrite old (new ++ [a])) junk := by
  obtain ⟨x, hdrop⟩ : ∃ x, old.drop new.length = x :: old.drop (new.length + 1) :=
    ⟨old[new.length], List.drop_eq_getElem_cons h⟩
  have hset : ∀ r : Slots, (new.map some ++ r).set new.length (some a) =
      new.map some ++ r.set 0 (some a) := by
    intro r
    rw [List.set_append_right _ _ (by simp)]
    simp
  rw [slots, slots, overwrite, overwrite, hdrop, List.map_append, List.append_assoc, hset]
  simp

/-- **The loop on the array does what `scan` does**: from the arguments at `i` on it
keeps the same ones and takes the same files out, and where `scan` fails it
leaves what it kept written over the old arguments. -/
theorem passLoop_scan {α : Type} (sel : Str → Option (Str → α)) (old : List Str) (junk : Slots)
    {fuel i : ℕ} {new : List Str} (files : List α) (hf : old.length ≤ i + fuel)
    (hi : new.length ≤ i) (hn : i ≤ old.length) :
    let x := scan sel (old.drop i)
    passLoop sel old.length fuel i new.length files (slots (overwrite old new) junk) =
      match x.files with
      | some fs => ⟨(slots (overwrite old (new ++ x.args)) junk).set (new ++ x.args).length none,
          (new ++ x.args).length, some (files ++ fs)⟩
      | none => ⟨slots (overwrite old (new ++ x.args)) junk, old.length, none⟩ := by
  induction fuel generalizing i new files with
  | zero =>
    have hdrop : old.drop i = [] := List.drop_eq_nil_of_le (by omega)
    simp [passLoop, hdrop, scan]
  | succ fuel ih =>
    by_cases hlt : i < old.length
    · have ha : old[i]? = some old[i] := List.getElem?_eq_getElem hlt
      have htext : (slots (overwrite old new) junk).text i = old[i] :=
        text_slots (by rw [getElem?_overwrite hi, ha]) junk
      have hdrop : old.drop i = old[i] :: old.drop (i + 1) := List.drop_eq_getElem_cons hlt
      rw [passLoop, if_pos hlt, htext, hdrop]
      cases hs : sel old[i] with
      | none =>
        -- the argument is kept
        have hstep := @ih (i + 1) (new ++ [old[i]]) files (by omega) (by simp; omega)
          (by omega)
        simp only [scan, hs]
        rw [set_overwrite (by omega)]
        simpa using hstep
      | some f =>
        by_cases hlt' : i + 1 < old.length
        · have ha' : old[i + 1]? = some old[i + 1] := List.getElem?_eq_getElem hlt'
          have htext' : (slots (overwrite old new) junk).text (i + 1) = old[i + 1] :=
            text_slots (by rw [getElem?_overwrite (by omega), ha']) junk
          have hdrop' : old.drop (i + 1) = old[i + 1] :: old.drop (i + 2) :=
            List.drop_eq_getElem_cons hlt'
          simp only [htext', hdrop', scan, hs]
          cases ht : isRedir old[i + 1] with
          | true => simp
          | false =>
            -- the operator and its target go
            have hstep := @ih (i + 2) new (files ++ [f old[i + 1]]) (by omega)
              (by omega) (by omega)
            simp only [hlt', and_self, if_true, Bool.false_eq_true, if_false]
            rw [hstep]
            cases hx : (scan sel (old.drop (i + 2))).files with
            | none => simp
            | some fs => simp
        · have hdrop' : old.drop (i + 1) = [] := List.drop_eq_nil_of_le (by omega)
          simp [hlt', hdrop', scan, hs]
    · have hdrop : old.drop i = [] := List.drop_eq_nil_of_le (by omega)
      rw [passLoop, if_neg hlt]
      simp [hdrop, scan]

/-- A pass that succeeds: the arguments it keeps and a NULL, in an array of the same
size. -/
theorem passLoop_some {α : Type} {sel : Str → Option (Str → α)} {old : List Str} {fs : List α}
    (h : (scan sel old).files = some fs) (junk : Slots) (hj : junk ≠ []) :
    ∃ rest, passLoop sel old.length old.length 0 0 [] (slots old junk) =
      ⟨slots (scan sel old).args (none :: rest), (scan sel old).args.length, some fs⟩ := by
  have hloop := @passLoop_scan α sel old junk old.length 0 [] [] (by omega) (by simp) (by omega)
  simp only [List.drop_zero, List.nil_append, h, List.length_nil] at hloop
  rw [show overwrite old [] = old from rfl] at hloop
  generalize (scan sel old).args = kept at hloop ⊢
  -- the NULL goes on the next old argument, or on what is behind the last one
  obtain ⟨y, ys, hy⟩ := List.exists_cons_of_ne_nil
    (show (old.drop kept.length).map some ++ junk ≠ [] by simp [hj])
  refine ⟨ys, ?_⟩
  rw [hloop, slots, slots, overwrite, List.map_append, List.append_assoc, hy,
    List.set_append_right _ _ (by simp)]
  simp

/-! ### Operators with their targets -/

/-- Every operator is followed by a string that is none. -/
def Paired (args : List Str) : Prop :=
  ∀ i a, args[i]? = some a → isRedir a = true → ∃ t, args[i + 1]? = some t ∧ isRedir t = false

/-- The strings with the one before. -/
def withPrev : Option Str → List Str → List (Option Str × Str)
  | _, [] => []
  | p, a :: as => (p, a) :: withPrev (some a) as

/-- A string that is neither an operator nor a target. -/
def pickPlain (x : Option Str × Str) : Option Str :=
  if isRedir x.2 || x.1.any isRedir then none else some x.2

/-- A target of `<`. -/
def pickIn (x : Option Str × Str) : Option Str := if x.1 = some ['<'] then some x.2 else none

/-- A target of `>` or `>>`, with the flag for `>>`. -/
def pickOut (x : Option Str × Str) : Option (Str × Bool) :=
  if x.1 = some ['>'] then some (x.2, false)
  else if x.1 = some ['>', '>'] then some (x.2, true) else none

def plainArgs (args : List Str) : List Str := (withPrev none args).filterMap pickPlain

def inTargets (args : List Str) : List Str := (withPrev none args).filterMap pickIn

def outTargets (args : List Str) : List (Str × Bool) := (withPrev none args).filterMap pickOut

theorem Paired.tail {a : Str} {as : List Str} (h : Paired (a :: as)) : Paired as :=
  fun i b hb => h (i + 1) b hb

theorem Paired.word {a : Str} {as : List Str} (ha : isRedir a = false) (h : Paired as) :
    Paired (a :: as) := by
  intro i b hb hr
  cases i with
  | zero =>
    cases hb
    rw [ha] at hr
    cases hr
  | succ i => exact h i b hb hr

theorem Paired.redir {r t : Str} {ts : List Str} (ht : isRedir t = false) (h : Paired ts) :
    Paired (r :: t :: ts) := by
  intro i b hb hr
  cases i with
  | zero => exact ⟨t, rfl, ht⟩
  | succ i => exact h.word ht i b hb hr

/-- Induction over arguments: a string, or an operator with its target, in front. -/
theorem Paired.induction {P : List Str → Prop} {args : List Str} (h : Paired args) (nil : P [])
    (word : ∀ a as, isRedir a = false → P as → P (a :: as))
    (redir : ∀ r t ts, isRedir r = true → isRedir t = false → P ts → P (r :: t :: ts)) : P args := by
  match args with
  | [] => exact nil
  | a :: as =>
    cases ha : isRedir a with
    | false => exact word a as ha (Paired.induction h.tail nil word redir)
    | true =>
      obtain ⟨t, ht, hr⟩ := h 0 a rfl ha
      cases as with
      | nil => cases ht
      | cons b ts =>
        cases ht
        exact redir a t ts ha hr (Paired.induction h.tail.tail nil word redir)

/-- What stands before the first string does not matter unless it is an operator. -/
theorem filterMap_withPrev {β : Type} {f : Option Str × Str → Option β} {p : Str}
    (h : ∀ a, f (some p, a) = f (none, a)) (args : List Str) :
    (withPrev (some p) args).filterMap f = (withPrev none args).filterMap f := by
  cases args with
  | nil => rfl
  | cons a as => rw [withPrev, withPrev, List.filterMap_cons, List.filterMap_cons, h]

section Pick

variable {p : Str} (hp : isRedir p = false)
include hp

theorem pickPlain_some (a : Str) : pickPlain (some p, a) = pickPlain (none, a) := by
  simp [pickPlain, hp]

theorem pickIn_some (a : Str) : pickIn (some p, a) = pickIn (none, a) := by
  have hlt : p ≠ ['<'] := by
    rintro rfl
    cases hp
  simp [pickIn, hlt]

theorem pickOut_some (a : Str) : pickOut (some p, a) = pickOut (none, a) := by
  have hgt : p ≠ ['>'] := by
    rintro rfl
    cases hp
  have hgtgt : p ≠ ['>', '>'] := by
    rintro rfl
    cases hp
  simp [pickOut, hgt, hgtgt]

end Pick

/-! The lists of a string, and of an operator with its target, in front. -/

theorem filterMap_word {β : Type} {f : Option Str × Str → Option β} {a : Str}
    (h : ∀ b, f (some a, b) = f (none, b)) (as : List Str) :
    (withPrev none (a :: as)).filterMap f = (f (none, a)).toList ++ (withPrev none as).filterMap f := by
  rw [withPrev, List.filterMap_cons, filterMap_withPrev h]
  cases f (none, a) <;> rfl

theorem filterMap_redir {β : Type} {f : Option Str × Str → Option β} {r t : Str}
    (h : ∀ b, f (some t, b) = f (none, b)) (hr : f (none, r) = none) (ts : List Str) :
    (withPrev none (r :: t :: ts)).filterMap f =
      (f (some r, t)).toList ++ (withPrev none ts).filterMap f := by
  rw [withPrev, withPrev, List.filterMap_cons_none hr, List.filterMap_cons, filterMap_withPrev h]
  cases f (some r, t) <;> rfl

/-- The outcome of the two passes over arguments whose operators have their
targets. -/
structure Split (args : List Str) : Prop where
  ins : (scan inOp args).files = some (inTargets args)
  outs : (scan outOp (scan inOp args).args).files = some (outTargets args)
  args : (scan outOp (scan inOp args).args).args = plainArgs args

/-- Both passes keep an ordinary string. -/
theorem Split.word {a : Str} {as : List Str} (ha : isRedir a = false) (h : Split as) :
    Split (a :: as) := by
  have hin := scan_cons_kept (inOp_ordinary a ha) as
  have hout := scan_cons_kept (outOp_ordinary a ha) (scan inOp as).args
  refine ⟨?_, ?_, ?_⟩
  · rw [hin, h.ins, inTargets, inTargets, filterMap_word (pickIn_some ha)]
    rfl
  · rw [hin, hout, h.outs, outTargets, outTargets, filterMap_word (pickOut_some ha)]
    rfl
  · rw [hin, hout, h.args, plainArgs, plainArgs, filterMap_word (pickPlain_some ha)]
    simp [pickPlain, ha]

theorem plainArgs_redir {r t : Str} (hr : isRedir r = true) (ht : isRedir t = false)
    (ts : List Str) : plainArgs (r :: t :: ts) = plainArgs ts := by
  rw [plainArgs, filterMap_redir (pickPlain_some ht) (by simp [pickPlain, hr])]
  simp [pickPlain, hr, plainArgs]

/-- `ext_in` takes `<` and its target out. -/
theorem Split.lt {t : Str} {ts : List Str} (ht : isRedir t = false) (h : Split ts) :
    Split (['<'] :: t :: ts) := by
  have hin : scan inOp (['<'] :: t :: ts) =
      ⟨(scan inOp ts).args, (scan inOp ts).files.map (t :: ·)⟩ := scan_cons_target (f := id) rfl ht ts
  refine ⟨?_, ?_, ?_⟩
  · rw [hin, h.ins, inTargets, inTargets, filterMap_redir (pickIn_some ht) rfl]
    rfl
  · rw [hin, h.outs, outTargets, outTargets, filterMap_redir (pickOut_some ht) rfl]
    rfl
  · rw [hin, h.args, plainArgs_redir rfl ht]

/-- `ext_in` keeps an operator of `ext_out` and its target, and `ext_out` takes them
out. -/
theorem Split.gt {r t : Str} {ts : List Str} {append : Bool} (hin : inOp r = none)
    (hout : outOp r = some (·, append)) (hpick : ∀ b, pickIn (some r, b) = none)
    (hpick' : ∀ b, pickOut (some r, b) = some (b, append)) (hr : isRedir r = true)
    (ht : isRedir t = false) (h : Split ts) : Split (r :: t :: ts) := by
  have hscan : scan inOp (r :: t :: ts) = ⟨r :: t :: (scan inOp ts).args, (scan inOp ts).files⟩ := by
    rw [scan_cons_kept hin, scan_cons_kept (inOp_ordinary t ht)]
  have hscan' : scan outOp (r :: t :: (scan inOp ts).args) =
      ⟨(scan outOp (scan inOp ts).args).args,
        (scan outOp (scan inOp ts).args).files.map ((t, append) :: ·)⟩ :=
    scan_cons_target hout ht _
  refine ⟨?_, ?_, ?_⟩
  · rw [hscan, h.ins, inTargets, inTargets, filterMap_redir (pickIn_some ht) rfl, hpick]
    rfl
  · rw [hscan, hscan', h.outs, outTargets, outTargets, filterMap_redir (pickOut_some ht) rfl, hpick']
    rfl
  · rw [hscan, hscan', h.args, plainArgs_redir hr ht]

theorem Paired.split {args : List Str} (h : Paired args) : Split args := by
  refine Paired.induction (P := Split) h ⟨rfl, rfl, rfl⟩ ?_ ?_
  · intro a as ha ih
    exact ih.word ha
  · intro r t ts hr ht ih
    rcases isRedir_cases hr with rfl | rfl | rfl
    · exact ih.lt ht
    · exact Split.gt rfl rfl (fun _ => rfl) (fun _ => rfl) rfl ht ih
    · exact Split.gt rfl rfl (fun _ => rfl) (fun _ => rfl) rfl ht ih

/-- **What the two passes make of a command**: for arguments in which every operator
is followed by its target, in an array with room for a NULL, both passes succeed.
The array then holds the strings that are neither operators nor targets, in
their order, and a NULL; `arg_index` is their number, and the files are the
targets of `<`, and of `>` and `>>` with their flags, in their order. -/
theorem redirections_split {args : List Str} {junk : Slots} (h : Paired args)
    (hlen : args.length < 100) (hsize : (slots args junk).length = 100) :
    let r := extInArray (slots args junk) args.length
    let s := extOutArray r.args r.argIndex
    r.files = some (inTargets args) ∧ s.files = some (outTargets args) ∧
      s.argIndex = (plainArgs args).length ∧
      s.args.take s.argIndex = (plainArgs args).map some ∧ s.args[s.argIndex]? = some none := by
  have hj : junk ≠ [] := by
    rintro rfl
    simp only [slots, List.append_nil, List.length_map] at hsize
    omega
  obtain ⟨hin, hout, hargs⟩ := h.split
  obtain ⟨rest, hr⟩ := passLoop_some hin junk hj
  obtain ⟨rest', hs⟩ := passLoop_some hout (none :: rest) (by simp)
  intro r s
  have hr' : r = ⟨slots (scan inOp args).args (none :: rest), (scan inOp args).args.length,
      some (inTargets args)⟩ := hr
  have hs' : s = ⟨slots (plainArgs args) (none :: rest'), (plainArgs args).length,
      some (outTargets args)⟩ := by
    rw [← hargs, ← hs]
    show extOutArray r.args r.argIndex = _
    rw [hr']
    rfl
  rw [hr', hs']
  simp [slots]

/-- `cat < a b >> c > d`. -/
theorem redirections_split_cat :
    let args := ["cat".toList, ['<'], ['a'], ['b'], ['>', '>'], ['c'], ['>'], ['d']]
    let r := extInArray (slots args (List.replicate 92 none)) 8
    let s := extOutArray r.args r.argIndex
    r.files = some [['a']] ∧ s.files = some [(['c'], true), (['d'], false)] ∧
      s.args.take s.argIndex = [some "cat".toList, some ['b']] := by
  have hp : Paired ["cat".toList, ['<'], ['a'], ['b'], ['>', '>'], ['c'], ['>'], ['d']] := by
    refine .word rfl (.redir rfl (.word rfl (.redir rfl (.redir rfl ?_))))
    intro i a h
    cases h
  obtain ⟨hin, hout, -, hargs, -⟩ := @redirections_split _ (List.replicate 92 none) hp (by decide)
    (by decide)
  exact ⟨hin, hout, hargs⟩

end Cshell
