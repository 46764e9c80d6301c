/-
The accesses of `process_cmd` to the table of commands.

Here the loop of `process_cmd` works on the table `coms` with the index `i` of the
source.  Reading a command outside the table gives no command, and the program
returns `none` at once.  A branch other than that of `reveal` leaves `i` as it
is, so the command that the turn reads at its head is the one the branch works on.

Three places move `i`: the `for` loop itself, the scan over a pipeline, and the
option loop of `reveal`, which goes on to the next command after a `-` without a
previous directory.  Only the last two compare with the length, and what
follows the scan reads `coms[end]` without looking: the parser has never left a
`|` at the end of the line.

* `scanPipe`, `revealLoop` — the two loops, each with where it may leave `i`;
* `processAt` — the loop of `process_cmd`;
* `processAt_sim` — it does what `processLine` does on the rest of the line;
* `coms_in_range` — so it never reads outside the table.
-/
import CshellXv6.Shell.ParserNodes
import CshellXv6.Shell.ProcessFacts

namespace Cshell

/-- How a turn of the loop at `i` ends: `i` is only ever moved on. -/
inductive CtlAt (i : ℕ)
  | next (i' : ℕ) (h : i < i') (prev : Str)
  | brk
  | ret

/-- The `i++` of the loop after a branch that leaves `i` as it is. -/
def CtlAt.ofCtl (i : ℕ) : Ctl → CtlAt i
  | .next _ prev => .next (i + 1) (Nat.lt_succ_self i) prev
  | .brk => .brk
  | .ret => .ret

/-! ### Pipelines -/

/-- `while(i<len1 && coms[i]->piped) i++`. -/
def scanPipe (coms : List Node) (i : ℕ) : Option { e : ℕ // i ≤ e } :=
  if i < coms.length then
    match coms[i]? with
    | none => none
    | some n =>
      if n.piped then (scanPipe coms (i + 1)).map fun e => ⟨e.1, Nat.le_of_succ_le e.2⟩
      else some ⟨i, Nat.le_refl i⟩
  else some ⟨i, Nat.le_refl i⟩
termination_by coms.length - i

/-- The loop of `piped` that starts the stages, `x` being `start+k`. -/
def startStagesAt (home : Home) (prev : Str) (coms : List Node) (x : ℕ) : ℕ → Shell (Option Unit)
  | 0 => return some ()
  | m + 1 =>
    match coms[x]? with
    | none => return none
    | some n => do
      let i := extIn (n.args.map (expand home))
      report i.files.isSome
      let o := extOut i.args
      report o.files.isSome
      match ← fork with
      | .child =>
        stageChild (expand home n.cmd) o.args i.files o.files prev
        return some ()
      | _ => startStagesAt home prev coms (x + 1) m

/-- `piped(coms, start, end, home, prev, back)`.  `stages` are the commands whose `~`
have been expanded before the call; the names in the job are theirs. -/
def pipedAt (home : Home) (prev : Str) (coms stages : List Node) (start stop : ℕ) (back : Bool) :
    Shell (Option Unit) := do
  if ← makePipes (stop - start) then
    match ← startStagesAt home prev coms start (stop - start + 1) with
    | none => return none
    | some _ =>
      match coms[start]? with
      | none => return none
      | some n =>
        let name := expand home n.cmd
        if back then
          event (.assignBg name)
          return some ()
        else if ← waitStages stages then
          event (.assignStopped name)
          return some ()
        else return some ()
  else
    print "cshell: pipe not made".toList
    return some ()

/-- A turn of the loop that finds a pipeline. -/
def pipelineAt (home : Home) (coms : List Node) (i : ℕ) (prev : Str) : Shell (Option (CtlAt i)) := do
  event (.dispatch (coms.drop i) prev)
  match scanPipe coms i with
  | none => return none
  | some e =>
    -- the expansion of `~` in every stage, and `coms[end]->background`
    match (List.range' i (e - i + 1)).mapM (fun k => coms[k]?), coms[e.1]? with
    | some stages, some last =>
      match ← pipedAt home prev coms stages i e last.background with
      | none => return none
      | some _ => return some (.next (e + 1) (Nat.lt_succ_of_le e.2) prev)
    | _, _ => return none

/-! ### The option loop of `reveal` -/

/-- Where the option loop ends: `i` and `j`, whether it met a `-` without a previous
directory, and the arguments of all commands. -/
structure RevealEnd (i : ℕ) where
  pos : ℕ
  le : i ≤ pos
  j : ℕ
  preverr : Bool
  args : List (List Str)

def RevealEnd.weaken {i : ℕ} (r : RevealEnd (i + 1)) : RevealEnd i :=
  ⟨r.pos, Nat.le_of_succ_le r.le, r.j, r.preverr, r.args⟩

/-- The option loop of `reveal` on the arguments of the commands. -/
def revealLoop (args : List (List Str)) (prev : Str) (i j : ℕ) (preverr : Bool) :
    Shell (Option (RevealEnd i)) :=
  match _h : args[i]? with
  | none => return none
  | some as =>
    match _hj : as[j]? with
    | none => return some ⟨i, Nat.le_refl i, j, preverr, args⟩
    | some a =>
      if isDash a then
        if a = ['-'] then
          if prev = [] then do
            print "reveal: no such directory\n".toList
            if i + 1 = args.length then return some ⟨i + 1, Nat.le_succ i, j, true, args⟩
            else
              let r ← revealLoop args prev (i + 1) j true
              return r.map RevealEnd.weaken
          else return some ⟨i, Nat.le_refl i, j + 1, preverr, args.set i (as.set j prev)⟩
        else revealLoop args prev i (j + 1) preverr
      else return some ⟨i, Nat.le_refl i, j, preverr, args⟩
termination_by (args.length - i, (args[i]?.getD []).length - j)
decreasing_by
  · obtain ⟨hi, -⟩ := List.getElem?_eq_some_iff.mp _h
    exact .left _ _ (by omega)
  · obtain ⟨hj, -⟩ := List.getElem?_eq_some_iff.mp _hj
    rw [_h, Option.getD_some]
    exact .right _ (by omega)

/-- `inBackground`, by index. -/
def inBackgroundAt (i : ℕ) (j : Job) (prev : Str) (k : Bool → Shell (Option (CtlAt i))) :
    Shell (Option (CtlAt i)) := do
  if j.background then
    match ← fork with
    | .child => k true
    | .parent =>
      event (.assignBg j.cmd)
      return some (.next (i + 1) (Nat.lt_succ_self i) prev)
    | .failed =>
      print "cshell: failed to create child process\n".toList
      event (.own j.line prev)
      k false
  else
    event (.own j.line prev)
    k false

/-- The branch of `reveal` after its option loop, which ended at `k`. -/
def runReveal {α : Type} (j : Job) (child : Bool) (as : List Str) (k : ℕ) (next : α) : Shell α := do
  if k + 1 < as.length then
    print "reveal: invalid syntax\n".toList
    endChild child
    return next
  else if j.needRedir then
    redirected j (call j.cmd as) 1
    return next
  else
    call j.cmd as
    endChild child
    return next

/-- The branch of `reveal`; `args` are the arguments of all commands. -/
def revealBranchAt (args : List (List Str)) (i : ℕ) (j : Job) (prev : Str) : Shell (Option (CtlAt i)) :=
  inBackgroundAt i j prev fun child => do
    match args[i]? with
    | none => return none
    | some as =>
      if as.length < 2 then
        runBuiltin j (call j.cmd (as ++ [['.']])) 1
        endChild child
        return some (.next (i + 1) (Nat.lt_succ_self i) prev)
      else
        match ← revealLoop args prev i 1 false with
        | none => return none
        | some r =>
          let next : CtlAt i := .next (r.pos + 1) (Nat.lt_succ_of_le r.le) prev
          if r.preverr then
            endChild child
            return some next
          else
            match r.args[r.pos]? with
            | none => return none
            | some as => runReveal j child as r.j (some next)

/-! ### The loop -/

/-- A turn of the loop for a command that is not in a pipeline. -/
def singleAt (home : Home) (coms : List Node) (i : ℕ) (n : Node) (prev : Str) :
    Shell (Option (CtlAt i)) := do
  let next : CtlAt i := .next (i + 1) (Nat.lt_succ_self i) prev
  let x := extIn (n.args.map (expand home))
  match x.files with
  | none =>
    print invalidSyntax
    return some next
  | some ins =>
    let o := extOut x.args
    match o.files with
    | none =>
      print invalidSyntax
      if n.background || n.semi then return some .ret else return some next
    | some outs =>
      event (.dispatch (coms.drop i) prev)
      let j : Job := ⟨coms.drop i, coms.drop (i + 1), expand home n.cmd, o.args, ins, outs, n.background⟩
      if j.cmd = "reveal".toList then revealBranchAt ((coms.map Node.args).set i o.args) i j prev
      else
        let c ← command j prev
        return some (.ofCtl i c)

/-- A turn of the loop. -/
def turnAt (home : Home) (coms : List Node) (i : ℕ) (prev : Str) : Shell (Option (CtlAt i)) :=
  match coms[i]? with
  | none => return none
  | some n => if n.piped then pipelineAt home coms i prev else singleAt home coms i n prev

/-- The loop of `process_cmd` from `i` on. -/
def processAt (home : Home) (coms : List Node) (i : ℕ) (prev : Str) : Shell (Option Str) := do
  if i < coms.length then
    match ← turnAt home coms i prev with
    | none => return none
    | some (.next i' _h prev') => processAt home coms i' prev'
    | some .brk =>
      event .noLongerWaiting
      return some prev
    | some .ret => return some prev
  else
    event .noLongerWaiting
    return some prev
termination_by coms.length - i

/-! ### Pipelines, by index and by the rest of the line -/

section Pipelines

variable {coms : List Node}

/-- **The scan ends inside the table** when the last command is not piped: the group
goes from `i` to its end, and the rest of the line follows. -/
theorem scanPipe_spec (hlast : ∀ n, coms.getLast? = some n → n.piped = false) {i : ℕ}
    (hi : i < coms.length) :
    ∃ e, scanPipe coms i = some e ∧ e.1 < coms.length ∧
      takeGroup (coms.drop i) = (coms.drop i).take (e.1 - i + 1) ∧
      dropGroup (coms.drop i) = coms.drop (e.1 + 1) ∧ (coms[i].piped = true → i < e.1) := by
  induction hm : coms.length - i generalizing i with
  | zero => omega
  | succ m ih =>
    have hget : coms[i]? = some coms[i] := List.getElem?_eq_getElem hi
    have hdrop : coms.drop i = coms[i] :: coms.drop (i + 1) := List.drop_eq_getElem_cons hi
    cases hp : coms[i].piped with
    | false =>
      refine ⟨⟨i, Nat.le_refl i⟩, ?_, hi, ?_, ?_, ?_⟩
      · rw [scanPipe, if_pos hi, hget]
        simp [hp]
      · rw [hdrop, takeGroup, hp, Nat.sub_self]
        rfl
      · rw [hdrop, dropGroup, hp]
        rfl
      · intro h
        cases h
    | true =>
      have hi' : i + 1 < coms.length := by
        by_contra hn
        have hend : coms.getLast? = some coms[i] := by
          rw [List.getLast?_eq_getElem?, show coms.length - 1 = i by omega, hget]
        rw [hlast _ hend] at hp
        cases hp
      obtain ⟨e, he, hlt, htake, hdropg, -⟩ := ih hi' (by omega)
      refine ⟨⟨e.1, Nat.le_of_succ_le e.2⟩, ?_, hlt, ?_, ?_, ?_⟩
      · rw [scanPipe, if_pos hi, hget]
        simp [hp, he]
      · have hle := e.2
        rw [hdrop, takeGroup, if_pos hp, htake, show e.1 - i + 1 = (e.1 - (i + 1) + 1) + 1 by omega,
          List.take_succ_cons]
      · rw [hdrop, dropGroup, if_pos hp, hdropg]
      · intro _
        exact e.2

theorem mapM_range' {i m : ℕ} (h : i + m ≤ coms.length) :
    (List.range' i m).mapM (fun k => coms[k]?) = some ((coms.drop i).take m) := by
  induction m generalizing i with
  | zero => simp
  | succ m ih =>
    have hi : i < coms.length := by omega
    rw [List.range'_succ, List.mapM_cons, ih (by omega), List.drop_eq_getElem_cons hi,
      List.getElem?_eq_getElem hi]
    rfl

variable (home : Home) (prev : Str)

theorem startStagesAt_sim {x m : ℕ} (h : x + m ≤ coms.length) :
    Proc.Sim some (fun a b => a = some b) (startStagesAt home prev coms x m)
      (startStages home prev ((coms.drop x).take m)) := by
  induction m generalizing x with
  | zero => exact .ret rfl
  | succ m ih =>
    have hx : x < coms.length := by omega
    rw [List.drop_eq_getElem_cons hx, List.take_succ_cons, startStagesAt, startStages,
      List.getElem?_eq_getElem hx]
    refine Proc.sim_bind fun _ => ?_
    refine Proc.sim_bind fun _ => ?_
    refine Proc.sim_bind fun a => ?_
    cases a with
    | failed => exact ih (by omega)
    | parent => exact ih (by omega)
    | child =>
      show Proc.Sim some _ (stageChild _ _ _ _ _ >>= fun _ => _) (stageChild _ _ _ _ _)
      rw [← Proc.bind_ret (stageChild _ _ _ _ _), Proc.bind_assoc]
      refine Proc.sim_bind fun a => ?_
      exact .ret rfl

theorem pipedAt_sim {i e : ℕ} (hie : i ≤ e) (he : e < coms.length) (back : Bool) :
    Proc.Sim some (fun a b => a = some b)
      (pipedAt home prev coms ((coms.drop i).take (e - i + 1)) i e back)
      (piped home prev ((coms.drop i).take (e - i + 1)) back) := by
  have hi : i < coms.length := by omega
  have hlen : ((coms.drop i).take (e - i + 1)).length - 1 = e - i := by
    rw [List.length_take, List.length_drop]
    omega
  have hhead : ((coms.drop i).take (e - i + 1)).head? = some coms[i] := by
    rw [List.drop_eq_getElem_cons hi]
    rfl
  rw [pipedAt, piped, hlen, hhead, List.getElem?_eq_getElem hi]
  refine Proc.sim_bind fun a => ?_
  cases a with
  | false => exact .emit rfl (.ret rfl)
  | true =>
    refine Proc.Sim.bind (startStagesAt_sim home prev (by omega)) ?_
    rintro a b rfl
    cases back with
    | true => exact .emit rfl (.ret rfl)
    | false =>
      refine Proc.sim_bind fun a => ?_
      cases a with
      | true => exact .emit rfl (.ret rfl)
      | false => exact .ret rfl

/-- What a turn by index says about the rest of the line. -/
def CtlAt.toCtl (coms : List Node) {i : ℕ} : CtlAt i → Ctl
  | .next i' _ prev => .next (coms.drop i') prev
  | .brk => .brk
  | .ret => .ret

/-- A turn by index that read no command outside the table, and the turn on the rest
of the line. -/
def TurnAgrees (coms : List Node) {i : ℕ} (c : Option (CtlAt i)) (d : Ctl) : Prop :=
  c.map (CtlAt.toCtl coms) = some d

theorem pipelineAt_sim (hlast : ∀ n, coms.getLast? = some n → n.piped = false) {i : ℕ}
    (hi : i < coms.length) (hp : coms[i].piped = true) :
    Proc.Sim some (TurnAgrees coms) (pipelineAt home coms i prev)
      (processGroup home prev (coms.drop i)) := by
  obtain ⟨e, he, hlt, htake, hdrop, -⟩ := scanPipe_spec hlast hi
  have hle := e.2
  have hend : ((coms.drop i).take (e.1 - i + 1)).getLast? = some coms[e.1] := by
    have hpos : i + (min (e.1 - i + 1) (coms.length - i) - 1) = e.1 := by omega
    rw [List.getLast?_eq_getElem?, List.length_take, List.length_drop, List.getElem?_take,
      List.getElem?_drop, if_pos (by omega), hpos, List.getElem?_eq_getElem hlt]
  have hstages : (List.range' i (e.1 - i + 1)).mapM (fun k => coms[k]?) =
      some ((coms.drop i).take (e.1 - i + 1)) := mapM_range' (by omega)
  have hcons : coms.drop i = coms[i] :: coms.drop (i + 1) := List.drop_eq_getElem_cons hi
  have hgroup : processGroup home prev (coms[i] :: coms.drop (i + 1)) = _ := processGroup_piped hp
  rw [← hcons, htake, hdrop, hend] at hgroup
  rw [hgroup, pipelineAt, he]
  refine .emit rfl ?_
  show Proc.Sim some _ (match (List.range' i (e.1 - i + 1)).mapM (fun k => coms[k]?), coms[e.1]? with
    | some stages, some last => _
    | _, _ => _) (piped home prev _ _ >>= fun _ => _)
  rw [hstages, List.getElem?_eq_getElem hlt]
  refine Proc.Sim.bind (pipedAt_sim home prev hle hlt _) ?_
  rintro a b rfl
  exact .ret rfl

end Pipelines

/-! ### The option loop of `reveal`, by index and by the rest of the line -/

section Reveal

variable {args : List (List Str)} {as : List Str} {i : ℕ}

theorem revealLoop_end (h : args[i]? = some as) {j : ℕ} (hj : as[j]? = none) (prev : Str)
    (err : Bool) :
    revealLoop args prev i j err = return some ⟨i, Nat.le_refl i, j, err, args⟩ := by
  rw [revealLoop]
  split
  case h_1 hn =>
    rw [h] at hn
    cases hn
  case h_2 as' hs =>
    rw [h] at hs
    cases hs
    split
    case h_1 => rfl
    case h_2 a ha =>
      rw [hj] at ha
      cases ha

theorem revealLoop_turn (h : args[i]? = some as) {j : ℕ} {a : Str} (hj : as[j]? = some a) (prev : Str)
    (err : Bool) :
    revealLoop args prev i j err =
      if isDash a then
        if a = ['-'] then
          if prev = [] then
            print "reveal: no such directory\n".toList >>= fun _ =>
              if i + 1 = args.length then return some ⟨i + 1, Nat.le_succ i, j, true, args⟩
              else revealLoop args prev (i + 1) j true >>= fun r => return r.map RevealEnd.weaken
          else return some ⟨i, Nat.le_refl i, j + 1, err, args.set i (as.set j prev)⟩
        else revealLoop args prev i (j + 1) err
      else return some ⟨i, Nat.le_refl i, j, err, args⟩ := by
  rw [revealLoop]
  split
  case h_1 hn =>
    rw [h] at hn
    cases hn
  case h_2 as' hs =>
    rw [h] at hs
    cases hs
    split
    case h_1 hn =>
      rw [hj] at hn
      cases hn
    case h_2 a' ha =>
      rw [hj] at ha
      cases ha
      rfl

/-- The turns of the loop inside one command: it skips the options and looks at the
`-` after them, if there is one. -/
theorem revealLoop_skip (h : args[i]? = some as) (j : ℕ) (prev : Str) (err : Bool) :
    revealLoop args prev i j err =
      if (skipOptions (as.drop j)).2 then
        if prev = [] then
          print "reveal: no such directory\n".toList >>= fun _ =>
            if i + 1 = args.length then
              return some ⟨i + 1, Nat.le_succ i, j + (skipOptions (as.drop j)).1, true, args⟩
            else revealLoop args prev (i + 1) (j + (skipOptions (as.drop j)).1) true >>= fun r =>
              return r.map RevealEnd.weaken
        else return some ⟨i, Nat.le_refl i, j + (skipOptions (as.drop j)).1 + 1, err,
          args.set i (as.set (j + (skipOptions (as.drop j)).1) prev)⟩
      else return some ⟨i, Nat.le_refl i, j + (skipOptions (as.drop j)).1, err, args⟩ := by
  induction hl : as.drop j generalizing j with
  | nil =>
    have hj : as[j]? = none := by
      rw [List.getElem?_eq_none_iff]
      exact List.drop_eq_nil_iff.mp hl
    rw [revealLoop_end h hj]
    rfl
  | cons a l ih =>
    have hj : as[j]? = some a := by
      have := congrArg (·[0]?) hl
      simpa using this
    have hl' : as.drop (j + 1) = l := by
      rw [← List.tail_drop, hl, List.tail_cons]
    rw [revealLoop_turn h hj]
    by_cases hd : isDash a = true
    · rw [if_pos hd]
      by_cases ha : a = ['-']
      · have hskip : skipOptions (a :: l) = (0, true) := by rw [skipOptions, if_pos hd, if_pos ha]
        rw [if_pos ha, hskip]
        rfl
      · have hskip : skipOptions (a :: l) = ((skipOptions l).1 + 1, (skipOptions l).2) := by
          rw [skipOptions, if_pos hd, if_neg ha]
        rw [if_neg ha, hskip, ih (j + 1) hl']
        simp only [Nat.add_assoc, Nat.add_comm 1]
    · have hskip : skipOptions (a :: l) = (0, false) := by rw [skipOptions, if_neg hd]
      rw [if_neg hd, hskip]
      rfl

/-- From a `-` without a previous directory on, the loop goes through the commands
that follow. -/
theorem revealLoop_noPrev {ns : List Node} {j : ℕ} (h : args[i]? = some as)
    (hns : args.drop (i + 1) = ns.map Node.args) (hdash : (skipOptions (as.drop j)).2 = true)
    (err : Bool) :
    Proc.Sim some (fun r rest => ∃ e : RevealEnd i, r = some e ∧ e.preverr = true ∧
        rest = ns.drop (e.pos - i))
      (revealLoop args [] i j err) (revealNoPrev (j + (skipOptions (as.drop j)).1) ns) := by
  obtain ⟨hi, -⟩ := List.getElem?_eq_some_iff.mp h
  rw [revealLoop_skip h, if_pos hdash, if_pos rfl]
  induction ns generalizing i j as err with
  | nil =>
    have hlen : i + 1 = args.length := by
      have := List.drop_eq_nil_iff.mp hns
      omega
    rw [if_pos hlen]
    refine .emit rfl (.ret ⟨_, rfl, rfl, ?_⟩)
    rw [List.drop_nil]
  | cons n ns ih =>
    have hn : args[i + 1]? = some n.args := by
      have := congrArg (·[0]?) hns
      simpa using this
    have hns' : args.drop (i + 1 + 1) = ns.map Node.args := by
      rw [← List.tail_drop, hns, List.map_cons, List.tail_cons]
    obtain ⟨hi', -⟩ := List.getElem?_eq_some_iff.mp hn
    rw [if_neg (by omega)]
    refine .emit rfl ?_
    show Proc.Sim some _ (revealLoop args [] (i + 1) _ true >>= fun r => _)
      (if _ then revealNoPrev _ ns else pure ns)
    rw [revealLoop_skip hn]
    generalize j + (skipOptions (as.drop j)).1 = j'
    by_cases hd : (skipOptions (n.args.drop j')).2 = true
    · rw [if_pos hd, if_pos hd, if_pos rfl, ← Proc.bind_ret (revealNoPrev _ ns)]
      refine Proc.Sim.bind (ih hn hns' hd true hi') ?_
      rintro _ rest ⟨e, rfl, herr, rfl⟩
      have hle := e.le
      refine .ret ⟨e.weaken, rfl, herr, ?_⟩
      rw [RevealEnd.weaken, show e.pos - i = (e.pos - (i + 1)) + 1 by omega, List.drop_succ_cons]
    · rw [if_neg hd, if_neg hd]
      refine .ret ⟨_, rfl, rfl, ?_⟩
      show ns = (n :: ns).drop (i + 1 - i)
      rw [Nat.add_sub_cancel_left]
      rfl

variable {coms : List Node} {j : Job}

theorem inBackgroundAt_sim (hafter : j.after = coms.drop (i + 1)) (prev : Str)
    {k : Bool → Shell (Option (CtlAt i))} {k' : Bool → Shell Ctl}
    (h : ∀ b, Proc.Sim some (TurnAgrees coms) (k b) (k' b)) :
    Proc.Sim some (TurnAgrees coms) (inBackgroundAt i j prev k) (inBackground j prev k') := by
  unfold inBackgroundAt inBackground
  refine Proc.Sim.ite (fun _ => ?_) fun _ => ?_
  · refine Proc.sim_bind fun a => ?_
    cases a with
    | child => exact h true
    | parent =>
      refine .emit rfl (.ret ?_)
      rw [hafter]
      rfl
    | failed => exact .emit rfl (.emit rfl (h false))
  · exact .emit rfl (h false)

/-- `endChild` before the end of a turn. -/
theorem endChild_sim {c : Option (CtlAt i)} {d : Ctl} (h : TurnAgrees coms c d) (child : Bool) :
    Proc.Sim some (TurnAgrees coms) (endChild child >>= fun _ => pure c)
      (endChild child >>= fun _ => pure d) :=
  Proc.sim_bind fun _ => .ret h

theorem runReveal_sim {c : Option (CtlAt i)} {d : Ctl} (h : TurnAgrees coms c d) (child : Bool)
    (as : List Str) (k : ℕ) :
    Proc.Sim some (TurnAgrees coms) (runReveal j child as k c) (runReveal j child as k d) := by
  refine Proc.Sim.ite (fun _ => ?_) fun _ => Proc.Sim.ite (fun _ => ?_) fun _ => ?_
  · exact .emit rfl (endChild_sim h child)
  · exact Proc.sim_bind fun _ => .ret h
  · exact .emit rfl (endChild_sim h child)

theorem revealBranchAt_sim (hi : i < coms.length) (hafter : j.after = coms.drop (i + 1))
    (prev : Str) :
    Proc.Sim some (TurnAgrees coms)
      (revealBranchAt ((coms.map Node.args).set i j.args) i j prev) (revealBranch j prev) := by
  have hget : ∀ as, ((coms.map Node.args).set i as)[i]? = some as := by
    intro as
    simp [hi]
  have hrest : ((coms.map Node.args).set i j.args).drop (i + 1) = j.after.map Node.args := by
    rw [List.drop_set_of_lt (Nat.lt_succ_self i), hafter, List.map_drop]
  have hnext : ∀ h, TurnAgrees coms (some (CtlAt.next (i + 1) h prev : CtlAt i))
      (.next j.after prev) := by
    intro h
    rw [hafter]
    rfl
  refine inBackgroundAt_sim hafter prev fun child => ?_
  rw [hget]
  refine Proc.Sim.ite (fun _ => ?_) fun _ => ?_
  · exact Proc.sim_bind fun _ => endChild_sim (hnext _) child
  · by_cases hdash : (skipOptions (j.args.drop 1)).2 = true
    · by_cases hprev : prev = []
      · have hopt : revealOptions j.args prev = none := by
          rw [revealOptions, ← List.drop_one, if_pos hdash, if_pos hprev]
        rw [hopt, ← List.drop_one]
        subst hprev
        refine Proc.Sim.bind (revealLoop_noPrev (hget _) hrest hdash false) ?_
        rintro _ rest ⟨e, rfl, herr, rfl⟩
        have hle := e.le
        have hend : TurnAgrees coms
            (some (CtlAt.next (e.pos + 1) (Nat.lt_succ_of_le e.le) [] : CtlAt i))
            (.next (j.after.drop (e.pos - i)) []) := by
          rw [hafter, List.drop_drop, show i + 1 + (e.pos - i) = e.pos + 1 by omega]
          rfl
        show Proc.Sim some _ (if e.preverr = true then _ else _) _
        rw [if_pos herr]
        exact endChild_sim hend child
      · have hopt : revealOptions j.args prev =
            some (j.args.set (1 + (skipOptions (j.args.drop 1)).1) prev,
              1 + (skipOptions (j.args.drop 1)).1 + 1) := by
          rw [revealOptions, ← List.drop_one, if_pos hdash, if_neg hprev]
        rw [hopt, revealLoop_skip (hget _), if_pos hdash, if_neg hprev, List.set_set]
        show Proc.Sim some _ (match ((coms.map Node.args).set i _)[i]? with
          | none => _
          | some as => _) _
        rw [hget]
        exact runReveal_sim (hnext _) child _ _
    · have hopt : revealOptions j.args prev = some (j.args, 1 + (skipOptions (j.args.drop 1)).1) := by
        rw [revealOptions, ← List.drop_one, if_neg hdash]
      rw [hopt, revealLoop_skip (hget _), if_neg hdash]
      show Proc.Sim some _ (match ((coms.map Node.args).set i _)[i]? with
        | none => _
        | some as => _) _
      rw [hget]
      exact runReveal_sim (hnext _) child _ _

end Reveal

/-! ### The other branches -/

section Branches

variable {j : Job}

/-- A turn that leaves `i` as it is. -/
def Stays (j : Job) (c : Ctl) : Prop := ∀ rest prev, c = .next rest prev → rest = j.after

theorem Stays.next (prev : Str) : Stays j (.next j.after prev) := by
  rintro rest prev' h
  cases h
  rfl

theorem Stays.brk : Stays j .brk := by
  rintro rest prev h
  cases h

theorem Stays.ret : Stays j .ret := by
  rintro rest prev h
  cases h

/-- The shell goes on behind the command, or it does what the branch does. -/
theorem inBackground_returns {P : Ctl → Prop} {prev : Str} {k : Bool → Shell Ctl}
    (hnext : P (.next j.after prev)) (h : ∀ b, (k b).Returns P) :
    (inBackground j prev k).Returns P := by
  refine Proc.Returns.ite ?_ ?_
  · refine Proc.returns_bind fun a => ?_
    cases a with
    | child => exact h true
    | parent => exact hnext
    | failed => exact h false
  · exact h false

theorem inBackground_stays (prev : Str) {k : Bool → Shell Ctl} (h : ∀ b, (k b).Returns (Stays j)) :
    (inBackground j prev k).Returns (Stays j) := inBackground_returns (Stays.next prev) h

theorem builtinBranch_stays (prev : Str) (child : Bool) (body : Shell Unit) (code : ℕ) :
    (builtinBranch j prev child body code).Returns (Stays j) :=
  Proc.returns_bind fun _ =>
    Proc.returns_bind fun _ => Stays.next prev

theorem hopBranch_stays (prev : Str) : (hopBranch j prev).Returns (Stays j) := by
  refine inBackground_stays prev fun child => Proc.Returns.ite ?_ ?_
  · exact Proc.returns_bind fun _ =>
      Proc.returns_bind fun _ => Stays.next prev
  · exact Proc.returns_bind fun p =>
      Proc.returns_bind fun _ => Stays.next p

theorem peekBranch_stays (prev : Str) : (peekBranch j prev).Returns (Stays j) := by
  refine inBackground_stays prev fun child => Proc.Returns.ite ?_ (Proc.Returns.ite ?_ ?_)
  · exact Proc.returns_bind fun _ =>
      Proc.returns_bind fun _ => Stays.ret
  · exact Proc.returns_bind fun _ => Stays.next prev
  · exact Proc.returns_bind fun _ =>
      Proc.returns_bind fun _ => Stays.next prev

theorem locateBranch_stays (prev : Str) : (locateBranch j prev).Returns (Stays j) := by
  refine inBackground_stays prev fun child => Proc.Returns.ite ?_ (builtinBranch_stays prev child _ 1)
  exact Proc.returns_bind fun _ =>
    Proc.returns_bind fun _ => Stays.next prev

theorem resumeBranch_stays (prev : Str) : (resumeBranch j prev).Returns (Stays j) := by
  refine Proc.returns_bind fun a => Proc.Returns.ite ?_ (Stays.next prev)
  refine Proc.returns_bind fun b => Proc.Returns.ite ?_ (Stays.next prev)
  exact Proc.returns_bind fun _ => Stays.next prev

theorem snoopBranch_stays (prev : Str) : (snoopBranch j prev).Returns (Stays j) := by
  refine Proc.Returns.ite ?_ (Proc.returns_bind fun a => ?_)
  · exact Proc.returns_bind fun _ => Stays.next prev
  · have hwait : (waitFor j.cmd >>= fun _ => return Ctl.next j.after prev).Returns (Stays j) :=
      Proc.returns_bind fun _ => Stays.next prev
    cases a with
    | failed => exact hwait
    | parent => exact hwait
    | child =>
      refine Proc.returns_bind fun _ => ?_
      exact Proc.returns_bind fun _ => trivial

theorem externalBranch_stays (prev : Str) : (externalBranch j prev).Returns (Stays j) := by
  refine inBackground_stays prev fun child => ?_
  refine Proc.returns_bind fun found => Proc.Returns.ite ?_ ?_
  · exact Proc.returns_bind fun _ => runCmd_returns _ _ _
  · refine Proc.returns_bind fun a => ?_
    have hwait : (waitFor j.cmd >>= fun st => event (.waited j.line found st) >>= fun _ =>
        if st = .exited 8 then return Ctl.brk else return .next j.after prev).Returns (Stays j) :=
      Proc.returns_bind fun _ => Proc.Returns.ite Stays.brk (Stays.next prev)
    cases a with
    | failed => exact hwait
    | parent => exact hwait
    | child => exact Proc.returns_bind fun _ => runCmd_returns _ _ _

/-- Only `reveal` moves `i` itself. -/
theorem command_stays (prev : Str) (h : j.cmd ≠ "reveal".toList) :
    (command j prev).Returns (Stays j) := by
  unfold command
  rw [if_neg h]
  refine Proc.Returns.ite (hopBranch_stays prev) ?_
  refine Proc.Returns.ite (peekBranch_stays prev) ?_
  refine Proc.Returns.ite (locateBranch_stays prev) ?_
  refine Proc.Returns.ite (inBackground_stays prev fun b => builtinBranch_stays prev b _ _) ?_
  refine Proc.Returns.ite (resumeBranch_stays prev) ?_
  refine Proc.Returns.ite (inBackground_stays prev fun b => builtinBranch_stays prev b _ _) ?_
  refine Proc.Returns.ite (inBackground_stays prev fun b => builtinBranch_stays prev b _ _) ?_
  exact Proc.Returns.ite (snoopBranch_stays prev) (externalBranch_stays prev)

end Branches

/-! ### The loop, by index and by the rest of the line -/

section Loop

variable {coms : List Node} {i : ℕ} (home : Home) (prev : Str)

theorem command_reveal {j : Job} (h : j.cmd = "reveal".toList) :
    command j prev = revealBranch j prev := by
  have hhop : j.cmd ≠ "hop".toList := by
    rw [h]
    decide
  rw [command, if_neg hhop, if_pos h]

/-- The branch that the command chooses. -/
theorem branchAt_sim {j : Job} (hi : i < coms.length) (hafter : j.after = coms.drop (i + 1)) :
    Proc.Sim some (TurnAgrees coms)
      (if j.cmd = "reveal".toList then revealBranchAt ((coms.map Node.args).set i j.args) i j prev
        else command j prev >>= fun c => pure (some (.ofCtl i c)))
      (command j prev) := by
  by_cases hc : j.cmd = "reveal".toList
  · rw [if_pos hc, command_reveal prev hc]
    exact revealBranchAt_sim hi hafter prev
  · rw [if_neg hc]
    nth_rewrite 2 [← Proc.bind_ret (command j prev)]
    refine (command_stays prev hc).sim.bind ?_
    rintro c d ⟨rfl, hstays⟩
    refine .ret ?_
    cases c with
    | next rest prev' =>
      rw [hstays rest prev' rfl, hafter]
      rfl
    | brk => rfl
    | ret => rfl

theorem singleAt_sim (hi : i < coms.length) :
    Proc.Sim some (TurnAgrees coms) (singleAt home coms i coms[i] prev)
      (singleCommand home prev coms[i] (coms.drop (i + 1))) := by
  have hcons : coms.drop i = coms[i] :: coms.drop (i + 1) := List.drop_eq_getElem_cons hi
  unfold singleAt singleCommand
  rw [← hcons]
  generalize extIn (coms[i].args.map (expand home)) = x
  cases hx : x.files with
  | none =>
    simp only [hx]
    exact .emit rfl (.ret rfl)
  | some ins =>
    cases ho : (extOut x.args).files with
    | none =>
      simp only [hx, ho]
      exact .emit rfl (Proc.Sim.ite (fun _ => .ret rfl) fun _ => .ret rfl)
    | some outs =>
      simp only [hx, ho]
      refine .emit rfl (branchAt_sim prev (j := ⟨coms.drop i, coms.drop (i + 1),
        expand home coms[i].cmd, (extOut x.args).args, ins, outs, coms[i].background⟩) hi rfl)

theorem turnAt_sim (hlast : ∀ n, coms.getLast? = some n → n.piped = false) (hi : i < coms.length) :
    Proc.Sim some (TurnAgrees coms) (turnAt home coms i prev)
      (processGroup home prev (coms.drop i)) := by
  rw [turnAt, List.getElem?_eq_getElem hi]
  cases hp : coms[i].piped with
  | true =>
    show Proc.Sim some _ (if coms[i].piped = true then _ else _) _
    rw [if_pos hp]
    exact pipelineAt_sim home prev hlast hi hp
  | false =>
    have hcons : coms.drop i = coms[i] :: coms.drop (i + 1) := List.drop_eq_getElem_cons hi
    show Proc.Sim some _ (if coms[i].piped = true then _ else _) _
    rw [if_neg (by simp [hp]), hcons, processGroup_single hp]
    exact singleAt_sim home prev hi

/-- **The loop by index is the loop over the rest of the line.** -/
theorem processAt_sim (hlast : ∀ n, coms.getLast? = some n → n.piped = false) (i : ℕ) (prev : Str)
    {fuel : ℕ} (hf : coms.length - i ≤ fuel) :
    Proc.Sim some (fun a b => a = some b) (processAt home coms i prev)
      (processLine home fuel (coms.drop i) prev) := by
  induction fuel generalizing i prev with
  | zero =>
    rw [processAt, if_neg (by omega), List.drop_of_length_le (by omega)]
    exact .emit rfl (.ret rfl)
  | succ fuel ih =>
    rw [processAt]
    by_cases hi : i < coms.length
    · have hturn := turnAt_sim home prev hlast hi
      rw [if_pos hi]
      rw [List.drop_eq_getElem_cons hi] at hturn ⊢
      refine Proc.Sim.bind hturn ?_
      rintro c d h
      cases c with
      | none => cases h
      | some c =>
        cases h
        cases c with
        | next i' hlt prev' => exact ih i' prev' (by omega)
        | brk => exact .emit rfl (.ret rfl)
        | ret => exact .ret rfl
    · rw [if_neg hi, List.drop_of_length_le (by omega)]
      exact .emit rfl (.ret rfl)

end Loop

/-- The parser leaves no `|` at the end of a line. -/
theorem parser_last {ts : List Token} {coms : List Node} (h : parser ts = some coms) :
    ∀ n, coms.getLast? = some n → n.piped = false := by
  intro n hn
  obtain ⟨hwf, -⟩ := parserLoop_lossless h
  exact (hwf.last n.raw (by rw [List.getLast?_map, hn]; rfl)).1

/-- **No command is read outside the table**: on every line that the parser accepts,
whatever the environment answers, the loop over the table returns without having
read a command outside of it, in the shell and in every child that goes on with it,
and does what the loop over the rest of the line does; and every pipeline that the
scan finds ends inside the table, after its start. -/
theorem coms_in_range {ts : List Token} {coms : List Node} (h : parser ts = some coms) (home : Home)
    (prev : Str) :
    processAt home coms 0 prev = (processLine home coms.length coms prev >>= fun p => pure (some p)) ∧
    ∀ start n, coms[start]? = some n → n.piped = true →
      ∃ stop, scanPipe coms start = some stop ∧ start < stop.1 ∧ stop.1 < coms.length := by
  refine ⟨?_, ?_⟩
  · exact (processAt_sim home (parser_last h) 0 prev (Nat.le_refl _)).eq_map
  · intro start n hn hp
    obtain ⟨hi, rfl⟩ := List.getElem?_eq_some_iff.mp hn
    obtain ⟨e, he, hlt, -, -, hstart⟩ := scanPipe_spec (parser_last h) hi
    exact ⟨e, he, hstart hp, hlt⟩

/-- The line `a | b ; reveal -`: a pipeline, and a `-` that sends the option loop past
the last command. -/
theorem coms_in_range_reveal : ∃ coms,
    parser [⟨['a'], .ordinary⟩, op ['|'], ⟨['b'], .ordinary⟩, op [';'],
      ⟨"reveal".toList, .ordinary⟩, ⟨['-'], .ordinary⟩] = some coms ∧ coms.length = 3 ∧
    processAt ⟨"/".toList, rfl⟩ coms 0 [] =
      (processLine ⟨"/".toList, rfl⟩ 3 coms [] >>= fun p => pure (some p)) ∧
    ∃ stop, scanPipe coms 0 = some stop ∧ 0 < stop.1 ∧ stop.1 < 3 := by
  have hparse : parser [⟨['a'], .ordinary⟩, op ['|'], ⟨['b'], .ordinary⟩, op [';'],
      ⟨"reveal".toList, .ordinary⟩, ⟨['-'], .ordinary⟩] =
      some [⟨[['a']], by simp, true, false, false⟩, ⟨[['b']], by simp, false, true, false⟩,
        ⟨["reveal".toList, ['-']], by simp, false, false, false⟩] := rfl
  obtain ⟨hloop, hscan⟩ := coms_in_range hparse ⟨"/".toList, rfl⟩ []
  exact ⟨_, hparse, rfl, hloop, hscan 0 _ rfl rfl⟩

end Cshell
