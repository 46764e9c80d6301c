/-
The descriptors of a pipeline.

`piped` makes all the pipes before it starts the first stage, so every stage
inherits both ends of all of them.  A stage moves the two ends it needs to its
descriptors 0 and 1 and closes every end, and the shell closes them after it has
started the last stage.  One end left open would keep a reader from ever seeing
the end of its input.

The functions are `makePipes`, `stageChild`, `startStages` and `piped`, with the
descriptors of each process; two marks are further events, one where a stage has
got through to its command and one after the loop that starts the stages.

* `Piped` — the pipes that have been made, and the table with their ends;
* `get_plumb` — the descriptors of a stage;
* `pipedFds_sim` — without the descriptors the program is `piped`;
* `pipeline_plumbing` — what every process of a pipeline holds.
-/
import CshellXv6.Shell.RedirectFds

namespace Cshell

/-- The stage `k` starts its command; the loop over the stages has ended. -/
inductive FdMark
  | stage (k : ℕ) (s : Fds)
  | looped (s : Fds)

abbrev FdShell (α : Type) := Proc Query Answer (Event ⊕ FdMark) Exit α

/-- A part of the program that does not concern the descriptors. -/
def liftShell {α : Type} (t : Shell α) : FdShell α := t.mapEvents Sum.inl

def emitMark (m : FdMark) : FdShell Unit := .emit (.inr m) (.ret ())

/-- The ends of the pipes in the order in which they are closed. -/
def ends (pipes : List (ℕ × ℕ)) : List ℕ := pipes.flatMap fun p => [p.1, p.2]

/-- `pipe(pipes[k])` for every two neighbours.  A failure leaves those made before
open. -/
def makePipesFds : ℕ → List (ℕ × ℕ) → Fds → Shell (Option (List (ℕ × ℕ)) × Fds)
  | 0, pipes, s => return (some pipes, s)
  | m + 1, pipes, s => do
    if ← pipe then
      let (r, w, s) := s.pipe
      makePipesFds m (pipes ++ [(r, w)]) s
    else return (none, s)

/-- What the child of stage `k` does with its descriptors. -/
def plumb (pipes : List (ℕ × ℕ)) (k : ℕ) (s : Fds) : Fds :=
  let s := if 0 < k then s.dup2 (pipes.getD (k - 1) (0, 0)).1 0 else s
  let s := if k < pipes.length then s.dup2 (pipes.getD k (0, 0)).2 1 else s
  s.closeAll (ends pipes)

/-- The redirections of a child; it ends when one of them fails. -/
def redirectFds (ins : List Str) (outs : List (Str × Bool)) (s : Fds) : Shell Fds := do
  let (ok, s) ← redirInFds ins s
  if ok then
    let (ok, s) ← redirOutFds outs s
    if ok then return s else exit 1
  else exit 1

/-- The command of a stage; it does not return. -/
def stageCommand (cmd : Str) (args : List Str) (prev : Str) : FdShell Unit := do
  if isBuiltin cmd then
    liftShell (execBuiltin cmd args prev)
    liftShell (exit 0)
  else
    let found ← liftShell (lookup cmd)
    liftShell (runCmd cmd args found)

/-- The child of stage `k`, from its redirections on. -/
def stageChildFds (k : ℕ) (cmd : Str) (args : List Str) (ins : Option (List Str))
    (outs : Option (List (Str × Bool))) (prev : Str) (s : Fds) : FdShell Unit := do
  match ins, outs with
  | none, _ => liftShell (exit 0)
  | some ins, none =>
    let (ok, _) ← liftShell (redirInFds ins s)
    if ok then liftShell (exit 1) else liftShell (exit 1)
  | some ins, some outs =>
    liftShell (event (.start cmd))
    let s ← liftShell (redirectFds ins outs s)
    emitMark (.stage k s)
    stageCommand cmd args prev

/-- The loop of `piped` that starts the stages, from stage `k` on. -/
def startStagesFds (home : Home) (prev : Str) (pipes : List (ℕ × ℕ)) (s : Fds) (k : ℕ) :
    List Node → FdShell Unit
  | [] => return ()
  | n :: ns => do
    let i := extIn (n.args.map (expand home))
    liftShell (report i.files.isSome)
    let o := extOut i.args
    liftShell (report o.files.isSome)
    match ← liftShell fork with
    | .child =>
      stageChildFds k (expand home n.cmd) o.args i.files o.files prev (plumb pipes k s)
    | _ => startStagesFds home prev pipes s (k + 1) ns

/-- The end of `piped`: the pipeline becomes a background job, or the shell waits for
it. -/
def finishPipeline (home : Home) (stages : List Node) (back : Bool) : FdShell Unit := do
  let name := (stages.head?.map fun n => expand home n.cmd).getD []
  if back then liftShell (event (.assignBg name))
  else
    if ← liftShell (waitStages stages) then liftShell (event (.assignStopped name))

/-- `piped`. -/
def pipedFds (home : Home) (prev : Str) (stages : List Node) (back : Bool) (s : Fds) :
    FdShell Unit := do
  let (made, s) ← liftShell (makePipesFds (stages.length - 1) [] s)
  match made with
  | some pipes =>
    startStagesFds home prev pipes s 0 stages
    emitMark (.looped (s.closeAll (ends pipes)))
    finishPipeline home stages back
  | none => liftShell (print "cshell: pipe not made".toList)

/-! ### The pipes -/

/-- The pipes `pipes` have been made on the table `s`, which gave `s'`. -/
structure Piped (s : Fds) (pipes : List (ℕ × ℕ)) (s' : Fds) : Prop where
  opened : s.Opened (ends pipes) s'
  count : s'.pipes = s.pipes + pipes.length
  reads : ∀ k p, pipes[k]? = some p → s'.get p.1 = some (.readEnd (s.pipes + k))
  writes : ∀ k p, pipes[k]? = some p → s'.get p.2 = some (.writeEnd (s.pipes + k))

/-- A `dup2` that is made under a condition. -/
theorem Fds.get_dup2_if {s : Fds} {b : Prop} [Decidable b] {old : ℕ} {f : OpenFile}
    (h : b → s.get old = some f) (new fd : ℕ) :
    (if b then s.dup2 old new else s).get fd = if fd = new ∧ b then some f else s.get fd := by
  by_cases hb : b
  · rw [if_pos hb, Fds.get_dup2 (h hb), Function.update_apply]
    simp [hb]
  · rw [if_neg hb, if_neg (fun hc => hb hc.2)]

namespace Piped

variable {s s' : Fds} {pipes : List (ℕ × ℕ)}

theorem nil (s : Fds) : Piped s [] s := ⟨.nil s, rfl, by simp, by simp⟩

theorem mem_ends {k : ℕ} {p : ℕ × ℕ} (h : pipes[k]? = some p) :
    p.1 ∈ ends pipes ∧ p.2 ∈ ends pipes := by
  have hm := List.mem_of_getElem? h
  simp only [ends, List.mem_flatMap]
  exact ⟨⟨p, hm, by simp⟩, ⟨p, hm, by simp⟩⟩

theorem getElem?_eq_getD {k : ℕ} (h : k < pipes.length) :
    pipes[k]? = some (pipes.getD k (0, 0)) := by
  rw [List.getD_eq_getElem?_getD, List.getElem?_eq_getElem h]
  rfl

/-- One more pipe. -/
theorem snoc (h : Piped s pipes s') :
    Piped s (pipes ++ [(s'.pipe.1, s'.pipe.2.1)]) s'.pipe.2.2 := by
  have hopen := h.opened.pipe
  have hnew := (Fds.Opened.nil s').pipe
  -- an end that is open keeps its file
  have hkeep : ∀ fd f, s'.get fd = some f → s'.pipe.2.2.get fd = some f := by
    intro fd f hf
    rw [hnew.same fd ?_, hf]
    intro hm
    rw [hnew.new fd hm] at hf
    cases hf
  have hr : s'.pipe.2.2.get s'.pipe.1 = some (.readEnd s'.pipes) := by
    rw [Fds.get_pipe, Function.update_of_ne s'.pipe_ne, Function.update_self]
  have hw : s'.pipe.2.2.get s'.pipe.2.1 = some (.writeEnd s'.pipes) := by
    rw [Fds.get_pipe, Function.update_self]
  have hlast : ∀ {k : ℕ} {p : ℕ × ℕ}, ¬ k < pipes.length →
      [(s'.pipe.1, s'.pipe.2.1)][k - pipes.length]? = some p →
      p = (s'.pipe.1, s'.pipe.2.1) ∧ s'.pipes = s.pipes + k := by
    intro k p hlt hk
    obtain ⟨hk', rfl⟩ := List.getElem?_eq_some_iff.mp hk
    rw [List.length_singleton] at hk'
    have hkl : k = pipes.length := by omega
    subst hkl
    exact ⟨by simp, h.count⟩
  refine ⟨by simpa [ends] using hopen, ?_, ?_, ?_⟩
  · show s'.pipes + 1 = _
    rw [h.count, List.length_append, List.length_singleton, Nat.add_assoc]
  · intro k p hk
    rw [List.getElem?_append] at hk
    split at hk
    case isTrue => exact hkeep _ _ (h.reads k p hk)
    case isFalse hlt =>
      obtain ⟨rfl, hcount⟩ := hlast hlt hk
      rw [hr, hcount]
  · intro k p hk
    rw [List.getElem?_append] at hk
    split at hk
    case isTrue => exact hkeep _ _ (h.writes k p hk)
    case isFalse hlt =>
      obtain ⟨rfl, hcount⟩ := hlast hlt hk
      rw [hw, hcount]

/-- Closing all ends gives the table back. -/
theorem closeAll (h : Piped s pipes s') : (s'.closeAll (ends pipes)).get = s.get := h.opened.closeAll

/-- A standard descriptor is no end of a pipe. -/
theorem not_mem_ends (h : Piped s pipes s') (hs : s.Standard) {fd : ℕ} (hfd : fd < 3) :
    fd ∉ ends pipes := fun hm => hs fd hfd (h.opened.new fd hm)

/-- **The descriptors of a stage**: 0 is the read end of the pipe before it, unless it
is the first, 1 the write end of the pipe after it, unless it is the last, and the
others are those of the shell. -/
theorem get_plumb (h : Piped s pipes s') (hs : s.Standard) {k : ℕ} (hk : k ≤ pipes.length) (fd : ℕ) :
    (plumb pipes k s').get fd =
      if fd = 0 ∧ 0 < k then some (.readEnd (s.pipes + (k - 1)))
      else if fd = 1 ∧ k < pipes.length then some (.writeEnd (s.pipes + k))
      else s.get fd := by
  have hread : 0 < k → s'.get (pipes.getD (k - 1) (0, 0)).1 = some (.readEnd (s.pipes + (k - 1))) :=
    fun hpos => h.reads _ _ (getElem?_eq_getD (by omega))
  have hin := Fds.get_dup2_if hread 0
  have h0 := h.not_mem_ends hs (show 0 < 3 by decide)
  have h1 := h.not_mem_ends hs (show 1 < 3 by decide)
  have hsame : ∀ fd ∈ ends pipes,
      (if 0 < k then s'.dup2 (pipes.getD (k - 1) (0, 0)).1 0 else s').get fd = s'.get fd := by
    intro fd hm
    rw [hin, if_neg]
    rintro ⟨rfl, -⟩
    exact h0 hm
  have hwrite : k < pipes.length →
      (if 0 < k then s'.dup2 (pipes.getD (k - 1) (0, 0)).1 0 else s').get (pipes.getD k (0, 0)).2 =
        some (.writeEnd (s.pipes + k)) := by
    intro hlt
    have hp := getElem?_eq_getD hlt
    rw [hsame _ (mem_ends hp).2, h.writes _ _ hp]
  show Fds.get (Fds.closeAll _ (ends pipes)) fd = _
  rw [Fds.get_closeAll, Fds.get_dup2_if hwrite, hin]
  by_cases hm : fd ∈ ends pipes
  · have hne0 : fd ≠ 0 := by
      rintro rfl
      exact h0 hm
    have hne1 : fd ≠ 1 := by
      rintro rfl
      exact h1 hm
    rw [if_pos hm, if_neg (by tauto), if_neg (by tauto), h.opened.new fd hm]
  · rw [if_neg hm, h.opened.same fd hm]
    by_cases hfd : fd = 0
    · subst hfd
      simp
    · simp [hfd]

theorem plumb_standard (h : Piped s pipes s') (hs : s.Standard) {k : ℕ} (hk : k ≤ pipes.length) :
    (plumb pipes k s').Standard := by
  intro fd hfd
  rw [h.get_plumb hs hk]
  split
  · simp
  · split
    · simp
    · exact hs fd hfd

end Piped

/-! ### The program without the descriptors -/

/-- The marks are further events. -/
abbrev PlainSim {α β : Type} (R : α → β → Prop) : FdShell α → Shell β → Prop :=
  Proc.Sim Sum.getLeft? R

theorem liftShell_sim {α β : Type} {R : α → β → Prop} {t : Shell α} {t' : Shell β}
    (h : Proc.Sim some R t t') : PlainSim R (liftShell t) t' :=
  Proc.Sim.mapEvents Sum.inl Sum.getLeft? (fun _ => rfl) h

theorem liftShell_self {α : Type} (t : Shell α) : PlainSim (fun a b => a = b) (liftShell t) t :=
  liftShell_sim (t.returns_true.sim.mono fun _ _ h => h.1)

theorem makePipesFds_sim (m : ℕ) {s s' : Fds} {pipes : List (ℕ × ℕ)} (h : Piped s pipes s') :
    Proc.Sim some (fun a ok => match a.1 with
        | some ps => ok = true ∧ ps.length = pipes.length + m ∧ Piped s ps a.2
        | none => ok = false)
      (makePipesFds m pipes s') (makePipes m) := by
  induction m generalizing pipes s' with
  | zero => exact .ret ⟨rfl, rfl, h⟩
  | succ m ih =>
    refine Proc.sim_bind fun ok => ?_
    cases ok with
    | false => exact .ret rfl
    | true =>
      refine (ih h.snoc).mono ?_
      rintro ⟨a, s''⟩ ok hR
      cases a with
      | none => exact hR
      | some ps =>
        obtain ⟨hok, hlen, hp⟩ := hR
        refine ⟨hok, ?_, hp⟩
        rw [List.length_append, List.length_singleton] at hlen
        omega

theorem redirectFds_sim (ins : List Str) (outs : List (Str × Bool)) {s : Fds} (h : s.Standard) :
    Proc.Sim some (fun _ _ => True) (redirectFds ins outs s) (redirect ins outs) := by
  refine Proc.Sim.bind (redirInFds_sim ins h) ?_
  rintro ⟨ok, s₁⟩ _ ⟨rfl, hin⟩
  cases ok with
  | false => exact .exit _
  | true =>
    refine Proc.Sim.bind (redirOutFds_sim outs (h.redirected hin)) ?_
    rintro ⟨ok, s₂⟩ _ ⟨rfl, -⟩
    cases ok with
    | false => exact .exit _
    | true => exact .ret trivial

theorem stageChildFds_sim (k : ℕ) (cmd : Str) (args : List Str) (ins : Option (List Str))
    (outs : Option (List (Str × Bool))) (prev : Str) {s : Fds} (h : s.Standard) :
    PlainSim (fun _ _ => True) (stageChildFds k cmd args ins outs prev s)
      (stageChild cmd args ins outs prev) := by
  cases ins with
  | none => exact .exit _
  | some ins =>
    cases outs with
    | none =>
      refine Proc.Sim.bind (liftShell_sim (redirInFds_sim ins h)) ?_
      rintro ⟨ok, s₁⟩ _ ⟨rfl, -⟩
      exact Proc.Sim.ite (fun _ => .exit _) fun _ => .exit _
    | some outs =>
      refine .emit rfl ?_
      show PlainSim _ (liftShell (redirectFds ins outs s) >>= fun s => _)
        (redirect ins outs >>= fun _ => _)
      refine Proc.Sim.bind (liftShell_sim (redirectFds_sim ins outs h)) fun s₁ _ _ => ?_
      refine .silent rfl (Proc.Sim.ite (fun _ => ?_) fun _ => ?_)
      · exact Proc.Sim.bind (liftShell_self _) fun _ _ _ => .exit _
      · refine Proc.Sim.bind (liftShell_self _) ?_
        rintro found _ rfl
        exact (liftShell_self _).mono fun _ _ _ => trivial

theorem startStagesFds_sim (home : Home) (prev : Str) {s s' : Fds} {pipes : List (ℕ × ℕ)}
    (h : Piped s pipes s') (hs : s.Standard) (stages : List Node) {k : ℕ}
    (hk : k + stages.length ≤ pipes.length + 1) :
    PlainSim (fun _ _ => True) (startStagesFds home prev pipes s' k stages)
      (startStages home prev stages) := by
  induction stages generalizing k with
  | nil => exact .ret trivial
  | cons n ns ih =>
    rw [List.length_cons] at hk
    refine Proc.Sim.bind (liftShell_self _) fun _ _ _ => ?_
    refine Proc.Sim.bind (liftShell_self _) fun _ _ _ => ?_
    refine Proc.Sim.bind (liftShell_self _) ?_
    rintro pid _ rfl
    cases pid with
    | failed => exact ih (by omega)
    | parent => exact ih (by omega)
    | child => exact stageChildFds_sim _ _ _ _ _ _ (h.plumb_standard hs (by omega))

/-- **Without the descriptors the program is `piped`.** -/
theorem pipedFds_sim (home : Home) (prev : Str) (stages : List Node) (back : Bool) {s : Fds}
    (hs : s.Standard) :
    PlainSim (fun _ _ => True) (pipedFds home prev stages back s)
      (piped home prev stages back) := by
  refine Proc.Sim.bind (liftShell_sim (makePipesFds_sim _ (.nil s))) ?_
  rintro ⟨a, s'⟩ ok hR
  cases a with
  | none =>
    cases hR
    exact .emit rfl (.ret trivial)
  | some pipes =>
    obtain ⟨rfl, hlen, hp⟩ := hR
    rw [List.length_nil] at hlen
    refine Proc.Sim.bind (startStagesFds_sim home prev hp hs stages (by omega)) fun _ _ _ => ?_
    refine .silent rfl ?_
    cases back with
    | true => exact .emit rfl (.ret trivial)
    | false =>
      show PlainSim _ (liftShell (waitStages stages) >>= fun b => _) (waitStages stages >>= fun b => _)
      refine Proc.Sim.bind (liftShell_self _) ?_
      rintro stopped _ rfl
      cases stopped with
      | true => exact .emit rfl (.ret trivial)
      | false => exact .ret trivial

/-! ### Commands without redirections -/

theorem scan_plain {α : Type} {sel : Str → Option (Str → α)} {as : List Str}
    (h : ∀ a ∈ as, sel a = none) : scan sel as = ⟨as, some []⟩ := by
  induction as with
  | nil => rfl
  | cons a as ih =>
    obtain ⟨ha, has⟩ := List.forall_mem_cons.mp h
    rw [scan_cons_kept ha, ih has]

/-- Both passes leave such a command as it is. -/
theorem ext_plain {as : List Str} (h : ∀ a ∈ as, isRedir a = false) :
    extIn as = ⟨as, some []⟩ ∧ extOut as = ⟨as, some []⟩ := by
  constructor
  · rw [extIn, scan_plain fun a ha => inOp_ordinary a (h a ha)]
    rfl
  · rw [extOut, scan_plain fun a ha => outOp_ordinary a (h a ha)]
    rfl

theorem isRedir_map_expand (home : Home) {as : List Str} (h : ∀ a ∈ as, isRedir a = false) :
    ∀ a ∈ as.map (expand home), isRedir a = false := by
  intro a ha
  obtain ⟨b, hb, rfl⟩ := List.mem_map.mp ha
  rw [isRedir_expand, h b hb]

/-! ### Runs -/

/-- Every `pipe` and every `fork` succeeds. -/
def succeeding : (q : Query) → Answer q → Prop
  | .fork, a => a = true
  | .pipe, a => a = true
  | _, _ => True

/-- The marks of a process. -/
def fdMarks {α : Type} (o : Outcome (Event ⊕ FdMark) Exit α) : List FdMark :=
  o.events.filterMap Sum.getRight?

/-- The event is no mark. -/
def NoMark (e : Event ⊕ FdMark) : Prop := e.getRight? = none

/-- The program does not fork. -/
abbrev Single {α : Type} (t : Shell α) : Prop := t.Alone fun _ => True

theorem liftShell_alone {α : Type} {t : Shell α} (h : Single t) : (liftShell t).Alone NoMark :=
  h.mapEvents Sum.inl fun _ _ => rfl

theorem execBuiltin_single (cmd : Str) (args : List Str) (prev : Str) :
    Single (execBuiltin cmd args prev) := by
  refine Proc.Alone.ite ⟨trivial, fun _ => trivial⟩ (Proc.Alone.ite ⟨trivial, trivial⟩ ?_)
  exact Proc.Alone.ite ⟨trivial, trivial⟩ ⟨trivial, trivial⟩

theorem runCmd_single {α : Type} (cmd : Str) (args : List Str) (found : Bool) :
    Single (runCmd cmd args found : Shell α) := by
  cases cmd with
  | nil => trivial
  | cons c cs =>
    cases found with
    | true => exact ⟨trivial, trivial⟩
    | false => exact ⟨trivial, trivial, trivial⟩

theorem waitStages_single (stages : List Node) : Single (waitStages stages) := by
  induction stages with
  | nil => trivial
  | cons n ns ih =>
    refine Proc.Alone.bind (t := wait n.cmd) (fun _ => trivial) fun st => ?_
    exact Proc.Alone.bind ih fun _ => trivial

theorem stageCommand_alone (cmd : Str) (args : List Str) (prev : Str) :
    (stageCommand cmd args prev).Alone NoMark := by
  refine Proc.Alone.ite ?_ fun found => liftShell_alone (runCmd_single _ _ _)
  exact Proc.Alone.bind (liftShell_alone (execBuiltin_single _ _ _)) fun _ => trivial

theorem stageCommand_gone (cmd : Str) (args : List Str) (prev : Str) :
    (stageCommand cmd args prev).Returns fun _ => False := by
  refine Proc.Returns.ite (Proc.returns_bind fun _ => trivial) ?_
  exact fun found => (runCmd_returns _ _ _).mapEvents Sum.inl

theorem finishPipeline_alone (home : Home) (stages : List Node) (back : Bool) :
    (finishPipeline home stages back).Alone NoMark := by
  refine Proc.Alone.ite (liftShell_alone ⟨trivial, trivial⟩) ?_
  refine Proc.Alone.bind (liftShell_alone (waitStages_single stages)) fun stopped => ?_
  exact Proc.Alone.ite (liftShell_alone ⟨trivial, trivial⟩) trivial

/-- The child of a stage without redirections marks its descriptors once, leaves no
process behind and does not return. -/
theorem stageChildFds_runs {k : ℕ} {cmd : Str} {args : List Str} {prev : Str} {u : Fds}
    {f : Unit → FdShell Unit} {o : Outcome (Event ⊕ FdMark) Exit Unit}
    {ps : List (Outcome (Event ⊕ FdMark) Exit Unit)}
    (h : (stageChildFds k cmd args (some []) (some []) prev u >>= f).Runs succeeding o ps) :
    fdMarks o = [.stage k u] ∧ ps = [] := by
  obtain ⟨o₁, ⟨o₂, h₂, rfl⟩, rfl⟩ := h
  obtain ⟨es, hes, ⟨x, rfl, rfl⟩ | ⟨_, _, ha, -⟩⟩ :=
    (stageCommand_alone cmd args prev).runs_bind (stageCommand_gone cmd args prev) h₂
  · refine ⟨?_, rfl⟩
    show FdMark.stage k u :: es.filterMap Sum.getRight? = _
    rw [List.filterMap_eq_nil_iff.mpr hes]
  · exact ha.elim

/-- The loop over the stages: each is a process of its own with its own mark, and the
shell goes on. -/
theorem startStagesFds_runs {home : Home} {prev : Str} {pipes : List (ℕ × ℕ)} {s : Fds}
    {stages : List Node} {k : ℕ} (hplain : ∀ n ∈ stages, ∀ a ∈ n.args, isRedir a = false)
    {f : Unit → FdShell Unit} {o : Outcome (Event ⊕ FdMark) Exit Unit}
    {ps : List (Outcome (Event ⊕ FdMark) Exit Unit)}
    (h : (startStagesFds home prev pipes s k stages >>= f).Runs succeeding o ps) :
    ∃ ps₁ ps₂, ps = ps₁ ++ ps₂ ∧ (f ()).Runs succeeding o ps₂ ∧
      ps₁.map fdMarks = (List.range' k stages.length).map fun k => [.stage k (plumb pipes k s)] := by
  induction stages generalizing k ps with
  | nil => exact ⟨[], ps, rfl, h, rfl⟩
  | cons n ns ih =>
    obtain ⟨hn, hns⟩ := List.forall_mem_cons.mp hplain
    have hexp := isRedir_map_expand home hn
    obtain ⟨hin, hout⟩ := ext_plain hexp
    rw [startStagesFds] at h
    simp only [hin, hout] at h
    obtain ⟨a, rfl, oc, pc, pp, hc, hp, rfl⟩ := h
    obtain ⟨hmark, rfl⟩ := stageChildFds_runs hc
    obtain ⟨ps₁, ps₂, rfl, hf, hmarks⟩ := ih hns hp
    refine ⟨oc :: ps₁, ps₂, rfl, hf, ?_⟩
    rw [List.map_cons, hmark, hmarks, List.length_cons, List.range'_succ, List.map_cons]

theorem makePipesFds_runs {m : ℕ} {s s' : Fds} {pipes : List (ℕ × ℕ)} (hp : Piped s pipes s')
    {f : Option (List (ℕ × ℕ)) × Fds → FdShell Unit} {o : Outcome (Event ⊕ FdMark) Exit Unit}
    {ps : List (Outcome (Event ⊕ FdMark) Exit Unit)}
    (h : (liftShell (makePipesFds m pipes s') >>= f).Runs succeeding o ps) :
    ∃ pipes' s'', pipes'.length = pipes.length + m ∧ Piped s pipes' s'' ∧
      (f (some pipes', s'')).Runs succeeding o ps := by
  induction m generalizing pipes s' with
  | zero => exact ⟨pipes, s', rfl, hp, h⟩
  | succ m ih =>
    obtain ⟨a, rfl, h⟩ := h
    obtain ⟨pipes', s'', hlen, hp', hf⟩ := ih hp.snoc h
    rw [List.length_append, List.length_singleton] at hlen
    exact ⟨pipes', s'', by omega, hp', hf⟩

/-- The descriptors of the stages of a pipeline that a shell with the descriptors `s` has
started; the pipe after stage `p` has the number `s.pipes + p`. -/
structure Plumbed (s : Fds) (tables : List Fds) : Prop where
  stdin : ∀ (k : ℕ) (t : Fds), tables[k]? = some t →
    t.get 0 = if k = 0 then s.get 0 else some (.readEnd (s.pipes + (k - 1)))
  stdout : ∀ (k : ℕ) (t : Fds), tables[k]? = some t →
    t.get 1 = if k = tables.length - 1 then s.get 1 else some (.writeEnd (s.pipes + k))
  others : ∀ (k : ℕ) (t : Fds), tables[k]? = some t → ∀ fd, 2 ≤ fd → t.get fd = s.get fd
  reader : ∀ p < tables.length - 1, ∀ (k : ℕ) (t : Fds), tables[k]? = some t → ∀ fd,
    t.get fd = some (.readEnd (s.pipes + p)) ↔ k = p + 1 ∧ fd = 0
  writer : ∀ p < tables.length - 1, ∀ (k : ℕ) (t : Fds), tables[k]? = some t → ∀ fd,
    t.get fd = some (.writeEnd (s.pipes + p)) ↔ k = p ∧ fd = 1

/-- A new pipe is no open file yet. -/
theorem Fds.ne_newPipe (s : Fds) (fd p : ℕ) :
    s.get fd ≠ some (.readEnd (s.pipes + p)) ∧ s.get fd ≠ some (.writeEnd (s.pipes + p)) := by
  constructor
  · intro h
    have := s.known fd _ (.inl h)
    omega
  · intro h
    have := s.known fd _ (.inr h)
    omega

/-- The pipes have been made and every stage has moved and closed its ends. -/
theorem Piped.plumbed {s s' : Fds} {pipes : List (ℕ × ℕ)} (h : Piped s pipes s') (hs : s.Standard) :
    Plumbed s ((List.range (pipes.length + 1)).map fun k => plumb pipes k s') := by
  have hlen : ((List.range (pipes.length + 1)).map fun k => plumb pipes k s').length - 1 =
      pipes.length := by
    rw [List.length_map, List.length_range, Nat.add_sub_cancel]
  have hget : ∀ k t, ((List.range (pipes.length + 1)).map fun k => plumb pipes k s')[k]? = some t →
      k ≤ pipes.length ∧ t = plumb pipes k s' := by
    intro k t ht
    rw [List.getElem?_map, Option.map_eq_some_iff] at ht
    obtain ⟨j, hj, rfl⟩ := ht
    obtain ⟨hlt, rfl⟩ := List.getElem?_eq_some_iff.mp hj
    rw [List.length_range] at hlt
    rw [List.getElem_range]
    exact ⟨by omega, rfl⟩
  constructor
  case stdin =>
    intro k t ht
    obtain ⟨hk, rfl⟩ := hget k t ht
    rw [h.get_plumb hs hk]
    rcases Nat.eq_zero_or_pos k with rfl | hpos
    · simp
    · simp [hpos, Nat.ne_of_gt hpos]
  case stdout =>
    intro k t ht
    obtain ⟨hk, rfl⟩ := hget k t ht
    rw [h.get_plumb hs hk, if_neg (by omega), hlen]
    by_cases hlast : k = pipes.length
    · rw [if_neg (by omega), if_pos hlast]
    · rw [if_pos ⟨rfl, by omega⟩, if_neg hlast]
  case others =>
    intro k t ht fd hfd
    obtain ⟨hk, rfl⟩ := hget k t ht
    rw [h.get_plumb hs hk, if_neg (by omega), if_neg (by omega)]
  case reader =>
    -- the ends that `pipe` made are closed again, so the read end is left as input only
    intro p hp k t ht fd
    obtain ⟨hk, rfl⟩ := hget k t ht
    rw [h.get_plumb hs hk]
    split
    · rw [Option.some_inj, OpenFile.readEnd.injEq]
      omega
    · split
      · exact iff_of_false (by simp) (by omega)
      · exact iff_of_false (s.ne_newPipe fd p).1 (by omega)
  case writer =>
    -- and the write end as output only
    intro p hp k t ht fd
    rw [hlen] at hp
    obtain ⟨hk, rfl⟩ := hget k t ht
    rw [h.get_plumb hs hk]
    split
    · exact iff_of_false (by simp) (by omega)
    · split
      · rw [Option.some_inj, OpenFile.writeEnd.injEq]
        omega
      · exact iff_of_false (s.ne_newPipe fd p).2 (by omega)

/-- **The plumbing of a pipeline**: in every run in which the pipes and the forks succeed
the processes that a pipeline of commands without redirections leaves behind are its
stages, each with its own descriptors when it starts its command, and the shell has
the table it had before, so that the ends of a pipe are held by one stage each. -/
theorem pipeline_plumbing (home : Home) (prev : Str) {stages : List Node} (hn : 2 ≤ stages.length)
    (hplain : ∀ n ∈ stages, ∀ a ∈ n.args, isRedir a = false) (back : Bool) {s : Fds}
    (hs : s.Standard) {o : Outcome (Event ⊕ FdMark) Exit Unit}
    {ps : List (Outcome (Event ⊕ FdMark) Exit Unit)}
    (hrun : (pipedFds home prev stages back s).Runs succeeding o ps) :
    (∃ t, fdMarks o = [.looped t] ∧ t.get = s.get ∧
      ∀ fd p, t.get fd ≠ some (.readEnd (s.pipes + p)) ∧ t.get fd ≠ some (.writeEnd (s.pipes + p))) ∧
    ∃ tables : List Fds, tables.length = stages.length ∧ Plumbed s tables ∧
      ps.map fdMarks = tables.mapIdx fun k t => [.stage k t] := by
  obtain ⟨pipes, s', hlen, hp, hrun⟩ := makePipesFds_runs (.nil s) hrun
  rw [List.length_nil, Nat.zero_add] at hlen
  obtain ⟨ps₁, ps₂, rfl, hrest, hmarks⟩ := startStagesFds_runs hplain hrun
  obtain ⟨o₁, hrest, rfl⟩ := hrest
  obtain ⟨rfl, hes⟩ := (finishPipeline_alone home stages back).runs hrest
  have hlen' : pipes.length + 1 = stages.length := by omega
  refine ⟨⟨s'.closeAll (ends pipes), ?_, hp.closeAll, ?_⟩,
    (List.range (pipes.length + 1)).map fun k => plumb pipes k s', ?_, hp.plumbed hs, ?_⟩
  · show FdMark.looped _ :: o₁.events.filterMap Sum.getRight? = _
    rw [List.filterMap_eq_nil_iff.mpr hes]
  · intro fd p
    rw [hp.closeAll]
    exact s.ne_newPipe fd p
  · rw [List.length_map, List.length_range, hlen']
  · rw [List.append_nil, hmarks, ← hlen', ← List.range_eq_range']
    apply List.ext_getElem
    · simp
    · intro k h₁ h₂
      simp

theorem succeeding_allSucceed (q : Query) : succeeding q (allSucceed q) := by
  cases q with
  | fork | pipe => rfl
  | openRead | openWrite | lookup | wait | hop => trivial

/-- The pipeline `a | b` of a shell at a terminal. -/
theorem pipeline_plumbing_pair : ∃ o ps,
    (pipedFds ⟨"/".toList, rfl⟩ [] [⟨[['a']], by simp, true, false, false⟩,
      ⟨[['b']], by simp, false, false, false⟩] false terminal).Runs succeeding o ps ∧
    ∃ tables : List Fds, tables.length = 2 ∧ Plumbed terminal tables ∧
      ps.map fdMarks = tables.mapIdx fun k t => [.stage k t] := by
  have hrun := Proc.runs_exec allSucceed succeeding_allSucceed
    (pipedFds ⟨"/".toList, rfl⟩ [] [⟨[['a']], by simp, true, false, false⟩,
      ⟨[['b']], by simp, false, false, false⟩] false terminal)
  refine ⟨_, _, hrun, (pipeline_plumbing _ _ ?_ ?_ _ terminal_standard hrun).2⟩
  · decide
  · decide

end Cshell
