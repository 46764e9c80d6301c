/-
Which processes come back from `process_cmd`.

A process forked for a command should end before it reaches a later command or
the read loop.  It does, but for one kind of command: a background `reveal` or
`peek` with a redirection, whose child forks once more for the redirection,
waits, and falls out of the branch.

* `Job.leaks` — the commands of that kind;
* `only_shell_returns_iff` — the shell alone comes back, and alone dispatches
  commands, in exactly the runs that dispatch none of them.
-/
import CshellXv6.Shell.ProcessFacts

namespace Cshell

/-- Every fork succeeds. -/
def ForksSucceed : (q : Query) → Answer q → Prop
  | .fork, ok => ok = true
  | _, _ => True

/-- The option loop of `reveal` ends well. -/
def revealValid (args : List Str) (prev : Str) : Bool :=
  match revealOptions args prev with
  | some (args, k) => !(k + 1 < args.length)
  | none => false

/-- The background commands whose child is not ended. -/
def Job.leaks (j : Job) (prev : Str) : Bool :=
  j.background && j.needRedir &&
    (j.cmd = "reveal".toList && 2 ≤ j.args.length && revealValid j.args prev ||
      j.cmd = "peek".toList && peekValid j.args)

/-- A dispatch of such a command. -/
def LeaksAt (home : Home) : Event → Prop
  | .dispatch (n :: after) prev =>
    n.piped = false ∧ (n.job home after).any (·.leaks prev) = true
  | _ => False

instance (home : Home) : DecidablePred (LeaksAt home) := fun e =>
  match e with
  | .dispatch (_ :: _) _ => inferInstanceAs (Decidable (_ ∧ _))
  | .dispatch [] _ | .print _ | .own _ _ | .start _ | .run _ _ | .waited _ _ _ | .assignBg _
  | .assignStopped _ | .noLongerWaiting => inferInstanceAs (Decidable False)

/-- Everything but a dispatch. -/
def Event.silent : Event → Bool
  | .dispatch _ _ => false
  | _ => true

theorem Event.silent_of_plain (e : Event) (h : e.plain = true) : e.silent = true := by
  cases e <;> simp_all [Event.plain, Event.silent]

section Branches

variable {allow : ∀ q, Answer q → Prop}

/-- A branch is tame when its background child ends and the shell returns. -/
theorem inBackground_tame {j : Job} {prev : Str} {k : Bool → Shell Ctl}
    (ht : j.background = true → Exits allow Event.silent (k true))
    (hf : Tame allow Event.silent (k false)) :
    Tame allow Event.silent (inBackground j prev k) := by
  unfold inBackground
  split
  · rename_i hb
    refine .fork ?_ (ht hb) ?_
    · exact (Tame.event rfl).bind fun _ => (Tame.event rfl).bind fun _ => hf
    · exact (Tame.event rfl).bind fun _ => .ret _
  · exact (Tame.event rfl).bind fun _ => hf

/-- A part, and then the end of the child: the child ends, the shell goes on. -/
theorem endChild_exits {α : Type} {t : Shell α} {f : α → Ctl} (h : Tame allow Event.plain t) :
    Exits allow Event.silent (do let a ← t; endChild true; return f a) :=
  (h.weaken Event.silent_of_plain).mild.bind_exits fun _ => .exit _

theorem endChild_tame {α : Type} {t : Shell α} {f : α → Ctl} (h : Tame allow Event.plain t) :
    Tame allow Event.silent (do let a ← t; endChild false; return f a) :=
  (h.weaken Event.silent_of_plain).bind fun a => .ret (f a)

theorem builtinBranch_exits {j : Job} {prev : Str} {body : Shell Unit} {code : ℕ}
    (h : Tame allow Event.plain body) :
    Exits allow Event.silent (builtinBranch j prev true body code) :=
  endChild_exits (runBuiltin_tame h code)

theorem builtinBranch_tame {j : Job} {prev : Str} {body : Shell Unit} {code : ℕ}
    (h : Tame allow Event.plain body) :
    Tame allow Event.silent (builtinBranch j prev false body code) :=
  endChild_tame (runBuiltin_tame h code)

theorem hopBranch_tame (j : Job) (prev : Str) : Tame allow Event.silent (hopBranch j prev) := by
  have hr : Tame allow Event.plain
      (redirected j (do let _ ← hop j.args prev) 1) :=
    redirected_tame ((hop_tame j.args prev).bind fun _ => .ret ()) 1
  refine inBackground_tame (fun _ => ?_) ?_
  · exact .ite (endChild_exits hr) (endChild_exits (hop_tame j.args prev))
  · exact .ite (endChild_tame hr) (endChild_tame (hop_tame j.args prev))

theorem simpleBranch_tame (j : Job) (prev : Str) (args : List Str) :
    Tame allow Event.silent
      (inBackground j prev fun child => builtinBranch j prev child (call j.cmd args) 0) :=
  inBackground_tame (fun _ => builtinBranch_exits (call_tame _ _))
    (builtinBranch_tame (call_tame _ _))

theorem locateBranch_tame (j : Job) (prev : Str) :
    Tame allow Event.silent (locateBranch j prev) := by
  refine inBackground_tame (fun _ => ?_) ?_
  · exact .ite (endChild_exits (print_tame _)) (builtinBranch_exits (call_tame _ _))
  · exact .ite (endChild_tame (print_tame _)) (builtinBranch_tame (call_tame _ _))

/-- The redirected end of `reveal` and `peek`, which has no `_exit`. -/
theorem redirected_next_tame {j : Job} {prev : Str} {args : List Str} :
    Tame allow Event.silent (do
      redirected j (call j.cmd args) 1
      return Ctl.next j.after prev) :=
  ((redirected_tame (call_tame _ _) 1).weaken Event.silent_of_plain).bind fun _ => .ret _

theorem revealBranch_tame {j : Job} {prev : Str}
    (h : j.background = true → j.needRedir = true → 2 ≤ j.args.length →
      revealValid j.args prev = false) :
    Tame allow Event.silent (revealBranch j prev) := by
  refine inBackground_tame ?_ ?_
  · intro hb
    split
    · exact builtinBranch_exits (call_tame _ _)
    · rename_i hl
      split
      · exact endChild_exits (revealNoPrev_tame _ _)
      · rename_i args k ho
        split
        · exact endChild_exits (print_tame _)
        · rename_i hk
          -- here the child falls out of the branch if there is a redirection
          have hv : revealValid j.args prev = true := by simp [revealValid, ho, hk]
          have hn : ¬ j.needRedir = true := by
            intro hn
            rw [h hb hn (by omega)] at hv
            cases hv
          rw [if_neg hn]
          exact endChild_exits (call_tame _ _)
  · refine .ite (builtinBranch_tame (call_tame _ _)) ?_
    split
    · exact endChild_tame (revealNoPrev_tame _ _)
    · refine .ite (endChild_tame (print_tame _)) (.ite redirected_next_tame ?_)
      exact endChild_tame (call_tame _ _)

theorem peekBranch_tame {j : Job} {prev : Str}
    (h : j.background = true → j.needRedir = true → peekValid j.args = false) :
    Tame allow Event.silent (peekBranch j prev) := by
  refine inBackground_tame ?_ ?_
  · intro hb
    split
    · exact endChild_exits (print_tame _)
    · rename_i hv
      have hn : ¬ j.needRedir = true := fun hn => hv (by simp [h hb hn])
      rw [if_neg hn]
      exact endChild_exits (call_tame _ _)
  · refine .ite (endChild_tame (print_tame _)) (.ite redirected_next_tame ?_)
    exact endChild_tame (call_tame _ _)

theorem resumeBranch_tame (j : Job) (prev : Str) :
    Tame allow Event.silent (resumeBranch j prev) := by
  refine Tame.weaken (E := Event.plain) ?_ Event.silent_of_plain
  refine (redirIn_tame _).bind fun _ => .ite ((redirOut_tame _).bind fun _ => .ite ?_ ?_) ?_
  · exact (call_tame _ _).bind fun _ => .ret _
  · exact .ret _
  · exact .ret _

theorem snoopBranch_tame (j : Job) (prev : Str) :
    Tame allow Event.silent (snoopBranch j prev) := by
  refine Tame.weaken (E := Event.plain) ?_ Event.silent_of_plain
  have hw : Tame allow Event.plain (do
      let _ ← waitFor j.cmd
      return Ctl.next j.after prev) := (waitFor_tame _).bind fun _ => .ret _
  refine .ite ((call_tame _ _).bind fun _ => .ret _) (.fork hw ?_ hw)
  exact (redirect_mild _ _).bind_exits fun _ => (snoop_tame _ _).mild.bind_exits fun _ => .exit _

theorem externalBranch_tame (j : Job) (prev : Str) :
    Tame allow Event.silent (externalBranch j prev) := by
  have hc : ∀ found, Exits allow Event.silent
      (do redirect j.ins j.outs; runCmd j.cmd j.args found : Shell Ctl) := fun found =>
    ((redirect_mild _ _).bind_exits fun _ => runCmd_exits _ _ _).weaken Event.silent_of_plain
  have hl : Tame allow Event.silent (lookup j.cmd) :=
    (lookup_tame _).weaken Event.silent_of_plain
  refine inBackground_tame (fun _ => hl.mild.bind_exits fun found => hc found)
    (hl.bind fun found => ?_)
  have hw : Tame allow Event.silent (do
      let st ← waitFor j.cmd
      event (.waited j.line found st)
      if st = .exited 8 then return Ctl.brk else return .next j.after prev) :=
    ((waitFor_tame _).weaken Event.silent_of_plain).bind fun st =>
      (Tame.event rfl).bind fun _ => .ite (.ret _) (.ret _)
  exact .fork hw (hc found) hw

/-- The branches are tame, but for the commands that leak. -/
theorem command_tame {j : Job} {prev : Str} (h : j.leaks prev = false) :
    Tame allow Event.silent (command j prev) := by
  unfold command
  split
  · exact hopBranch_tame j prev
  split
  · rename_i hc
    refine revealBranch_tame ?_
    intro hb hn hl
    simpa [Job.leaks, hb, hn, hc, hl] using h
  split
  · rename_i hc
    refine peekBranch_tame ?_
    intro hb hn
    simpa [Job.leaks, hb, hn, hc] using h
  split
  · exact locateBranch_tame j prev
  split
  · exact simpleBranch_tame j prev []
  split
  · exact resumeBranch_tame j prev
  split
  · exact simpleBranch_tame j prev j.args
  split
  · exact simpleBranch_tame j prev j.args
  split
  · exact snoopBranch_tame j prev
  · exact externalBranch_tame j prev

end Branches

/-! ### The leak -/

/-- A background child that returns from its branch is left behind. -/
theorem inBackground_leak {j : Job} {prev : Str} {k : Bool → Shell Ctl}
    {o : Outcome Event Exit Ctl} {ps : List (Outcome Event Exit Ctl)}
    (hb : j.background = true) (hk : Tame ForksSucceed Event.silent (k true))
    (h : (inBackground j prev k).Runs ForksSucceed o ps) :
    (∃ c, o.result = .returned c) ∧ ∃ p ∈ ps, ∃ c, p.result = .returned c := by
  unfold inBackground at h
  rw [if_pos hb] at h
  obtain ⟨ok, rfl, oc, pc, pp, hc, ⟨o', ⟨ho, -⟩, rfl⟩, rfl⟩ := h
  refine ⟨⟨_, by rw [ho]; rfl⟩, oc, by simp, ?_⟩
  exact (hc.every hk).1.2

theorem command_leak {j : Job} {prev : Str} {o : Outcome Event Exit Ctl}
    {ps : List (Outcome Event Exit Ctl)} (hl : j.leaks prev = true)
    (h : (command j prev).Runs ForksSucceed o ps) :
    (∃ c, o.result = .returned c) ∧ ∃ p ∈ ps, ∃ c, p.result = .returned c := by
  simp only [Job.leaks, Bool.and_eq_true, Bool.or_eq_true, decide_eq_true_eq] at hl
  obtain ⟨⟨hb, hn⟩, ⟨⟨hc, hlen⟩, hv⟩ | ⟨hc, hv⟩⟩ := hl
  · have he : command j prev = revealBranch j prev := by simp [command, hc]
    rw [he] at h
    refine inBackground_leak hb ?_ h
    unfold revealValid at hv
    rw [if_neg (by omega)]
    split at hv
    · rename_i args k ho
      simp only [ho]
      rw [if_neg (by simpa using hv), if_pos hn]
      exact redirected_next_tame
    · cases hv
  · have he : command j prev = peekBranch j prev := by simp [command, hc]
    rw [he] at h
    refine inBackground_leak hb ?_ h
    rw [if_neg (by simp [hv]), if_pos hn]
    exact redirected_next_tame

/-! ### Pipelines -/

section Pipelines

variable {allow : ∀ q, Answer q → Prop}

/-- Every stage of a pipeline ends in its child. -/
theorem stageChild_exits (cmd : Str) (args : List Str) (ins : Option (List Str))
    (outs : Option (List (Str × Bool))) (prev : Str) :
    Exits allow Event.silent (stageChild cmd args ins outs prev) := by
  unfold stageChild
  split
  · exact .exit _
  · exact ((redirIn_tame _).mild.bind_exits fun _ => .ite (.exit _) (.exit _)).weaken
      Event.silent_of_plain
  · refine (Tame.event rfl).mild.bind_exits fun _ => Exits.weaken ?_ Event.silent_of_plain
    refine (redirect_mild _ _).bind_exits fun _ => .ite ?_ ?_
    · exact (execBuiltin_tame _ _ _).mild.bind_exits fun _ => .exit _
    · exact (lookup_tame _).mild.bind_exits fun _ => runCmd_exits _ _ _

theorem startStages_tame (home : Home) (prev : Str) (ns : List Node) :
    Tame allow Event.silent (startStages home prev ns) := by
  induction ns with
  | nil => exact .ret ()
  | cons n ns ih =>
    refine ((report_tame _).weaken Event.silent_of_plain).bind fun _ => ?_
    refine ((report_tame _).weaken Event.silent_of_plain).bind fun _ => ?_
    exact .fork ih (stageChild_exits _ _ _ _ _) ih

theorem piped_tame (home : Home) (prev : Str) (ns : List Node) (back : Bool) :
    Tame allow Event.silent (piped home prev ns back) := by
  refine ((makePipes_tame _).weaken Event.silent_of_plain).bind fun _ => .ite ?_ ?_
  · refine (startStages_tame home prev ns).bind fun _ => .ite (Tame.event rfl) ?_
    exact ((waitStages_tame ns).weaken Event.silent_of_plain).bind fun _ =>
      .ite (Tame.event rfl) (.ret ())
  · exact (print_tame _).weaken Event.silent_of_plain

end Pipelines

/-! ### The whole line -/

/-- A run in which the process returns, and in which nobody else does unless a
leaking command was dispatched. -/
def Settled {α : Type} (home : Home) (o : Outcome Event Exit α)
    (ps : List (Outcome Event Exit α)) : Prop :=
  (∃ a, o.result = .returned a) ∧
    ((∀ e ∈ o.events, ¬ LeaksAt home e) ∧ (∀ p ∈ ps, Gone Event.silent p.events p.result) ∨
      (∃ e ∈ o.events, LeaksAt home e) ∧ ∃ p ∈ ps, ∃ a, p.result = .returned a)

/-- A silent event is not a leak. -/
theorem not_leaksAt_of_silent {home : Home} {e : Event} (h : e.silent = true) :
    ¬ LeaksAt home e := by
  cases e <;> simp_all [Event.silent, LeaksAt]

theorem Tame.settled {α : Type} {t : Shell α} {home : Home} {o : Outcome Event Exit α}
    {ps : List (Outcome Event Exit α)} (ht : Tame ForksSucceed Event.silent t)
    (h : t.Runs ForksSucceed o ps) : Settled home o ps := by
  obtain ⟨⟨hs, hr⟩, hps⟩ := h.every ht
  exact ⟨hr, .inl ⟨fun e he => not_leaksAt_of_silent (hs e he), hps⟩⟩

/-- A tame part after an event that is not a leak. -/
theorem Tame.settled_emit {α : Type} {t : Shell α} {home : Home} {e : Event}
    {o : Outcome Event Exit α} {ps : List (Outcome Event Exit α)}
    (ht : Tame ForksSucceed Event.silent t) (he : ¬ LeaksAt home e)
    (h : (Cshell.event e >>= fun _ => t).Runs ForksSucceed o ps) : Settled home o ps := by
  obtain ⟨o', h', rfl⟩ := h
  obtain ⟨⟨hs, hr⟩, hps⟩ := Proc.Runs.every h' ht
  refine ⟨hr, .inl ⟨?_, hps⟩⟩
  intro e' he'
  rcases List.mem_cons.mp he' with rfl | he'
  · exact he
  · exact not_leaksAt_of_silent (hs e' he')

/-- A sequence of settled parts is settled: a process that leaked from the first
part returns from the second. -/
theorem settled_bind {α β : Type} {home : Home} {t : Shell α} {f : α → Shell β}
    {o : Outcome Event Exit β} {ps : List (Outcome Event Exit β)}
    (ht : ∀ o ps, t.Runs ForksSucceed o ps → Settled home o ps)
    (hf : ∀ a o ps, (f a).Runs ForksSucceed o ps → Settled home o ps)
    (h : (t >>= f).Runs ForksSucceed o ps) : Settled home o ps := by
  obtain ⟨o₁, ps₁, qs, h₁, hg, hqs, hps₁, hps⟩ := h.bind_inv
  obtain ⟨⟨a, ha⟩, hset⟩ := ht o₁ ps₁ h₁
  cases hg with
  | gone es x => cases ha
  | @goes es b o₂ _ h₂ =>
    obtain ⟨hr, hset₂⟩ := hf b o₂ qs h₂
    refine ⟨hr, ?_⟩
    rcases hset with ⟨hno, hgone⟩ | ⟨⟨e, he, hl⟩, p, hp, c, hc⟩
    · -- nobody leaked from the first part: the rest decides
      rcases hset₂ with ⟨hno₂, hgone₂⟩ | ⟨⟨e, he, hl⟩, p, hp, hpr⟩
      · refine .inl ⟨?_, ?_⟩
        · intro e he
          exact (List.mem_append.mp he).elim (hno e) (hno₂ e)
        · intro q hq
          rcases hps q hq with hq | ⟨p, hp, q', rs, hgo, hq'⟩
          · exact hgone₂ q hq
          · obtain ⟨hs, x, hx⟩ := hgone p hp
            cases hgo with
            | gone es y =>
              have hq : q = ⟨es, .gone y⟩ := by simpa using hq'
              rw [hq]
              exact ⟨hs, y, rfl⟩
            | goes es h => cases hx
      · exact .inr ⟨⟨e, List.mem_append_right _ he, hl⟩, p, hqs p hp, hpr⟩
    · -- the process that leaked runs the second part, and returns from it
      refine .inr ⟨⟨e, List.mem_append_left _ he, hl⟩, ?_⟩
      obtain ⟨q, rs, hgo, hq⟩ := hps₁ p hp
      cases hgo with
      | gone es x => cases hc
      | @goes es b' o' _ h' =>
        obtain ⟨a', ha'⟩ := (hf b' o' rs h').1
        exact ⟨_, hq, a', ha'⟩

theorem processGroup_settled {home : Home} {prev : Str} {line : List Node}
    {o : Outcome Event Exit Ctl} {ps : List (Outcome Event Exit Ctl)}
    (h : (processGroup home prev line).Runs ForksSucceed o ps) : Settled home o ps := by
  match line with
  | [] => exact (Tame.ret Ctl.brk).settled h
  | n :: ns =>
    by_cases hp : n.piped = true
    · rw [processGroup_piped hp] at h
      have ht : Tame ForksSucceed Event.silent (do
          piped home prev (takeGroup (n :: ns))
            ((takeGroup (n :: ns)).getLast?.any (·.background))
          return Ctl.next (dropGroup (n :: ns)) prev) := (piped_tame _ _ _ _).bind fun _ => .ret _
      exact ht.settled_emit (by simp [LeaksAt, hp]) h
    · rw [Bool.not_eq_true] at hp
      rw [processGroup_single hp] at h
      cases hj : n.job home ns with
      | none =>
        rw [singleCommand_none hj] at h
        exact Tame.settled ((Tame.event rfl).bind fun _ => .ret _) h
      | some j =>
        rw [singleCommand_some hj] at h
        cases hl : j.leaks prev with
        | true =>
          -- the child of the command is back in the loop
          obtain ⟨o', h', rfl⟩ := h
          obtain ⟨hr, hps⟩ := command_leak hl h'
          refine ⟨hr, .inr ⟨⟨.dispatch (n :: ns) prev, List.mem_cons_self, ?_⟩, hps⟩⟩
          simp [LeaksAt, hp, hj, hl]
        | false => exact (command_tame hl).settled_emit (by simp [LeaksAt, hj, hl]) h

theorem processLine_settled {home : Home} {k : ℕ} {line : List Node} {prev : Str}
    {o : Outcome Event Exit Str} {ps : List (Outcome Event Exit Str)}
    (h : (processLine home k line prev).Runs ForksSucceed o ps) : Settled home o ps := by
  -- induction on the turns of the loop
  induction k generalizing line prev o ps with
  | zero =>
    cases line with
    | nil => exact Tame.settled ((Tame.event rfl).bind fun _ => .ret _) h
    | cons n ns => exact Tame.settled (.ret prev) h
  | succ k ih =>
    cases line with
    | nil => exact Tame.settled ((Tame.event rfl).bind fun _ => .ret _) h
    | cons n ns =>
      refine settled_bind (fun _ _ => processGroup_settled) ?_ h
      intro c o' ps' h'
      cases c with
      | next rest prev' => exact ih h'
      | brk => exact Tame.settled ((Tame.event rfl).bind fun _ => .ret _) h'
      | ret => exact Tame.settled (.ret prev) h'

theorem processCmd_settled {home : Home} {prev cmd : Str}
    {o : Outcome Event Exit Str} {ps : List (Outcome Event Exit Str)}
    (h : (processCmd home prev cmd).Runs ForksSucceed o ps) : Settled home o ps := by
  unfold processCmd at h
  split at h
  · exact Tame.settled ((Tame.event rfl).bind fun _ => .ret _) h
  · split at h
    · exact Tame.settled ((Tame.event rfl).bind fun _ => .ret _) h
    · exact processLine_settled h

/-- Only the shell comes back: it returns from the call, and every process forked
on the way is gone without having dispatched a command. -/
def OnlyShellReturns {α : Type} (o : Outcome Event Exit α) (ps : List (Outcome Event Exit α)) :
    Prop :=
  (∃ a, o.result = .returned a) ∧
    ∀ p ∈ ps, (∃ x, p.result = .gone x) ∧ ∀ line prev, Event.dispatch line prev ∉ p.events

/-- **Only the shell returns to the prompt** in exactly the runs that dispatch no
background `reveal` or `peek` with a redirection. -/
theorem only_shell_returns_iff (home : Home) (prev cmd : Str)
    (o : Outcome Event Exit Str) (ps : List (Outcome Event Exit Str))
    (h : (processCmd home prev cmd).Runs ForksSucceed o ps) :
    OnlyShellReturns o ps ↔ ∀ e ∈ o.events, ¬ LeaksAt home e := by
  obtain ⟨hr, ⟨hno, hgone⟩ | ⟨⟨e, he, hl⟩, p, hp, a, ha⟩⟩ := processCmd_settled h
  · -- no leak: the processes left behind are gone, and a dispatch is not silent
    refine iff_of_true ⟨hr, ?_⟩ hno
    intro p hp
    obtain ⟨hs, hx⟩ := hgone p hp
    refine ⟨hx, ?_⟩
    intro line prev' hd
    have hsd := hs _ hd
    simp [Event.silent] at hsd
  · constructor
    · rintro ⟨-, hps⟩
      obtain ⟨⟨x, hx⟩, -⟩ := hps p hp
      rw [hx] at ha
      cases ha
    · intro hno
      exact absurd hl (hno e he)

theorem forksSucceed_allSucceed (q : Query) : ForksSucceed q (allSucceed q) := by
  cases q with
  | fork => rfl
  | pipe | openRead | openWrite | lookup | wait | hop => trivial

/-- `peek f & ls`: two children, both gone, and the shell returns. -/
theorem only_shell_returns_plain_peek :
    OnlyShellReturns
      (((processCmd ⟨['/'], rfl⟩ [] "peek f & ls".toList).exec allSucceed).1)
      (((processCmd ⟨['/'], rfl⟩ [] "peek f & ls".toList).exec allSucceed).2) :=
  (only_shell_returns_iff _ _ _ _ _ (Proc.runs_exec allSucceed forksSucceed_allSucceed _)).mpr
    (by decide +kernel)

/-- `peek > f & ls`: the background child returns to the loop, dispatches `ls`
once more and comes back from the call as a second shell. -/
theorem peek_leaves_second_shell :
    ∃ o ps, (processCmd ⟨['/'], rfl⟩ [] "peek > f & ls".toList).Runs ForksSucceed o ps ∧
      ¬ OnlyShellReturns o ps := by
  refine ⟨_, _, Proc.runs_exec allSucceed forksSucceed_allSucceed _, ?_⟩
  intro h
  have hp : ∃ p ∈ ((processCmd ⟨['/'], rfl⟩ [] "peek > f & ls".toList).exec allSucceed).2,
      p.result = .returned [] := by decide +kernel
  obtain ⟨p, hp, hr⟩ := hp
  obtain ⟨⟨x, hx⟩, -⟩ := h.2 p hp
  rw [hx] at hr
  cases hr

end Cshell
