/-
Foreground waits and the handler.

The handler `plant` and the foreground waits of `piped`, `resume` and
`process_cmd` collect the same statuses, and SIGCHLD is not blocked while a
foreground job is forked and waited for.  A stop that `plant` takes from a
member leaves the wait blocked on it; an exit that it takes makes `waitpid`
return -1, and the flag is computed from a status nobody has set.

* `WaitOk` — what a foreground wait should do;
* `Undisturbed` — the condition on a step: the handler runs only while no
  member still to be waited for has a stop or an exit to collect, a job is
  resumed only with all its exits uncollected, and a member found stopped does
  not leave that state as the last of them;
* `wait_ok_of_undisturbed` — the waits of the runs whose steps all meet it.
-/
import CshellXv6.Shell.Jobs

namespace Jobs

/-- The foreground processes that are still to be waited for. -/
def Mode.todo : Mode → List ℕ
  | .prompt => []
  | .forking l pids _ => if l = .background then [] else pids
  | .waiting w => w.todo

/-- The foreground processes that have been waited for. -/
def Mode.awaited : Mode → List ℕ
  | .waiting w => w.members.filter (· ∉ w.todo)
  | _ => []

/-- A foreground wait does not block on a member whose stop the handler has
taken, computes its flag from statuses it was given, and ends with the flag set
exactly when a member is stopped. -/
def WaitOk (s : State) : Prop :=
  ∀ w, s.mode = .waiting w →
    (∀ p ps, w.todo = p :: ps → s.child p ≠ .stopped false) ∧ w.failed = false ∧
      (w.todo = [] → (w.stopped = true ↔ ∃ p ∈ w.members, (s.child p).isStopped = true))

/-- The condition on a step, in the state before it. -/
def Undisturbed (s : State) : Act → Prop
  | .plant _ => ∀ p ∈ s.mode.todo, s.child p ≠ .stopped true ∧ s.child p ≠ .zombie
  | .cont p | .exit p => p ∈ s.mode.awaited → (s.child p).isStopped = true →
      ∃ q ∈ s.mode.awaited, q ≠ p ∧ (s.child q).isStopped = true
  | .resumeFg i _ => ∀ j ∈ s.jobs[i]?.toList, ∀ p ∈ j.members, s.child p ≠ .reaped
  | _ => True

instance (s : State) : DecidablePred (Undisturbed s)
  | .plant _ => inferInstanceAs (Decidable (∀ p ∈ s.mode.todo, _))
  | .cont _ | .exit _ => inferInstanceAs (Decidable (_ → _ → ∃ q ∈ s.mode.awaited, _))
  | .resumeFg i _ => inferInstanceAs (Decidable (∀ j ∈ s.jobs[i]?.toList, ∀ p ∈ j.members, _))
  | .stop _ | .launch _ _ | .fork _ | .forked | .wait _ | .alarm | .finish | .resumeBg _
  | .announce => inferInstanceAs (Decidable True)

/-- A member to be waited for: neither its last stop nor its exit is lost. -/
def Fresh (c : Child) : Prop := c ≠ .stopped false ∧ c ≠ .reaped

/-- The invariant of the foreground: the members to be waited for are fresh; the
flag says that a member waited for is stopped, and it is set as soon as one of
them has not exited. -/
def FgInv (child : ℕ → Child) : Mode → Prop
  | .prompt => True
  | .forking l pids _ => l ≠ .background → ∀ p ∈ pids, Fresh (child p)
  | .waiting w => (∀ p ∈ w.todo, Fresh (child p)) ∧
      (w.stopped = true → ∃ p ∈ w.members, p ∉ w.todo ∧ (child p).isStopped = true) ∧
      (∀ p ∈ w.members, p ∉ w.todo → child p ≠ .reaped → w.stopped = true) ∧ w.failed = false

theorem mem_awaited {w : Wait} {p : ℕ} :
    p ∈ (Mode.waiting w).awaited ↔ p ∈ w.members ∧ p ∉ w.todo := by simp [Mode.awaited]

/-- The members of a wait are tracked and distinct. -/
theorem Ok.waiting {s : State} {w : Wait} (h : Ok s) (hm : s.mode = .waiting w) :
    w.members.Nodup ∧ ∀ p ∈ w.members, p ∈ s.tracked := by
  have hf := h.fits
  rw [hm] at hf
  cases hk : w.kind with
  | piped | external =>
    have he : s.mode.extra = w.members := by simp [hm, Mode.extra, hk]
    refine ⟨he ▸ (List.nodup_append'.mp h.nodup).2.1, ?_⟩
    intro p hp
    exact List.mem_append_right _ (he ▸ hp)
  | resume i t =>
    have hmem := List.mem_of_getElem? (hf.2.2.2 i t hk)
    have hsub := List.sublist_flatten_of_mem hmem
    refine ⟨(List.nodup_append'.mp h.nodup).1.sublist hsub, ?_⟩
    intro p hp
    exact List.mem_append_left _ (hsub.subset hp)

/-! ### Children -/

/-- One child changes: a fresh one stays fresh, one that was not reaped before may
not be the last one stopped. -/
theorem FgInv.setChild {s : State} {p : ℕ} {c : Child} (h : FgInv s.child s.mode)
    (hf : Fresh c) (hr : s.child p ≠ .reaped)
    (hs : c.isStopped = false → p ∈ s.mode.awaited → (s.child p).isStopped = true →
      ∃ q ∈ s.mode.awaited, q ≠ p ∧ (s.child q).isStopped = true) :
    FgInv (s.setChild p c).child s.mode := by
  have hfresh : ∀ q, Fresh (s.child q) → Fresh ((s.setChild p c).child q) := by
    intro q hq
    by_cases hqp : q = p
    · rw [hqp, setChild_same]
      exact hf
    · rwa [setChild_ne c hqp]
  cases hm : s.mode with
  | prompt => trivial
  | forking l pids left =>
    rw [hm] at h
    exact fun hl q hq => hfresh q (h hl q hq)
  | waiting w =>
    rw [hm] at h hs
    obtain ⟨htodo, hflag, hset, hfail⟩ := h
    refine ⟨fun q hq => hfresh q (htodo q hq), ?_, ?_, hfail⟩
    · intro hw
      obtain ⟨q, hq, hqt, hqs⟩ := hflag hw
      by_cases hqp : q = p
      · subst hqp
        cases hcs : c.isStopped with
        | true => exact ⟨q, hq, hqt, by rw [setChild_same]; exact hcs⟩
        | false =>
          obtain ⟨r, hra, hrq, hrs⟩ := hs hcs (mem_awaited.mpr ⟨hq, hqt⟩) hqs
          obtain ⟨hr₁, hr₂⟩ := mem_awaited.mp hra
          exact ⟨r, hr₁, hr₂, by rwa [setChild_ne c hrq]⟩
      · exact ⟨q, hq, hqt, by rwa [setChild_ne c hqp]⟩
    · intro q hq hqt hqr
      by_cases hqp : q = p
      · subst hqp
        exact hset q hq hqt hr
      · rw [setChild_ne c hqp] at hqr
        exact hset q hq hqt hqr

/-! ### The handler -/

/-- A child whose status has been collected. -/
def Child.settle : Child → Child
  | .stopped _ => .stopped false
  | .running _ => .running false
  | .zombie => .reaped
  | c => c

@[simp] theorem settle_settle (c : Child) : c.settle.settle = c.settle := by cases c <;> rfl

theorem settle_of_not_pending {c : Child} (h : c.pending = false) : c.settle = c := by
  cases c <;> simp_all [Child.pending, Child.settle]

theorem collect_child (s : State) (p q : ℕ) :
    (s.collect p).child q = if q = p then (s.child p).settle else s.child q := by
  obtain ⟨hc, he⟩ | ⟨hc, he⟩ | ⟨hc, he⟩ | ⟨hc, he⟩ := collect_cases s p
  · simp [he, hc, State.markSus, State.setChild, Child.settle]
  · simp [he, hc, State.markSus, State.setChild, Child.settle]
  · simp [he, hc, State.setChild, Child.settle]
  · rw [he, settle_of_not_pending hc]
    split
    · rename_i hqp
      rw [hqp]
    · rfl

theorem foldl_collect_child (s : State) (ps : List ℕ) (q : ℕ) :
    (ps.foldl State.collect s).child q = if q ∈ ps then (s.child q).settle else s.child q := by
  induction ps generalizing s with
  | nil => simp
  | cons p ps ih =>
    rw [List.foldl_cons, ih, collect_child]
    by_cases hqp : q = p
    · subst hqp
      by_cases hq : q ∈ ps <;> simp [hq]
    · simp [hqp]

/-- `plant` collects every status. -/
theorem plant_child {s : State} {ps : List ℕ} (hok : Ok s) (hp : ps.Perm s.pending) (q : ℕ) :
    (ps.foldl State.collect s).child q = (s.child q).settle := by
  rw [foldl_collect_child]
  split
  · rfl
  · rename_i hq
    refine (settle_of_not_pending ?_).symm
    rw [hp.mem_iff] at hq
    by_cases hlt : q < s.next
    · simpa [State.pending, hlt] using hq
    · rw [(hok.born q).mpr (Nat.le_of_not_lt hlt)]
      rfl

theorem FgInv.plant {child : ℕ → Child} {m : Mode} (h : FgInv child m)
    (hg : ∀ p ∈ m.todo, child p ≠ .stopped true ∧ child p ≠ .zombie) :
    FgInv (fun q => (child q).settle) m := by
  have hfresh : ∀ p ∈ m.todo, Fresh (child p) → Fresh (child p).settle := by
    intro p hp hf
    obtain ⟨h₁, h₂⟩ := hg p hp
    obtain ⟨h₃, h₄⟩ := hf
    cases hc : child p with
    | stopped b => cases b <;> simp_all
    | unborn | running | zombie | reaped => simp_all [Fresh, Child.settle]
  cases m with
  | prompt => trivial
  | forking l pids left =>
    intro hl p hp
    exact hfresh p (by simpa [Mode.todo, hl] using hp) (h hl p hp)
  | waiting w =>
    obtain ⟨htodo, hflag, hset, hfail⟩ := h
    refine ⟨fun p hp => hfresh p hp (htodo p hp), ?_, ?_, hfail⟩
    · intro hw
      obtain ⟨p, hp, hpt, hps⟩ := hflag hw
      refine ⟨p, hp, hpt, ?_⟩
      cases hc : child p <;> simp_all [Child.isStopped, Child.settle]
    · intro p hp hpt hr
      refine hset p hp hpt fun hc => hr ?_
      show (child p).settle = .reaped
      rw [hc]
      rfl

/-! ### The main program -/

/-- A wait that starts with fresh members. -/
theorem fgInv_start {child : ℕ → Child} {kind : Fg} {pids : List ℕ}
    (h : ∀ p ∈ pids, Fresh (child p)) : FgInv child (.waiting (.start kind pids)) := by
  refine ⟨h, ?_, fun p hp hpt => absurd hp hpt, rfl⟩
  intro hw
  simp [Wait.start] at hw

/-- The first member left to be waited for is not among the others. -/
theorem Ok.todo_head {s : State} {w : Wait} {p : ℕ} {ps : List ℕ} (h : Ok s)
    (hm : s.mode = .waiting w) (ht : w.todo = p :: ps) : p ∈ w.members ∧ p ∉ ps := by
  have hf := h.fits
  rw [hm] at hf
  have hn := (h.waiting hm).1.sublist hf.2.1.sublist
  rw [ht] at hn
  exact ⟨hf.2.1.subset (by simp [ht]), (List.nodup_cons.mp hn).1⟩

/-- A collected status of the first member leaves the others fresh. -/
theorem fresh_rest {s : State} {p : ℕ} {ps : List ℕ} {c : Child} (hp : p ∉ ps)
    (h : ∀ q ∈ p :: ps, Fresh (s.child q)) : ∀ q ∈ ps, Fresh ((s.setChild p c).child q) := by
  intro q hq
  have hqp : q ≠ p := fun he => hp (he ▸ hq)
  rw [setChild_ne _ hqp]
  exact h q (List.mem_cons_of_mem p hq)

/-- A wait that is given a stop: its member has been waited for and is stopped. -/
theorem FgInv.waitStop {s : State} {w : Wait} {p : ℕ} {ps : List ℕ} (hok : Ok s)
    (hm : s.mode = .waiting w) (ht : w.todo = p :: ps) (h : FgInv s.child (.waiting w)) :
    FgInv (s.setChild p (.stopped false)).child
      (.waiting { w with todo := ps, stopped := true }) := by
  obtain ⟨hpm, hps⟩ := hok.todo_head hm ht
  obtain ⟨htodo, -, -, hfail⟩ := h
  rw [ht] at htodo
  refine ⟨fresh_rest hps htodo, ?_, fun _ _ _ _ => rfl, hfail⟩
  intro _
  refine ⟨p, hpm, hps, ?_⟩
  rw [setChild_same]
  rfl

/-- A wait that is given an exit: its member is gone. -/
theorem FgInv.waitExit {s : State} {w : Wait} {p : ℕ} {ps : List ℕ} (hok : Ok s)
    (hm : s.mode = .waiting w) (ht : w.todo = p :: ps) (h : FgInv s.child (.waiting w)) :
    FgInv (s.setChild p .reaped).child
      (.waiting { w with todo := ps, collected := p :: w.collected }) := by
  obtain ⟨-, hps⟩ := hok.todo_head hm ht
  obtain ⟨htodo, hflag, hset, hfail⟩ := h
  rw [ht] at htodo hflag hset
  refine ⟨fresh_rest hps htodo, ?_, ?_, hfail⟩
  · intro hw
    obtain ⟨q, hq, hqt, hqs⟩ := hflag hw
    have hqp : q ≠ p := fun he => hqt (by simp [he])
    refine ⟨q, hq, fun hmem => hqt (List.mem_cons_of_mem p hmem), ?_⟩
    rwa [setChild_ne _ hqp]
  · intro q hq hqt hr
    have hqp : q ≠ p := fun he => hr (by rw [he, setChild_same])
    rw [setChild_ne _ hqp] at hr
    exact hset q hq (fun hmem => (List.mem_cons.mp hmem).elim hqp hqt) hr

theorem FgInv.fork {s : State} {l : Launch} {pids : List ℕ} {left : ℕ}
    (h : FgInv s.child s.mode) (hok : Ok s) (hm : s.mode = .forking l pids (left + 1)) :
    FgInv (s.setChild s.next (.running false)).child (.forking l (pids ++ [s.next]) left) := by
  rw [hm] at h
  intro hl p hp
  rcases List.mem_append.mp hp with hp | hp
  · have hlt : p < s.next :=
      hok.lt p (List.mem_append_right _ (by simpa [hm, Mode.extra] using hp))
    rw [setChild_ne _ (by omega)]
    exact h hl p hp
  · rw [List.mem_singleton.mp hp, setChild_same]
    simp [Fresh]

/-- `SIGCONT` to a job none of whose exits is lost. -/
theorem fresh_continueAll {s : State} {ps : List ℕ} (h : ∀ p ∈ ps, s.child p ≠ .reaped) :
    ∀ p ∈ ps, Fresh ((s.continueAll ps).child p) := by
  intro p hp
  show Fresh (if p ∈ ps ∧ (s.child p).isStopped = true then .running true else s.child p)
  split
  · simp [Fresh]
  · rename_i hn
    exact ⟨fun hc => hn ⟨hp, by simp [hc, Child.isStopped]⟩, h p hp⟩

theorem FgInv.move {s s' : State} {a : Act} (h : FgInv s.child s.mode) (hok : Ok s)
    (hg : Undisturbed s a) (hs : Move s a s') : FgInv s'.child s'.mode := by
  have hprompt : ∀ {c : ℕ → Child}, s.mode = .prompt → FgInv c s.mode := by
    intro c hm
    rw [hm]
    trivial
  cases hs with
  | stop hc => exact h.setChild (by simp [Fresh]) (by simp [hc]) (by simp [Child.isStopped])
  | cont hc => exact h.setChild (by simp [Fresh]) (by simp [hc]) fun _ => hg
  | exit hc =>
    refine h.setChild (by simp [Fresh]) ?_ fun _ => hg
    rcases hc with hc | hc <;> simp [hc]
  | plant hps =>
    rw [(frame_plant s _).mode, funext (plant_child hok hps)]
    exact h.plant hg
  | launch => simp [FgInv]
  | fork hm => exact h.fork hok hm
  | await hm hl _ =>
    rw [hm] at h
    exact fgInv_start (h hl)
  | waitStop hm ht _ => exact .waitStop hok hm ht (hm ▸ h)
  | waitExit hm ht _ => exact .waitExit hok hm ht (hm ▸ h)
  | @waitFail w p ps _ hm ht hc =>
    -- `waitpid` cannot return -1: the exit of the member is not lost
    exfalso
    rw [hm] at h
    rcases hc with hc | hc
    · exact (h.1 p (by simp [ht])).2 hc
    · have hlt := hok.lt p ((hok.waiting hm).2 p (hok.todo_head hm ht).1)
      exact absurd hlt (Nat.not_lt.mpr ((hok.born p).mp hc))
  | register | alarm | keep | drop | suspend | remove => trivial
  | resumeBg hm | announce hm => exact hprompt hm
  | @resumeFg i t j _ hj =>
    exact fgInv_start (fresh_continueAll fun p hp => hg j (by simp [hj]) p hp)

theorem fg_of_reachable {s : State} (h : (sys.restrict Undisturbed).Reachable s) :
    FgInv s.child s.mode := by
  refine sys.restrict_invariant (I := fun s => FgInv s.child s.mode) ?_ ?_ h
  · intro s hs
    rw [show s = boot from hs]
    trivial
  · intro s a s' hr hi hg hs
    exact hi.move (ok_of_reachable hr) hg (step_move hs)

/-- **The foreground waits lose no status** in the runs whose steps all meet the
condition. -/
theorem wait_ok_of_undisturbed (s : State) (h : (sys.restrict Undisturbed).Reachable s) :
    WaitOk s := by
  intro w hm
  have hi := fg_of_reachable h
  rw [hm] at hi
  obtain ⟨htodo, hflag, hset, hfail⟩ := hi
  refine ⟨fun p ps ht => (htodo p (by simp [ht])).1, hfail, fun ht => ⟨fun hw => ?_, ?_⟩⟩
  · obtain ⟨p, hp, -, hs⟩ := hflag hw
    exact ⟨p, hp, hs⟩
  · rintro ⟨p, hp, hs⟩
    refine hset p hp (by simp [ht]) ?_
    intro hr
    simp [hr, Child.isStopped] at hs

/-- A pipeline of two in the foreground: one member exits, the other stops, and
the waits see both. -/
def exitAndStop : List Act :=
  [.launch .piped 2, .fork false, .fork false, .forked, .stop 1, .exit 0, .wait false, .wait false]

/-- The flag is set and the second member is stopped. -/
theorem wait_ok_exitAndStop :
    ∃ s, (sys.restrict Undisturbed).Reachable s ∧ WaitOk s ∧
      s.mode = .waiting ⟨.piped, [0, 1], [], true, [0], false⟩ := by
  obtain ⟨s, hreach, hm⟩ := (sys.restrict Undisturbed).exists_of_run exitAndStop (.init rfl)
    (p := fun s => s.mode = .waiting ⟨.piped, [0, 1], [], true, [0], false⟩) (by decide +kernel)
  exact ⟨s, hreach, wait_ok_of_undisturbed s hreach, hm⟩

/-- The first member of a pipeline stops, and `plant` runs before the waits. -/
def stolenStop : List Act :=
  [.launch .piped 2, .fork false, .fork false, .stop 0, .plant [0], .forked]

/-- The wait blocks on a member whose stop the handler has taken. -/
theorem stop_stolen_by_plant : ∃ s, sys.Reachable s ∧ ¬ WaitOk s := by
  obtain ⟨s, hreach, hm, hc⟩ := sys.exists_of_run stolenStop (.init rfl)
    (p := fun s => s.mode = .waiting (.start .piped [0, 1]) ∧ s.child 0 = .stopped false)
    (by decide +kernel)
  refine ⟨s, hreach, ?_⟩
  intro hw
  exact (hw _ hm).1 0 [1] rfl hc

end Jobs
