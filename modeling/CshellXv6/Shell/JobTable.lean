/-
The job table and the exits that have been collected.

An exit collected by `plant` is queued, and `no_longer_waiting` takes the process
out of the table.  An exit collected by a foreground wait is not queued; that is
right when the wait ends with its processes dropped, and wrong when it ends with
a job in the table: a pipeline of which some members exited and others stopped,
a resumed job of that kind, or a resumed job that ran into its timeout.

* `KeepsNone` — the condition on a step: no foreground wait that leaves its job
  in the table has collected an exit, and the queue has room;
* `table_lists_live` — in the runs whose steps all meet it the table lists live
  processes only whenever `no_longer_waiting` returns.
-/
import CshellXv6.Shell.Jobs

namespace Jobs

/-- The exits the current foreground wait has collected. -/
def Mode.collected : Mode → List ℕ
  | .waiting w => w.collected
  | _ => []

/-- The stopped flag of the current foreground wait. -/
def Mode.flag : Mode → Bool
  | .waiting w => w.stopped
  | _ => false

/-- The condition on a step, in the state before it. -/
def KeepsNone (s : State) : Act → Prop
  | .plant ps => s.queue.length + ps.countP (s.child · = .zombie) ≤ 100
  | .finish => s.mode.flag = true → s.mode.collected = []
  | .alarm => s.mode.collected = []
  | _ => True

instance (s : State) : DecidablePred (KeepsNone s)
  | .plant _ => inferInstanceAs (Decidable (_ ≤ _))
  | .finish => inferInstanceAs (Decidable (_ → _))
  | .alarm => inferInstanceAs (Decidable (_ = _))
  | .stop _ | .cont _ | .exit _ | .launch _ _ | .fork _ | .forked | .wait _ | .resumeBg _
  | .resumeFg _ _ | .announce => inferInstanceAs (Decidable True)

/-- A collected exit of a tracked process is queued, unless the current wait has
collected it. -/
def Queued (s : State) : Prop :=
  ∀ p ∈ s.tracked, s.child p = .reaped → p ∈ s.queue ∨ p ∈ s.mode.collected

/-- No job lists a process whose exit was collected, and no job is empty. -/
def LiveTable (s : State) : Prop :=
  ∀ j ∈ s.jobs, j.members ≠ [] ∧ ∀ p ∈ j.members, p < s.next ∧ s.child p ≠ .reaped

/-! ### The handler -/

/-- The handler keeps `Queued` while the queue has room. -/
theorem queued_collect {s : State} {p : ℕ} (h : Queued s)
    (hq : s.child p = .zombie → s.queue.length < 100) : Queued (s.collect p) := by
  intro q hqt hr
  rw [(frame_collect s p).tracked] at hqt
  obtain ⟨hc, he⟩ | ⟨hc, he⟩ | ⟨hc, he⟩ | ⟨-, he⟩ := collect_cases s p
  all_goals rw [he] at hr ⊢
  · by_cases hqp : q = p
    · subst hqp
      simp [State.markSus] at hr
    · exact h q hqt (by simpa [State.markSus, setChild_ne _ hqp] using hr)
  · by_cases hqp : q = p
    · subst hqp
      simp [State.markSus] at hr
    · exact h q hqt (by simpa [State.markSus, setChild_ne _ hqp] using hr)
  · simp only [if_pos (hq hc), List.mem_append, List.mem_singleton]
    by_cases hqp : q = p
    · exact .inl (.inr hqp)
    · rcases h q hqt (by simpa [setChild_ne _ hqp] using hr) with hm | hm
      · exact .inl (.inl hm)
      · exact .inr hm
  · exact h q hqt hr

theorem collect_child_ne {s : State} {p q : ℕ} (h : q ≠ p) :
    (s.collect p).child q = s.child q := by
  obtain ⟨-, he⟩ | ⟨-, he⟩ | ⟨-, he⟩ | ⟨-, he⟩ := collect_cases s p
  all_goals rw [he]
  all_goals simp [State.markSus, setChild_ne _ h]

theorem collect_queue_length (s : State) (p : ℕ) :
    (s.collect p).queue.length ≤ s.queue.length + (if s.child p = .zombie then 1 else 0) := by
  obtain ⟨hc, he⟩ | ⟨hc, he⟩ | ⟨hc, he⟩ | ⟨-, he⟩ := collect_cases s p
  all_goals rw [he]
  · simp [State.markSus, State.setChild]
  · simp [State.markSus, State.setChild]
  · simp only [hc, if_true]
    split <;> simp
  · simp

theorem queued_plant {s : State} {ps : List ℕ} (hn : ps.Nodup) (h : Queued s)
    (hq : s.queue.length + ps.countP (s.child · = .zombie) ≤ 100) :
    Queued (ps.foldl State.collect s) := by
  induction ps generalizing s with
  | nil => exact h
  | cons p ps ih =>
    obtain ⟨hp, hn⟩ := List.nodup_cons.mp hn
    rw [List.countP_cons] at hq
    have hlen := collect_queue_length s p
    -- the statuses still to be collected are as they were
    have hrest : ps.countP ((s.collect p).child · = .zombie) = ps.countP (s.child · = .zombie) :=
      List.countP_congr fun q hqm => by
        have hne : q ≠ p := fun he => hp (he ▸ hqm)
        rw [collect_child_ne hne]
    refine ih hn (queued_collect h ?_) ?_
    · intro hz
      simp only [hz, decide_true, if_true] at hq
      omega
    · rw [hrest]
      by_cases hz : s.child p = .zombie
      · simp only [hz, decide_true, if_true] at hq hlen
        omega
      · simp only [hz, decide_false, if_false, Bool.false_eq_true] at hq hlen
        omega

/-! ### The other steps -/

theorem reaped_of_setChild {s : State} {p q : ℕ} {c : Child} (hc : c ≠ .reaped)
    (h : (s.setChild p c).child q = .reaped) : s.child q = .reaped := by
  by_cases hqp : q = p
  · subst hqp
    rw [setChild_same] at h
    exact absurd h hc
  · rwa [setChild_ne _ hqp] at h

theorem queued_setChild {s : State} {p : ℕ} {c : Child} (h : Queued s) (hc : c ≠ .reaped) :
    Queued (s.setChild p c) := fun q hqt hr => h q hqt (reaped_of_setChild hc hr)

/-- A foreground wait that has moved on. -/
theorem Queued.waitOne {s : State} {w w' : Wait} {child' : ℕ → Child} (h : Queued s)
    (hm : s.mode = .waiting w) (hk : w'.kind = w.kind) (hw : w'.members = w.members)
    (hc : ∀ q, child' q = .reaped → s.child q = .reaped ∨ q ∈ w'.collected)
    (hcol : ∀ q ∈ w.collected, q ∈ w'.collected) :
    Queued { s with child := child', mode := .waiting w' } := by
  intro q hqt hr
  rw [tracked_waiting child' hm hk hw] at hqt
  rcases hc q hr with hr | hr
  · rcases h q hqt hr with hq | hq
    · exact .inl hq
    · rw [hm] at hq
      exact .inr (hcol q hq)
  · exact .inr hr

/-- Fewer tracked processes, none of them of the wait that has ended. -/
theorem Queued.sublist {s s' : State} (h : Queued s) (hc : ∀ p, s'.child p = .reaped → s.child p = .reaped)
    (hq : s'.queue = s.queue) (ht : ∀ p ∈ s'.tracked, p ∈ s.tracked ∧ p ∉ s.mode.collected) :
    Queued s' := by
  intro p hp hr
  rcases h p (ht p hp).1 (hc p hr) with hm | hm
  · exact .inl (hq ▸ hm)
  · exact absurd hm (ht p hp).2

/-- In a table of distinct processes the members of one job are not in the others. -/
theorem not_mem_eraseIdx {t : List (List ℕ)} {i : ℕ} {ms : List ℕ} {p : ℕ}
    (hn : t.flatten.Nodup) (hi : t[i]? = some ms) (hp : p ∈ ms) : p ∉ (t.eraseIdx i).flatten := by
  obtain ⟨hlt, rfl⟩ := List.getElem?_eq_some_iff.mp hi
  have hperm := (List.getElem_cons_eraseIdx_perm hlt).flatten
  rw [List.flatten_cons] at hperm
  have hdis := List.disjoint_of_nodup_append (hperm.nodup_iff.mpr hn)
  exact fun hm => hdis hp hm

/-- The exits a wait has collected are of none of the listed processes when its own
are in no job. -/
theorem Ok.not_collected {s : State} {w : Wait} (h : Ok s) (hm : s.mode = .waiting w)
    (hk : w.kind.isNew = true) {p : ℕ} (hp : p ∈ s.table.flatten) : p ∉ s.mode.collected := by
  intro hc
  have hf := h.fits
  have hn := h.nodup
  rw [State.tracked, hm, extra_waiting hk] at hn
  rw [hm] at hf hc
  exact List.disjoint_of_nodup_append hn hp (hf.2.2.1 p hc)

/-- `SIGCONT` wakes nobody whose exit was collected. -/
theorem continueAll_reaped {s : State} {ps : List ℕ} {p : ℕ}
    (h : (s.continueAll ps).child p = .reaped) : s.child p = .reaped := by
  simp only [State.continueAll] at h
  split at h
  · cases h
  · exact h

/-- `no_longer_waiting` leaves no process in the table whose exit was collected. -/
theorem announce_live {s : State} (hok : Ok s) (h : Queued s) (hm : s.mode = .prompt) {p : ℕ}
    (hp : p ∈ State.tracked { s with
      jobs := s.queue.foldl (fun js p => announceBg p js) s.jobs, queue := [] }) :
    s.child p ≠ .reaped := by
  have hd := announce_flatten s.queue s.jobs
  have hn : (s.jobs.map (·.members)).flatten.Nodup := (List.nodup_append'.mp hok.nodup).1
  simp only [State.tracked, State.table, hm, Mode.extra, List.append_nil] at hp
  rw [hd, hn.mem_sdiff_iff] at hp
  intro hr
  rcases h p (List.mem_append_left _ hp.1) hr with hq | hq
  · exact hp.2 hq
  · simp [hm, Mode.collected] at hq

theorem Queued.fork {s : State} {l : Launch} {pids : List ℕ} {left : ℕ} (h : Queued s)
    (hm : s.mode = .forking l pids (left + 1)) :
    Queued { s.setChild s.next (.running false) with
      next := s.next + 1, mode := .forking l (pids ++ [s.next]) left } := by
  intro p hp hr
  by_cases hpn : p = s.next
  · subst hpn
    simp [State.setChild] at hr
  · have hmem : p ∈ s.tracked := by
      simpa [State.tracked, State.table, State.setChild, Mode.extra, hm, hpn] using hp
    rcases h p hmem (by simpa [State.setChild, hpn] using hr) with hq | hq
    · exact .inl hq
    · simp [hm, Mode.collected] at hq

theorem Queued.move {s s' : State} {a : Act} (h : Queued s) (hok : Ok s) (hg : KeepsNone s a)
    (hs : Move s a s') : Queued s' := by
  -- outside a wait nothing is collected, and a wait that keeps its job has collected nothing
  have hnone : ∀ p, s.mode = .prompt → p ∉ s.mode.collected := by
    intro p hm
    simp [hm, Mode.collected]
  have hforking : ∀ {l : Launch} {pids : List ℕ} p, s.mode = .forking l pids 0 →
      p ∉ s.mode.collected := by
    intro l pids p hm
    simp [hm, Mode.collected]
  have hkeep : ∀ {w : Wait} p, a = .finish → s.mode = .waiting w → w.stopped = true →
      p ∉ s.mode.collected := by
    rintro w p rfl hm hst
    rw [hg (by simp [hm, Mode.flag, hst])]
    simp
  cases hs with
  | stop | cont | exit => exact queued_setChild h (by simp)
  | plant hps =>
    have hn : s.pending.Nodup := List.nodup_range.filter _
    exact queued_plant (hps.nodup_iff.mpr hn) h hg
  | launch hm =>
    refine h.sublist (fun _ hr => hr) rfl fun p hp => ⟨?_, hnone p hm⟩
    simpa [State.tracked, State.table, Mode.extra, hm] using hp
  | fork hm => exact h.fork hm
  | register hm =>
    refine h.sublist (fun _ hr => hr) rfl fun p hp => ⟨?_, hforking p hm⟩
    simpa [State.tracked, State.table, State.assign, Mode.extra, hm] using hp
  | await hm _ hk =>
    refine h.sublist (fun _ hr => hr) rfl fun p hp => ⟨?_, hforking p hm⟩
    rw [State.tracked, extra_waiting hk] at hp
    rw [State.tracked, hm]
    exact hp
  | waitStop hm ht hc =>
    refine h.waitOne hm rfl rfl ?_ fun q hq => hq
    intro q hr
    exact .inl (reaped_of_setChild (by simp) hr)
  | @waitExit w p ps _ hm ht hc =>
    refine h.waitOne hm rfl rfl ?_ fun q hq => List.mem_cons_of_mem p hq
    intro q hr
    by_cases hqp : q = p
    · exact .inr (by simp [hqp])
    · exact .inl (by rwa [setChild_ne _ hqp] at hr)
  | waitFail hm => exact h.waitOne hm rfl rfl (fun q hr => .inl hr) fun q hq => hq
  | alarm hm hk =>
    refine h.sublist (fun _ hr => hr) rfl fun p hp => ⟨?_, by rw [hg]; simp⟩
    exact List.mem_append_left _ (by simpa [State.tracked, State.table, Mode.extra] using hp)
  | keep hm hk hst =>
    refine h.sublist (fun _ hr => hr) rfl fun p hp => ⟨?_, hkeep p rfl hm hst⟩
    rw [State.tracked, hm, extra_waiting hk]
    simpa [State.tracked, State.table, State.assign, Mode.extra] using hp
  | drop hm hk _ =>
    refine h.sublist (fun _ hr => hr) rfl ?_
    intro p hp
    have hp : p ∈ s.table.flatten := by simpa [State.tracked, State.table, Mode.extra] using hp
    exact ⟨List.mem_append_left _ hp, hok.not_collected hm hk hp⟩
  | @suspend w i t hm _ hst =>
    refine h.sublist (fun _ hr => hr) rfl fun p hp => ⟨?_, hkeep p rfl hm hst⟩
    have ht : State.table { s.setSus i true with mode := .prompt } = s.table := setSus_table s i true
    rw [State.tracked, ht] at hp
    exact List.mem_append_left _ (by simpa [Mode.extra] using hp)
  | @remove w i t hm hk _ =>
    refine h.sublist (fun _ hr => hr) rfl ?_
    intro p hp
    rw [State.tracked, eraseIdx_table] at hp
    have hp : p ∈ (s.table.eraseIdx i).flatten := by simpa [Mode.extra] using hp
    refine ⟨List.mem_append_left _ ((List.eraseIdx_sublist _ _).flatten.subset hp), ?_⟩
    intro hc
    have hf := hok.fits
    rw [hm] at hf hc
    exact not_mem_eraseIdx (List.nodup_append'.mp hok.nodup).1 (hf.2.2.2 i t hk) (hf.2.2.1 p hc) hp
  | @resumeBg i j hm hj =>
    refine h.sublist (fun _ => continueAll_reaped) rfl fun p hp => ⟨?_, hnone p hm⟩
    rwa [(frame_resume s i j.members).tracked] at hp
  | @resumeFg i t j hm hj =>
    refine h.sublist (fun _ => continueAll_reaped) rfl fun p hp => ⟨?_, hnone p hm⟩
    refine List.mem_append_left _ ?_
    rw [← (frame_resume s i j.members).table]
    simpa [State.tracked, State.table, Mode.extra, Wait.start] using hp
  | announce hm =>
    intro p hp hr
    exact absurd hr (announce_live hok h hm hp)

/-- In every run whose steps meet the condition. -/
theorem queued_of_reachable {s : State} (h : (sys.restrict KeepsNone).Reachable s) : Queued s := by
  refine sys.restrict_invariant (I := Queued) ?_ ?_ h
  · intro s hs
    simp [show s = boot from hs, Queued, boot]
  · intro s a s' hr hi hg hs
    exact hi.move (ok_of_reachable hr) hg (step_move hs)

/-- **The job table lists live processes only** whenever `no_longer_waiting` returns,
in every run in which no foreground wait that leaves its job in the table has
collected an exit and no exit finds the queue full. -/
theorem table_lists_live (s s' : State) (h : (sys.restrict KeepsNone).Reachable s)
    (hs : step s .announce = some s') : LiveTable s' := by
  have hok := ok_of_reachable (sys.reachable_of_restrict h)
  have hq := queued_of_reachable h
  have hok' := hok.move (step_move hs)
  intro j hj
  have hms : j.members ∈ s'.table := List.mem_map_of_mem hj
  refine ⟨hok'.nonempty _ hms, ?_⟩
  intro p hp
  have hpt : p ∈ s'.tracked := List.mem_append_left _ (List.mem_flatten_of_mem hms hp)
  refine ⟨hok'.lt p hpt, ?_⟩
  cases step_move hs with
  | announce hm => exact announce_live hok hq hm hpt

/-- A background job exits, the handler collects it, and the next prompt has an
empty table. -/
def backgroundExits : List Act :=
  [.launch .background 1, .fork false, .forked, .exit 0, .plant [0]]

/-- The table is empty, as it should be. -/
theorem table_lists_live_background :
    ∃ s s', (sys.restrict KeepsNone).Reachable s ∧ step s .announce = some s' ∧ LiveTable s' ∧
      s'.jobs = [] := by
  have hr : ((sys.restrict KeepsNone).runFrom boot backgroundExits).isSome := by decide +kernel
  obtain ⟨s, hs⟩ := Option.isSome_iff_exists.mp hr
  have hreach := Sys.reachable_runFrom _ (.init rfl) hs
  have ha : (((sys.restrict KeepsNone).runFrom boot backgroundExits).bind
      (step · .announce)).map (·.jobs) = some [] := by decide +kernel
  rw [hs, Option.bind_some, Option.map_eq_some_iff] at ha
  obtain ⟨s', hs', hj⟩ := ha
  exact ⟨s, s', hreach, hs', table_lists_live s s' hreach hs', hj⟩

/-- A pipeline of two: the first member exits, the second stops. -/
def exitThenStop : List Act :=
  [.launch .piped 2, .fork false, .fork false, .forked, .exit 0, .wait false, .stop 1, .wait false,
    .finish]

/-- The exit of the first member was collected by the wait, and the job that the
second one leaves in the table lists both. -/
theorem dead_member_listed :
    ∃ s s', sys.Reachable s ∧ s.queue.length ≤ 100 ∧ step s .announce = some s' ∧
      ¬ LiveTable s' := by
  have hr : ((sys.runFrom boot exitThenStop).bind fun s =>
      (step s .announce).map fun s' => (s.queue, s'.jobs.map (·.members), s'.child 0)) =
      some ([], [[0, 1]], .reaped) := by decide +kernel
  obtain ⟨s, hs, hr⟩ := Option.bind_eq_some_iff.mp hr
  obtain ⟨s', hs', he⟩ := Option.map_eq_some_iff.mp hr
  simp only [Prod.mk.injEq] at he
  obtain ⟨hq, ht, hc⟩ := he
  refine ⟨s, s', Sys.reachable_runFrom _ (.init rfl) hs, by simp [hq], hs', ?_⟩
  intro hl
  obtain ⟨j, hj, hm⟩ := List.mem_map.mp (ht ▸ List.mem_cons_self : [0, 1] ∈ s'.jobs.map (·.members))
  exact (hl j hj).2 0 (by simp [hm]) |>.2 hc

end Jobs
