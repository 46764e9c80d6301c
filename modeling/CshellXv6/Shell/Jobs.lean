/-
Children, job table and foreground waits of the shell (`c-shell/src/main.c`,
`piped` of `command.c`, `resume` of `bins.c`).

The kernel keeps at most one uncollected status of each child.  Two parts of the
shell collect them: the handler `plant`, which may run between any two steps
and then drains all of them, and the foreground waits, which take the members
of a pipeline, an external command or a resumed job one after another.  Exits
that `plant` collects are queued, at most 100 of them, and `no_longer_waiting`
takes the queued processes out of the job table.

A child may be a copy of the shell that goes on to `no_longer_waiting` itself:
`activities` with a redirection or in the background, and `reveal` or `peek` with
both, which goes on with the line.  Its table and its queue are its own; of the jobs
of the shell it has in them what is there when it is forked.

Forks succeed here and process ids are not used twice.  The texts of a job (`cmd`, `name`,
`full_cmd`) and the exit code kept with a queued exit are only printed and are
left out.

* `step` — one step of the shell, of a child or of the handler;
* `sys` — the system of all runs;
* `Move` — what a step can do, one constructor for each effect;
* `Ok` — what holds of the table in every run.
-/
import CshellXv6.Lib.Transition
import Mathlib.Data.List.Perm.Basic
import Mathlib.Data.List.Nodup
import Mathlib.Data.List.Flatten
import Mathlib.Data.List.InsertIdx

namespace Jobs

/-- A child process and its uncollected status: a continue, a stop, or the exit
of a zombie. -/
inductive Child
  | unborn
  | running (pending : Bool)
  | stopped (pending : Bool)
  | zombie
  | reaped
  deriving DecidableEq, Repr

def Child.pending : Child → Bool
  | .running b | .stopped b => b
  | .zombie => true
  | .unborn | .reaped => false

def Child.isStopped : Child → Bool
  | .stopped _ => true
  | _ => false

/-- An entry of `bg_list`. -/
structure Bg where
  job : ℕ
  pgid : ℕ
  members : List ℕ
  sus : Bool
  deriving DecidableEq, Repr

/-- What is being forked. -/
inductive Launch
  | background
  | piped
  | external
  deriving DecidableEq, Repr

/-- The three foreground waits; `resume` has the index of its job, and a wait
with `--timeout` may be ended by the alarm. -/
inductive Fg
  | piped
  | external
  | resume (i : ℕ) (timeout : Bool)
  deriving DecidableEq, Repr

/-- A foreground wait.  `stopped` is the flag of the source (`any_stopped`,
`stopped`).  Two fields record the run: `collected` the exits its `waitpid`
calls took, `failed` that the flag was computed after a `waitpid` returned -1. -/
structure Wait where
  kind : Fg
  members : List ℕ
  todo : List ℕ
  stopped : Bool
  collected : List ℕ
  failed : Bool
  deriving DecidableEq, Repr

/-- Where the main program is. -/
inductive Mode
  | prompt
  | forking (l : Launch) (pids : List ℕ) (left : ℕ)
  | waiting (w : Wait)
  deriving DecidableEq, Repr

structure State where
  child : ℕ → Child
  next : ℕ
  jobs : List Bg
  nextJob : ℕ
  queue : List ℕ
  mode : Mode

/-- `copy` says that the child is a copy of the shell that gets to
`no_longer_waiting`. -/
inductive Act
  | stop (p : ℕ)
  | cont (p : ℕ)
  | exit (p : ℕ)
  | plant (ps : List ℕ)
  | launch (l : Launch) (n : ℕ)
  | fork (copy : Bool)
  | forked
  | wait (junk : Bool)
  | alarm
  | finish
  | resumeBg (i : ℕ)
  | resumeFg (i : ℕ) (timeout : Bool)
  | announce
  deriving DecidableEq, Repr

namespace State

variable (s : State)

def setChild (p : ℕ) (c : Child) : State :=
  { s with child := fun q => if q = p then c else s.child q }

/-- The children with an uncollected status. -/
def pending : List ℕ := (List.range s.next).filter fun p => (s.child p).pending

/-- Set `sus` in the jobs that have `p` as a member. -/
def markSus (p : ℕ) (b : Bool) : State :=
  { s with jobs := s.jobs.map fun j => if p ∈ j.members then { j with sus := b } else j }

/-- One round of the loop of `plant`; an exit is dropped when the queue is full. -/
def collect (p : ℕ) : State :=
  match s.child p with
  | .stopped true => (s.setChild p (.stopped false)).markSus p true
  | .running true => (s.setChild p (.running false)).markSus p false
  | .zombie =>
    { s.setChild p .reaped with
      queue := if s.queue.length < 100 then s.queue ++ [p] else s.queue }
  | _ => s

/-- `assign_bg`, `assign_bg_multi`, `assign_stopped` and `assign_stopped_multi`. -/
def assign (pids : List ℕ) (sus : Bool) : State :=
  { s with
    jobs := s.jobs ++ [⟨s.nextJob, pids.headD 0, pids, sus⟩]
    nextJob := s.nextJob + 1 }

/-- `killpg(pgid, SIGCONT)`: the stopped members go on. -/
def continueAll (pids : List ℕ) : State :=
  { s with child := fun q =>
      if q ∈ pids ∧ (s.child q).isStopped = true then .running true else s.child q }

/-- Set `sus` of the job at index `i`. -/
def setSus (i : ℕ) (b : Bool) : State :=
  { s with jobs := s.jobs.modify i fun j => { j with sus := b } }

end State

/-- `announce_bg`: the first member `p` of the table goes, and its job if it was
the last. -/
def announceBg (p : ℕ) : List Bg → List Bg
  | [] => []
  | j :: js =>
    if p ∈ j.members then
      if j.members.erase p = [] then js else { j with members := j.members.erase p } :: js
    else j :: announceBg p js

/-- The number of processes: one for an external command, at least two for a
pipeline in the foreground. -/
def Launch.allows : Launch → ℕ → Bool
  | .background, n => 1 ≤ n
  | .piped, n => 2 ≤ n
  | .external, n => n = 1

def Wait.start (kind : Fg) (pids : List ℕ) : Wait := ⟨kind, pids, pids, false, [], false⟩

/-- `waitpid(pid, &status, WUNTRACED)` for the first member left, and what is made of
the status; `none` while it blocks.  After a return of -1 the `status` of `piped`
and `resume` is indeterminate (`junk`), that of an external command is 0. -/
def waitOne (s : State) (w : Wait) (junk : Bool) : Option State :=
  match w.todo with
  | [] => none
  | p :: ps =>
    match s.child p with
    | .stopped true =>
      some { s.setChild p (.stopped false) with
        mode := .waiting { w with todo := ps, stopped := true } }
    | .zombie =>
      some { s.setChild p .reaped with
        mode := .waiting { w with todo := ps, collected := p :: w.collected } }
    | .reaped | .unborn =>
      some { s with
        mode := .waiting { w with
          todo := ps, stopped := w.stopped || (junk && w.kind ≠ .external), failed := true } }
    | .running _ | .stopped false => none

/-- The end of a foreground wait: a stopped pipeline or command becomes a job; a
resumed job is kept if it stopped again and removed otherwise. -/
def finishWait (s : State) (w : Wait) : State :=
  match w.kind with
  | .piped | .external =>
    if w.stopped then { s.assign w.members true with mode := .prompt }
    else { s with mode := .prompt }
  | .resume i _ =>
    if w.stopped then { s.setSus i true with mode := .prompt }
    else { s with jobs := s.jobs.eraseIdx i, mode := .prompt }

/-- One step.  `stop`, `cont` and `exit` are the children's, `plant` the handler's,
with the order in which `waitpid(-1)` hands the statuses out; the others are the
main program's. -/
def step (s : State) : Act → Option State
  | .stop p =>
    match s.child p with
    | .running _ => some (s.setChild p (.stopped true))
    | _ => none
  | .cont p =>
    match s.child p with
    | .stopped _ => some (s.setChild p (.running true))
    | _ => none
  | .exit p =>
    match s.child p with
    | .running _ | .stopped _ => some (s.setChild p .zombie)
    | _ => none
  | .plant ps => if ps ≠ [] ∧ ps.Perm s.pending then some (ps.foldl State.collect s) else none
  | .launch l n =>
    if s.mode = .prompt ∧ l.allows n then some { s with mode := .forking l [] n } else none
  | .fork copy =>
    match s.mode with
    | .forking l pids (left + 1) =>
      -- a copy is not part of a pipeline
      if copy = false ∨ pids = [] ∧ left = 0 then
        some { s.setChild s.next (.running false) with
          next := s.next + 1, mode := .forking l (pids ++ [s.next]) left }
      else none
    | _ => none
  | .forked =>
    match s.mode with
    | .forking .background pids 0 => some { s.assign pids false with mode := .prompt }
    | .forking .piped pids 0 => some { s with mode := .waiting (.start .piped pids) }
    | .forking .external pids 0 => some { s with mode := .waiting (.start .external pids) }
    | _ => none
  | .wait junk =>
    match s.mode with
    | .waiting w => waitOne s w junk
    | _ => none
  | .alarm =>
    -- `EINTR`, with the wait blocked: the job stays in the table as it is
    match s.mode with
    | .waiting ⟨.resume _ true, _, p :: _, _, _, _⟩ =>
      match s.child p with
      | .running _ | .stopped false => some { s with mode := .prompt }
      | _ => none
    | _ => none
  | .finish =>
    match s.mode with
    | .waiting w => if w.todo = [] then some (finishWait s w) else none
    | _ => none
  | .resumeBg i =>
    match s.mode, s.jobs[i]? with
    | .prompt, some j => some ((s.continueAll j.members).setSus i false)
    | _, _ => none
  | .resumeFg i timeout =>
    match s.mode, s.jobs[i]? with
    | .prompt, some j =>
      some { (s.continueAll j.members).setSus i false with
        mode := .waiting (.start (.resume i timeout) j.members) }
    | _, _ => none
  | .announce =>
    if s.mode = .prompt then
      some { s with jobs := s.queue.foldl (fun js p => announceBg p js) s.jobs, queue := [] }
    else none

/-- The shell when it starts. -/
def boot : State := ⟨fun _ => .unborn, 0, [], 1, [], .prompt⟩

def sys : Sys State Act where
  init s := s = boot
  step := step

/-! ### What a step can do -/

/-- The wait is for a pipeline or an external command, which are in no job. -/
def Fg.isNew : Fg → Bool
  | .piped | .external => true
  | .resume _ _ => false

/-- The effects of the steps, with the guards under which they happen. -/
inductive Move (s : State) : Act → State → Prop
  | stop {p : ℕ} {b : Bool} : s.child p = .running b →
      Move s (.stop p) (s.setChild p (.stopped true))
  | cont {p : ℕ} {b : Bool} : s.child p = .stopped b →
      Move s (.cont p) (s.setChild p (.running true))
  | exit {p : ℕ} {b : Bool} : s.child p = .running b ∨ s.child p = .stopped b →
      Move s (.exit p) (s.setChild p .zombie)
  | plant {ps : List ℕ} : ps.Perm s.pending → Move s (.plant ps) (ps.foldl State.collect s)
  | launch {l : Launch} {n : ℕ} : s.mode = .prompt → n ≠ 0 →
      Move s (.launch l n) { s with mode := .forking l [] n }
  | fork {copy : Bool} {l : Launch} {pids : List ℕ} {left : ℕ} :
      s.mode = .forking l pids (left + 1) → Move s (.fork copy) { s.setChild s.next (.running false) with
        next := s.next + 1, mode := .forking l (pids ++ [s.next]) left }
  /-- the processes of a background job are forked -/
  | register {pids : List ℕ} : s.mode = .forking .background pids 0 →
      Move s .forked { s.assign pids false with mode := .prompt }
  /-- those of a foreground job are -/
  | await {l : Launch} {kind : Fg} {pids : List ℕ} : s.mode = .forking l pids 0 →
      l ≠ .background → kind.isNew = true →
      Move s .forked { s with mode := .waiting (.start kind pids) }
  | waitStop {w : Wait} {p : ℕ} {ps : List ℕ} {junk : Bool} : s.mode = .waiting w →
      w.todo = p :: ps → s.child p = .stopped true →
      Move s (.wait junk) { s.setChild p (.stopped false) with
        mode := .waiting { w with todo := ps, stopped := true } }
  | waitExit {w : Wait} {p : ℕ} {ps : List ℕ} {junk : Bool} : s.mode = .waiting w →
      w.todo = p :: ps → s.child p = .zombie →
      Move s (.wait junk) { s.setChild p .reaped with
        mode := .waiting { w with todo := ps, collected := p :: w.collected } }
  /-- `waitpid` returns -1 -/
  | waitFail {w : Wait} {p : ℕ} {ps : List ℕ} {junk : Bool} : s.mode = .waiting w →
      w.todo = p :: ps → s.child p = .reaped ∨ s.child p = .unborn →
      Move s (.wait junk) { s with
        mode := .waiting { w with
          todo := ps, stopped := w.stopped || (junk && w.kind ≠ .external), failed := true } }
  | alarm {w : Wait} {i : ℕ} : s.mode = .waiting w → w.kind = .resume i true →
      Move s .alarm { s with mode := .prompt }
  /-- a pipeline or a command has stopped -/
  | keep {w : Wait} : s.mode = .waiting w → w.kind.isNew = true → w.stopped = true →
      Move s .finish { s.assign w.members true with mode := .prompt }
  /-- it has not -/
  | drop {w : Wait} : s.mode = .waiting w → w.kind.isNew = true → w.stopped = false →
      Move s .finish { s with mode := .prompt }
  /-- a resumed job has stopped again -/
  | suspend {w : Wait} {i : ℕ} {t : Bool} : s.mode = .waiting w → w.kind = .resume i t →
      w.stopped = true → Move s .finish { s.setSus i true with mode := .prompt }
  /-- it has not -/
  | remove {w : Wait} {i : ℕ} {t : Bool} : s.mode = .waiting w → w.kind = .resume i t →
      w.stopped = false → Move s .finish { s with jobs := s.jobs.eraseIdx i, mode := .prompt }
  | resumeBg {i : ℕ} {j : Bg} : s.mode = .prompt → s.jobs[i]? = some j →
      Move s (.resumeBg i) ((s.continueAll j.members).setSus i false)
  | resumeFg {i : ℕ} {t : Bool} {j : Bg} : s.mode = .prompt → s.jobs[i]? = some j →
      Move s (.resumeFg i t) { (s.continueAll j.members).setSus i false with
        mode := .waiting (.start (.resume i t) j.members) }
  | announce : s.mode = .prompt → Move s .announce { s with
      jobs := s.queue.foldl (fun js p => announceBg p js) s.jobs, queue := [] }

/-- A `waitpid` of the main program. -/
theorem waitOne_move {s s' : State} {w : Wait} {junk : Bool} (hm : s.mode = .waiting w)
    (h : waitOne s w junk = some s') : Move s (.wait junk) s' := by
  unfold waitOne at h
  split at h
  · cases h
  · rename_i p ps ht
    split at h
    · rename_i hc
      cases h
      exact .waitStop hm ht hc
    · rename_i hc
      cases h
      exact .waitExit hm ht hc
    · rename_i hc
      cases h
      exact .waitFail hm ht (.inl hc)
    · rename_i hc
      cases h
      exact .waitFail hm ht (.inr hc)
    · cases h
    · cases h

/-- The end of a foreground wait. -/
theorem finishWait_move {s : State} {w : Wait} (hm : s.mode = .waiting w) :
    Move s .finish (finishWait s w) := by
  unfold finishWait
  split
  · rename_i hk
    split
    · rename_i hst
      exact .keep hm (by rw [hk]; rfl) hst
    · rename_i hst
      exact .drop hm (by rw [hk]; rfl) (by simpa using hst)
  · rename_i hk
    split
    · rename_i hst
      exact .keep hm (by rw [hk]; rfl) hst
    · rename_i hst
      exact .drop hm (by rw [hk]; rfl) (by simpa using hst)
  · rename_i hk
    split
    · rename_i hst
      exact .suspend hm hk hst
    · rename_i hst
      exact .remove hm hk (by simpa using hst)

theorem Launch.allows_ne_zero {l : Launch} {n : ℕ} (h : l.allows n = true) : n ≠ 0 := by
  rintro rfl
  cases l <;> simp [Launch.allows] at h

/-- Every step is one of the moves. -/
theorem step_move {s s' : State} {a : Act} (hs : step s a = some s') : Move s a s' := by
  cases a with
  | stop p =>
    simp only [step] at hs
    split at hs
    · rename_i hc
      cases hs
      exact .stop hc
    · cases hs
  | cont p =>
    simp only [step] at hs
    split at hs
    · rename_i hc
      cases hs
      exact .cont hc
    · cases hs
  | exit p =>
    simp only [step] at hs
    split at hs
    · rename_i hc
      cases hs
      exact .exit (.inl hc)
    · rename_i hc
      cases hs
      exact .exit (.inr hc)
    · cases hs
  | plant ps =>
    simp only [step] at hs
    split at hs
    · rename_i hps
      cases hs
      exact .plant hps.2
    · cases hs
  | launch l n =>
    simp only [step] at hs
    split at hs
    · rename_i hg
      cases hs
      exact .launch hg.1 (Launch.allows_ne_zero hg.2)
    · cases hs
  | fork copy =>
    simp only [step] at hs
    split at hs
    · rename_i hm
      split at hs
      · cases hs
        exact .fork hm
      · cases hs
    · cases hs
  | forked =>
    simp only [step] at hs
    split at hs
    · rename_i hm
      cases hs
      exact .register hm
    · rename_i hm
      cases hs
      exact .await hm (by simp) rfl
    · rename_i hm
      cases hs
      exact .await hm (by simp) rfl
    · cases hs
  | wait junk =>
    simp only [step] at hs
    split at hs
    · rename_i hm
      exact waitOne_move hm hs
    · cases hs
  | alarm =>
    simp only [step] at hs
    split at hs
    · rename_i hm
      split at hs
      all_goals cases hs
      all_goals exact .alarm hm rfl
    · cases hs
  | finish =>
    simp only [step] at hs
    split at hs
    · rename_i hm
      split at hs
      · cases hs
        exact finishWait_move hm
      · cases hs
    · cases hs
  | resumeBg i =>
    simp only [step] at hs
    split at hs
    · rename_i hm hj
      cases hs
      exact .resumeBg hm hj
    · cases hs
  | resumeFg i t =>
    simp only [step] at hs
    split at hs
    · rename_i hm hj
      cases hs
      exact .resumeFg hm hj
    · cases hs
  | announce =>
    simp only [step] at hs
    split at hs
    · rename_i hm
      cases hs
      exact .announce hm
    · cases hs

/-! ### What is in the table -/

/-- The members of the jobs. -/
def State.table (s : State) : List (List ℕ) := s.jobs.map (·.members)

/-- The foreground processes that are in no job. -/
def Mode.extra : Mode → List ℕ
  | .prompt => []
  | .forking _ pids _ => pids
  | .waiting w =>
    match w.kind with
    | .piped | .external => w.members
    | .resume _ _ => []

theorem extra_waiting {w : Wait} (h : w.kind.isNew = true) : (Mode.waiting w).extra = w.members := by
  cases hk : w.kind with
  | piped | external => simp [Mode.extra, hk]
  | resume i t =>
    rw [hk] at h
    cases h

/-- All processes the shell keeps track of. -/
def State.tracked (s : State) : List ℕ := s.table.flatten ++ s.mode.extra

/-- The main program is where it says: a resumed job is in the table, and the
members still to be waited for are the last ones. -/
def Mode.Fits (table : List (List ℕ)) : Mode → Prop
  | .prompt => True
  | .forking _ pids left => pids ≠ [] ∨ left ≠ 0
  | .waiting w => w.members ≠ [] ∧ w.todo <:+ w.members ∧ (∀ p ∈ w.collected, p ∈ w.members) ∧
      ∀ i t, w.kind = .resume i t → table[i]? = some w.members

/-- What holds in every run. -/
structure Ok (s : State) : Prop where
  nodup : s.tracked.Nodup
  lt : ∀ p ∈ s.tracked, p < s.next
  born : ∀ p, s.child p = .unborn ↔ s.next ≤ p
  nonempty : ∀ ms ∈ s.table, ms ≠ []
  fits : s.mode.Fits s.table

/-- The handler and the children leave the table and the main program alone. -/
structure Frame (s s' : State) : Prop where
  table : s'.table = s.table
  mode : s'.mode = s.mode
  next : s'.next = s.next
  born : ∀ p, s'.child p = .unborn ↔ s.child p = .unborn

theorem Frame.refl (s : State) : Frame s s := ⟨rfl, rfl, rfl, fun _ => Iff.rfl⟩

theorem Frame.trans {s s' s'' : State} (h : Frame s s') (h' : Frame s' s'') : Frame s s'' :=
  ⟨h'.table.trans h.table, h'.mode.trans h.mode, h'.next.trans h.next,
    fun p => (h'.born p).trans (h.born p)⟩

theorem Frame.tracked {s s' : State} (h : Frame s s') : s'.tracked = s.tracked := by
  rw [State.tracked, State.tracked, h.table, h.mode]

theorem Frame.ok {s s' : State} (h : Frame s s') (hok : Ok s) : Ok s' where
  nodup := h.tracked ▸ hok.nodup
  lt := by
    rw [h.tracked, h.next]
    exact hok.lt
  born p := by rw [h.born, h.next, hok.born]
  nonempty := h.table ▸ hok.nonempty
  fits := by
    rw [h.mode, h.table]
    exact hok.fits

@[simp] theorem setChild_same (s : State) (p : ℕ) (c : Child) : (s.setChild p c).child p = c :=
  if_pos rfl

theorem setChild_ne {s : State} {p q : ℕ} (c : Child) (h : q ≠ p) :
    (s.setChild p c).child q = s.child q := if_neg h

/-- A change of one born child that leaves it born. -/
theorem frame_setChild {s : State} {p : ℕ} {c : Child} (hp : s.child p ≠ .unborn)
    (hc : c ≠ .unborn) : Frame s (s.setChild p c) := by
  refine ⟨rfl, rfl, rfl, ?_⟩
  intro q
  by_cases hq : q = p
  · subst hq
    rw [setChild_same]
    exact iff_of_false hc hp
  · rw [setChild_ne c hq]

theorem markSus_table (s : State) (p : ℕ) (b : Bool) : (s.markSus p b).table = s.table := by
  rw [State.table, State.table, State.markSus, List.map_map]
  refine List.map_congr_left ?_
  intro j _
  show (if p ∈ j.members then { j with sus := b } else j).members = j.members
  split <;> rfl

theorem setSus_table (s : State) (i : ℕ) (b : Bool) : (s.setSus i b).table = s.table := by
  apply List.ext_getElem?
  intro k
  simp only [State.table, State.setSus, List.getElem?_map, List.getElem?_modify]
  by_cases h : i = k
  · simp only [h, if_true]
    cases s.jobs[k]? <;> rfl
  · simp [h]

theorem frame_markSus (s : State) (p : ℕ) (b : Bool) : Frame s (s.markSus p b) :=
  ⟨markSus_table s p b, rfl, rfl, fun _ => Iff.rfl⟩

/-- One round of `plant`, as a change of the child, the rest aside. -/
theorem collect_cases (s : State) (p : ℕ) :
    s.child p = .stopped true ∧ s.collect p = (s.setChild p (.stopped false)).markSus p true ∨
    s.child p = .running true ∧ s.collect p = (s.setChild p (.running false)).markSus p false ∨
    s.child p = .zombie ∧ s.collect p = { s.setChild p .reaped with
      queue := if s.queue.length < 100 then s.queue ++ [p] else s.queue } ∨
    (s.child p).pending = false ∧ s.collect p = s := by
  unfold State.collect
  cases h : s.child p with
  | unborn | reaped => simp [Child.pending]
  | zombie => simp
  | running b | stopped b => cases b <;> simp [Child.pending]

theorem frame_collect (s : State) (p : ℕ) : Frame s (s.collect p) := by
  obtain ⟨h, he⟩ | ⟨h, he⟩ | ⟨h, he⟩ | ⟨-, he⟩ := collect_cases s p
  · rw [he]
    exact (frame_setChild (by simp [h]) (by simp)).trans (frame_markSus _ _ _)
  · rw [he]
    exact (frame_setChild (by simp [h]) (by simp)).trans (frame_markSus _ _ _)
  · rw [he]
    have hf := frame_setChild (c := .reaped) (show s.child p ≠ .unborn by simp [h]) (by simp)
    exact ⟨hf.table, hf.mode, hf.next, hf.born⟩
  · rw [he]
    exact Frame.refl s

theorem frame_plant (s : State) (ps : List ℕ) : Frame s (ps.foldl State.collect s) := by
  induction ps generalizing s with
  | nil => exact Frame.refl s
  | cons p ps ih => exact (frame_collect s p).trans (ih _)

theorem frame_continueAll (s : State) (ps : List ℕ) : Frame s (s.continueAll ps) := by
  refine ⟨rfl, rfl, rfl, ?_⟩
  intro q
  show (if q ∈ ps ∧ (s.child q).isStopped = true then Child.running true else s.child q) = _ ↔ _
  split
  · rename_i h
    cases hc : s.child q <;> simp_all [Child.isStopped]
  · rfl

/-! ### Announcing an exit -/

/-- `announce_bg` erases the process from the members. -/
theorem announceBg_flatten (p : ℕ) (js : List Bg) :
    ((announceBg p js).map (·.members)).flatten = ((js.map (·.members)).flatten).erase p := by
  induction js with
  | nil => rfl
  | cons j js ih =>
    rw [announceBg, List.map_cons, List.flatten_cons]
    split
    · rename_i hm
      rw [List.erase_append_left _ hm]
      split
      · rename_i he
        rw [he, List.nil_append]
      · rw [List.map_cons, List.flatten_cons]
    · rename_i hm
      rw [List.map_cons, List.flatten_cons, ih, List.erase_append_right _ hm]

theorem announceBg_nonempty {p : ℕ} {js : List Bg}
    (h : ∀ ms ∈ js.map (·.members), ms ≠ []) :
    ∀ ms ∈ (announceBg p js).map (·.members), ms ≠ [] := by
  induction js with
  | nil => exact h
  | cons j js ih =>
    rw [List.map_cons, List.forall_mem_cons] at h
    rw [announceBg]
    split
    · split
      · exact h.2
      · rename_i he
        rw [List.map_cons, List.forall_mem_cons]
        exact ⟨he, h.2⟩
    · rw [List.map_cons, List.forall_mem_cons]
      exact ⟨h.1, ih h.2⟩

/-- `no_longer_waiting` takes the queued processes out of the table. -/
theorem announce_flatten (ps : List ℕ) (js : List Bg) :
    ((ps.foldl (fun js p => announceBg p js) js).map (·.members)).flatten =
      ((js.map (·.members)).flatten).diff ps := by
  induction ps generalizing js with
  | nil => rfl
  | cons p ps ih => rw [List.foldl_cons, ih, announceBg_flatten, List.diff_cons]

theorem announce_nonempty {ps : List ℕ} {js : List Bg}
    (h : ∀ ms ∈ js.map (·.members), ms ≠ []) :
    ∀ ms ∈ (ps.foldl (fun js p => announceBg p js) js).map (·.members), ms ≠ [] := by
  induction ps generalizing js with
  | nil => exact h
  | cons p ps ih => exact ih (announceBg_nonempty h)

/-! ### Every step keeps `Ok` -/

theorem assign_table (s : State) (pids : List ℕ) (b : Bool) :
    (s.assign pids b).table = s.table ++ [pids] := by simp [State.table, State.assign]

/-- Moving the foreground processes into the table. -/
theorem Ok.assign {s : State} (h : Ok s) {b : Bool} (hne : s.mode.extra ≠ []) :
    Ok { s.assign s.mode.extra b with mode := .prompt } := by
  have ht : State.table { s.assign s.mode.extra b with mode := .prompt } =
      s.table ++ [s.mode.extra] := assign_table s _ b
  have htr : State.tracked { s.assign s.mode.extra b with mode := .prompt } = s.tracked := by
    rw [State.tracked, ht]
    simp [State.tracked, Mode.extra]
  refine ⟨htr ▸ h.nodup, htr ▸ h.lt, h.born, ?_, trivial⟩
  rw [ht]
  simpa [or_imp, forall_and, hne] using h.nonempty

/-- Fewer processes to keep track of. -/
theorem Ok.sublist {s s' : State} (h : Ok s) (ht : s'.tracked.Sublist s.tracked)
    (hn : s'.next = s.next) (hc : s'.child = s.child) (hne : ∀ ms ∈ s'.table, ms ≠ [])
    (hf : s'.mode.Fits s'.table) : Ok s' where
  nodup := h.nodup.sublist ht
  lt p hp := hn ▸ h.lt p (ht.subset hp)
  born p := by rw [hn, hc, h.born]
  nonempty := hne
  fits := hf

theorem Ok.fork {s : State} {l : Launch} {pids : List ℕ} {left : ℕ} (h : Ok s)
    (hm : s.mode = .forking l pids (left + 1)) :
    Ok { s.setChild s.next (.running false) with
      next := s.next + 1, mode := .forking l (pids ++ [s.next]) left } := by
  have htr : State.tracked { s.setChild s.next (.running false) with
      next := s.next + 1, mode := .forking l (pids ++ [s.next]) left } =
      s.tracked ++ [s.next] := by
    simp [State.tracked, State.table, State.setChild, Mode.extra, hm]
  have hnot : s.next ∉ s.tracked := fun hp => Nat.lt_irrefl _ (h.lt _ hp)
  refine ⟨?_, ?_, ?_, h.nonempty, by simp [Mode.Fits]⟩
  · rw [htr, List.nodup_append']
    simpa [h.nodup] using hnot
  · rw [htr]
    intro p hp
    rcases List.mem_append.mp hp with hp | hp
    · exact Nat.lt_succ_of_lt (h.lt p hp)
    · rw [List.mem_singleton.mp hp]
      exact Nat.lt_succ_self _
  · intro p
    show (if p = s.next then Child.running false else s.child p) = .unborn ↔ s.next + 1 ≤ p
    have hb := h.born p
    split
    · simp only [reduceCtorEq, false_iff]
      omega
    · rw [hb]
      omega

/-- A foreground wait keeps its processes. -/
theorem tracked_waiting {s : State} {w w' : Wait} (child' : ℕ → Child) (hm : s.mode = .waiting w)
    (hk : w'.kind = w.kind) (hw : w'.members = w.members) :
    State.tracked { s with child := child', mode := .waiting w' } = s.tracked := by
  simp [State.tracked, State.table, Mode.extra, hm, hk, hw]

/-- A wait that has moved on by one member. -/
theorem Ok.waitOne {s : State} {w w' : Wait} {p : ℕ} {ps : List ℕ} {child' : ℕ → Child} (h : Ok s)
    (hm : s.mode = .waiting w) (ht : w.todo = p :: ps) (hk : w'.kind = w.kind)
    (hw : w'.members = w.members) (ht' : w'.todo = ps)
    (hc : ∀ q ∈ w'.collected, q = p ∨ q ∈ w.collected)
    (hb : ∀ q, child' q = .unborn ↔ s.child q = .unborn) :
    Ok { s with child := child', mode := .waiting w' } := by
  have hf := h.fits
  rw [hm] at hf
  obtain ⟨hne, hsuf, hcol, hres⟩ := hf
  have htr := tracked_waiting child' hm hk hw
  have hp : p ∈ w.members := hsuf.subset (by simp [ht])
  refine ⟨htr ▸ h.nodup, htr ▸ h.lt, fun q => by rw [hb, h.born], h.nonempty, hw ▸ hne, ?_, ?_, ?_⟩
  · rw [hw, ht']
    exact (List.suffix_cons p ps).trans (ht ▸ hsuf)
  · intro q hq
    rw [hw]
    exact (hc q hq).elim (fun he => he ▸ hp) (hcol q)
  · rw [hk, hw]
    exact hres

/-- Back at the prompt with the foreground processes forgotten. -/
theorem Ok.prompt {s : State} (h : Ok s) : Ok { s with mode := .prompt } :=
  h.sublist (by simp [State.tracked, State.table, Mode.extra]) rfl rfl h.nonempty trivial

theorem eraseIdx_table (s : State) (i : ℕ) (m : Mode) :
    State.table { s with jobs := s.jobs.eraseIdx i, mode := m } = s.table.eraseIdx i := by
  simp [State.table, List.eraseIdx_map]

theorem Ok.remove {s : State} (h : Ok s) (i : ℕ) :
    Ok { s with jobs := s.jobs.eraseIdx i, mode := .prompt } := by
  refine h.sublist ?_ rfl rfl ?_ trivial
  · rw [State.tracked, eraseIdx_table]
    simp only [Mode.extra, List.append_nil]
    exact (List.eraseIdx_sublist _ _).flatten.trans (List.sublist_append_left _ _)
  · rw [eraseIdx_table]
    intro ms hms
    exact h.nonempty ms (List.mem_of_mem_eraseIdx hms)

/-- `SIGCONT` to a job. -/
theorem frame_resume (s : State) (i : ℕ) (ps : List ℕ) :
    Frame s ((s.continueAll ps).setSus i false) :=
  (frame_continueAll s ps).trans ⟨setSus_table _ _ _, rfl, rfl, fun _ => Iff.rfl⟩

theorem Ok.resume {s : State} {i : ℕ} {t : Bool} {j : Bg} (h : Ok s) (hj : s.jobs[i]? = some j) :
    Ok { (s.continueAll j.members).setSus i false with
      mode := .waiting (.start (.resume i t) j.members) } := by
  have hfr := frame_resume s i j.members
  have hok := hfr.ok h
  have hti : s.table[i]? = some j.members := by simp [State.table, hj]
  have hne : j.members ≠ [] := h.nonempty _ (List.mem_of_getElem? hti)
  refine hok.sublist ?_ rfl rfl hok.nonempty ⟨hne, List.suffix_rfl, by simp [Wait.start], ?_⟩
  · simp [State.tracked, State.table, Mode.extra, Wait.start]
  · intro i' t' hk
    cases hk
    show ((s.continueAll j.members).setSus i false).table[i]? = _
    rw [hfr.table]
    exact hti

theorem Ok.announce {s : State} (h : Ok s) (hm : s.mode = .prompt) :
    Ok { s with jobs := s.queue.foldl (fun js p => announceBg p js) s.jobs, queue := [] } := by
  refine h.sublist ?_ rfl rfl (announce_nonempty h.nonempty) (hm ▸ trivial)
  have hd := announce_flatten s.queue s.jobs
  simp only [State.tracked, State.table, hm, Mode.extra, List.append_nil] at hd ⊢
  rw [hd]
  exact List.diff_sublist _ _

theorem Ok.move {s s' : State} {a : Act} (h : Ok s) (hs : Move s a s') : Ok s' := by
  have hf := h.fits
  have hchild : ∀ {p : ℕ} {c : Child}, s.child p ≠ .unborn → c ≠ .unborn → Ok (s.setChild p c) :=
    fun hp hc => (frame_setChild hp hc).ok h
  cases hs with
  | stop hc => exact hchild (by simp [hc]) (by simp)
  | cont hc => exact hchild (by simp [hc]) (by simp)
  | exit hc =>
    refine hchild ?_ (by simp)
    rcases hc with hc | hc <;> simp [hc]
  | plant => exact (frame_plant s _).ok h
  | launch hm hn =>
    refine h.sublist ?_ rfl rfl h.nonempty (.inr hn)
    simp [State.tracked, State.table, Mode.extra]
  | fork hm => exact h.fork hm
  | @register pids hm =>
    have he : s.mode.extra = pids := by simp [hm, Mode.extra]
    rw [hm] at hf
    exact he ▸ h.assign (he ▸ by simpa [Mode.Fits] using hf)
  | @await _ _ pids hm _ hk =>
    rw [hm] at hf
    have hne : pids ≠ [] := by simpa [Mode.Fits] using hf
    refine h.sublist ?_ rfl rfl h.nonempty ⟨hne, List.suffix_rfl, ?_, ?_⟩
    · rw [State.tracked, State.tracked, hm, extra_waiting hk]
      exact List.Sublist.refl _
    · simp [Wait.start]
    · rintro i t rfl
      cases hk
  | @waitStop w p ps _ hm ht hc =>
    have hb := (frame_setChild (c := .stopped false) (show s.child p ≠ .unborn by simp [hc])
      (by simp)).born
    exact h.waitOne hm ht rfl rfl rfl (fun q hq => .inr hq) hb
  | @waitExit w p ps _ hm ht hc =>
    have hb := (frame_setChild (c := .reaped) (show s.child p ≠ .unborn by simp [hc])
      (by simp)).born
    exact h.waitOne hm ht rfl rfl rfl (fun q hq => by simpa using hq) hb
  | waitFail hm ht _ => exact h.waitOne hm ht rfl rfl rfl (fun q hq => .inr hq) fun _ => Iff.rfl
  | alarm => exact h.prompt
  | keep hm hk _ =>
    rw [hm] at hf
    have he : s.mode.extra = _ := hm ▸ extra_waiting hk
    exact he ▸ h.assign (he ▸ hf.1)
  | drop => exact h.prompt
  | @suspend _ i =>
    have hfr : Frame { s with mode := .prompt } { s.setSus i true with mode := .prompt } :=
      ⟨setSus_table s i true, rfl, rfl, fun _ => Iff.rfl⟩
    exact hfr.ok h.prompt
  | remove => exact h.remove _
  | resumeBg => exact (frame_resume s _ _).ok h
  | resumeFg _ hj => exact h.resume hj
  | announce hm => exact h.announce hm

/-- The table is in order in every run. -/
theorem ok_of_reachable {s : State} (h : sys.Reachable s) : Ok s := by
  refine sys.invariant ?_ (fun s a s' hok hs => hok.move (step_move hs)) h
  intro s hs
  rw [show s = boot from hs]
  exact ⟨by simp [State.tracked, boot, State.table, Mode.extra],
    by simp [State.tracked, boot, State.table, Mode.extra], by simp [boot],
    by simp [boot, State.table], trivial⟩

end Jobs
