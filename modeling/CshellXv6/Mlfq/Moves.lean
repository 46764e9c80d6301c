/-
What one step of the kernel can do.

`step_move` reads the step function once: whatever the scheduling choice, the
state changes by one of the `Move`s, listed with the guards the code has
checked.  The invariants of this development are case analyses over `Move`;
none of them unfolds the step function again.

Several pieces of code make the same move: `taskUnlock`, for one, is every
place where a thread lets go of a `p->lock` without having changed what the
scheduler reads.
-/
import CshellXv6.Mlfq.Kernel

namespace Mlfq

open Mem

variable {Cpu Q : Type}

/-- The process a task has set `RUNNABLE` and not yet pushed. -/
def Task.pushing : Task → Option ProcId
  | .scanPush _ p | .forkPush p => some p
  | _ => none

/-- The process a `kfork` or `userinit` is making: allocated, not yet
`RUNNABLE`. -/
def Task.making : Task → Option ProcId
  | .setup p | .fork p | .forkLocked p => some p
  | _ => none

/-- A task that holds no lock and has no process in the making. -/
structure Task.Free (k : Task) : Prop where
  holds : k.holds = none
  pushing : k.pushing = none
  making : k.making = none

/-- A task that holds `p->lock`, with nothing in the making. -/
structure Task.Holding (k : Task) (p : ProcId) : Prop where
  holds : k.holds = some p
  pushing : k.pushing = none
  making : k.making = none

/-- Two memories that agree on all the scheduler decides by. -/
structure Mem.Same (m m' : Mem Q) : Prop where
  queues : m'.queues = m.queues
  state : ∀ p, (m'.proc p).state = (m.proc p).state
  queue : ∀ p, (m'.proc p).queue = (m.proc p).queue
  tick : ∀ p, (m'.proc p).tick = (m.proc p).tick
  inq : ∀ p, (m'.proc p).inq = (m.proc p).inq

theorem Mem.Same.rfl {m : Mem Q} : m.Same m :=
  ⟨Eq.refl _, fun _ => Eq.refl _, fun _ => Eq.refl _, fun _ => Eq.refl _, fun _ => Eq.refl _⟩

/-- Rewriting an entry of the process table outside the scheduler's fields. -/
theorem Mem.same_setProc {m : Mem Q} {p : ProcId} {f : Proc → Proc}
    (h : ∀ x, (f x).state = x.state ∧ (f x).queue = x.queue ∧ (f x).tick = x.tick ∧
      (f x).inq = x.inq) : m.Same (m.setProc p f) := by
  have key : ∀ r, ((m.setProc p f).proc r).state = (m.proc r).state ∧
      ((m.setProc p f).proc r).queue = (m.proc r).queue ∧
      ((m.setProc p f).proc r).tick = (m.proc r).tick ∧
      ((m.setProc p f).proc r).inq = (m.proc r).inq := by
    intro r
    by_cases hr : r = p
    · subst hr
      simpa [setProc] using h (m.proc r)
    · simp [setProc, hr]
  exact ⟨Eq.refl _, fun r => (key r).1, fun r => (key r).2.1, fun r => (key r).2.2.1,
    fun r => (key r).2.2.2⟩

theorem Mem.same_reparent {m : Mem Q} {p : ProcId} {init : Option ProcId} :
    m.Same (reparent m p init) := by
  have key : ∀ r, ((reparent m p init).proc r).state = (m.proc r).state ∧
      ((reparent m p init).proc r).queue = (m.proc r).queue ∧
      ((reparent m p init).proc r).tick = (m.proc r).tick ∧
      ((reparent m p init).proc r).inq = (m.proc r).inq := by
    intro r
    simp only [reparent]
    split <;> simp
  exact ⟨Eq.refl _, fun r => (key r).1, fun r => (key r).2.1, fun r => (key r).2.2.1,
    fun r => (key r).2.2.2⟩

variable [DecidableEq Cpu] (ops : QueueOps Q)

/-- What a step can do to the state, with its events.  The moves of a
`yield_mlfq` say which scheduling choice made them. -/
inductive Move (s : State Cpu Q) (a : Act Cpu) : List Event → State Cpu Q → Prop
  /-- nothing the scheduler decides by changes -/
  | quiet {m : Mem Q} : s.mem.Same m → Move s a [] { s with mem := m }
  /-- the scheduler finds every queue empty -/
  | popNone {m : Mem Q} : s.mlfq = none → s.mem.popFirst ops [0, 1, 2, 3] = some (none, m) →
      Move s a [] { s with mem := m }
  | pop {c : Cpu} {p : ProcId} {m : Mem Q} : s.cpu c = .idle → s.mlfq = none →
      s.mem.popFirst ops [0, 1, 2, 3] = some (some p, m) →
      Move s a [] ({ s with mem := m }.setCpu c (.popped p))
  | acquire {c : Cpu} {p : ProcId} : s.cpu c = .popped p → s.lock p = none →
      Move s a [] ((s.setLock p (some (.sched c))).setCpu c (.locked p))
  | dispatch {c : Cpu} {p : ProcId} : s.cpu c = .locked p → (s.mem.proc p).state = .RUNNABLE →
      Move s a [] ((((s.setState p .RUNNING).setCpu c (.running p)).setLock p (some .self)).setSelf
        p .resume)
  | drop {c : Cpu} {p : ProcId} : s.cpu c = .locked p → (s.mem.proc p).state ≠ .RUNNABLE →
      Move s a [] ((s.setLock p none).setCpu c .idle)
  | release {c : Cpu} {p : ProcId} : s.cpu c = .back p →
      Move s a [] ((s.setLock p none).setCpu c .idle)
  /-- a process returns from `sched`, or from a `sleep` that did not block -/
  | letGo {c : Cpu} {p : ProcId} : s.cpu c = .running p →
      s.self p = .resume ∨ s.self p = .locked .sleep →
      Move s a [] ((s.setLock p none).setSelf p .out)
  | call {c : Cpu} {p : ProcId} {w : Call} : s.cpu c = .running p → s.self p = .out →
      s.lock p = none → (s.task (.proc p)).holds = none →
      Move s a [] ((s.setLock p (some .self)).setSelf p (.locked w))
  | account {c : Cpu} {p : ProcId} : a = .self c p → s.self p = .locked .yield →
      s.mlfq = none → s.mem.boostDue = false →
      Move s a [.yield p] ({ s with mem := s.mem.account ops p }.setSelf p .queued)
  | boost {c : Cpu} {p : ProcId} : s.cpu c = .running p → s.self p = .locked .yield →
      s.mlfq = none → s.mem.boostDue = true →
      Move s a [] ({ s with mlfq := some (p, .loop 0) }.setSelf p .boosting)
  | boostCall {c : Cpu} {p : ProcId} {pc pc' : BoostPc} {m : Mem Q} : a = .self c p →
      s.self p = .boosting → s.mlfq = some (p, pc) → s.mem.boostStep ops pc = some (pc', m) →
      Move s a pc'.resets { s with mem := m, mlfq := some (p, pc') }
  | boostEnd {c : Cpu} {p : ProcId} : a = .self c p → s.self p = .boosting →
      s.mlfq = some (p, .loop 4) →
      Move s a [.yield p, .restart p]
        ({ s with mem := (s.mem.boostEnd p).account ops p, mlfq := none }.setSelf p .queued)
  /-- `sleep` and `kexit` write `p->state` -/
  | block {c : Cpu} {p : ProcId} {w : Call} {st : ProcState} : s.cpu c = .running p →
      s.self p = .locked w → w = .sleep ∧ st = .SLEEPING ∨ w = .exit ∧ st = .ZOMBIE →
      Move s a [] ((s.setState p st).setSelf p (.ready w))
  | runnable {p : ProcId} : s.self p = .queued →
      Move s a [] ((s.setState p .RUNNABLE).setSelf p (.ready .yield))
  | swtch {c : Cpu} {p : ProcId} {w : Call} : s.cpu c = .running p → s.self p = .ready w →
      Move s a [] (((s.setCpu c (.back p)).setLock p (some (.sched c))).setSelf p .off)
  /-- a thread that holds no lock goes on to another point without one -/
  | taskMove {t : Thread Cpu} {k : Task} : (s.task t).Free → k.Free → Move s a [] (s.setTask t k)
  | taskLock {t : Thread Cpu} {p : ProcId} {k : Task} : (s.task t).Free → s.lock p = none →
      k.Holding p → Move s a [] ((s.setLock p (some (.thread t))).setTask t k)
  | taskUnlock {t : Thread Cpu} {p : ProcId} {k : Task} {m : Mem Q} : (s.task t).Holding p →
      k.Free → s.mem.Same m → Move s a [] (({ s with mem := m }.setLock p none).setTask t k)
  /-- `wakeup` or `kkill` finds a sleeper -/
  | wake {t : Thread Cpu} {g : Goal} {p : ProcId} {m : Mem Q} : s.task t = .scanLocked g p →
      (s.mem.proc p).state = .SLEEPING → s.mem.Same m →
      Move s a [] (({ s with mem := m }.setState p .RUNNABLE).setTask t (.scanPush g p))
  | wakePush {t : Thread Cpu} {g : Goal} {p : ProcId} : s.task t = .scanPush g p →
      s.mlfq = none →
      Move s a [] ({ s with mem := s.mem.push ops p (s.mem.proc p).queue true }.setTask
        t (.scanUnlock g p))
  /-- `allocproc` takes an entry -/
  | take {c : Cpu} {t : Thread Cpu} {p : ProcId} {ok : Bool} {n i : ℕ} : a = .task c t ok →
      s.task t = .allocLocked p → (s.mem.proc p).state = .UNUSED →
      Move s a [.restart p] (({ s with nextpid := n }.setProc p fun x =>
        { x with pid := i, state := .USED, queue := 0, tick := 0, inq := false }).setTask
          t (.setup p))
  | giveUp {t : Thread Cpu} {p : ProcId} : s.task t = .setup p →
      Move s a [] (((freeproc s p).setLock p none).setTask t .idle)
  | forkRelease {t : Thread Cpu} {p : ProcId} : s.task t = .setup p →
      Move s a [] ((s.setLock p none).setTask t (.fork p))
  | forkBoot {t : Thread Cpu} {p : ProcId} {i : Option ProcId} : s.task t = .setup p →
      Move s a [] ({ s with initproc := i }.setTask t (.forkLocked p))
  | forkAcquire {t : Thread Cpu} {p : ProcId} {m : Mem Q} : s.task t = .fork p →
      s.lock p = none → s.mem.Same m →
      Move s a [] (({ s with mem := m }.setLock p (some (.thread t))).setTask t (.forkLocked p))
  | forkRunnable {t : Thread Cpu} {p : ProcId} : s.task t = .forkLocked p →
      Move s a [] ((s.setState p .RUNNABLE).setTask t (.forkPush p))
  | forkPush {t : Thread Cpu} {p : ProcId} : s.task t = .forkPush p → s.mlfq = none →
      Move s a [] ({ s with mem := s.mem.push ops p 0 true }.setTask t (.forkUnlock p))
  /-- `kwait` frees a zombie -/
  | reap {t : Thread Cpu} {p : ProcId} {m : Mem Q} : s.task t = .waitLocked p →
      (s.mem.proc p).state = .ZOMBIE → s.mem.Same m →
      Move s a [] (((freeproc { s with mem := m } p).setLock p none).setTask t .idle)

variable {ops}

theorem schedStep_move {s s' : State Cpu Q} {a : Act Cpu} {c : Cpu}
    (h : schedStep ops s c = some s') : Move ops s a [] s' := by
  simp only [schedStep] at h
  split at h
  case h_1 hc =>
    split at h
    case isTrue hm =>
      split at h
      case h_1 => cases h
      case h_2 m hp =>
        cases h
        exact .popNone hm hp
      case h_3 p m hp =>
        cases h
        exact .pop hc hm hp
    case isFalse => cases h
  case h_2 p hc =>
    split at h
    case isTrue hl =>
      cases h
      exact .acquire hc hl
    case isFalse => cases h
  case h_3 p hc =>
    split at h
    case isTrue hr =>
      cases h
      exact .dispatch hc hr
    case isFalse hr =>
      cases h
      exact .drop hc hr
  case h_4 => cases h
  case h_5 p hc =>
    cases h
    exact .release hc

theorem boostBlockStep_move {s s' : State Cpu Q} {c : Cpu} {p : ProcId}
    (hp : s.self p = .boosting) (h : boostBlockStep ops s p = some s') :
    Move ops s (.self c p) (events ops s (.self c p)) s' := by
  simp only [boostBlockStep] at h
  split at h
  case h_1 => cases h
  case h_2 b pc hm =>
    split at h
    case isFalse => cases h
    case isTrue hb =>
      subst hb
      split at h
      case isTrue hpc =>
        cases h
        simp only [events, hp, hm, hpc, if_true]
        exact .boostEnd rfl hp (hpc ▸ hm)
      case isFalse hpc =>
        split at h
        case h_1 => cases h
        case h_2 pc' m hst =>
          cases h
          simp only [events, hp, hm, if_neg hpc, hst]
          exact .boostCall rfl hp hm hst

theorem selfStep_move {s s' : State Cpu Q} {c : Cpu} {p : ProcId} (hc : s.cpu c = .running p)
    (h : selfStep ops s c p = some s') :
    Move ops s (.self c p) (events ops s (.self c p)) s' := by
  simp only [selfStep] at h
  split at h
  case h_1 => cases h
  case h_2 hp =>
    cases h
    simp only [events, hp]
    exact .letGo hc (.inl hp)
  case h_3 => cases h
  case h_4 hp =>
    split at h
    case isFalse => cases h
    case isTrue hm =>
      split at h
      case isTrue hd =>
        cases h
        simp only [events, hp, hd, if_true]
        exact .boost hc hp hm hd
      case isFalse hd =>
        cases h
        simp only [events, hp, if_neg hd]
        exact .account rfl hp hm (by simpa using hd)
  case h_5 hp =>
    simp only [events, hp]
    split at h
    case isTrue =>
      cases h
      exact .letGo hc (.inr hp)
    case isFalse =>
      cases h
      exact .block hc hp (.inl ⟨rfl, rfl⟩)
  case h_6 hp =>
    simp only [events, hp]
    cases h
    exact .block hc hp (.inr ⟨rfl, rfl⟩)
  case h_7 hp => exact boostBlockStep_move hp h
  case h_8 hp =>
    simp only [events, hp]
    cases h
    exact .runnable hp
  case h_9 w hp =>
    simp only [events, hp]
    cases h
    exact .swtch hc hp

theorem same_mark (m : Mem Q) (g : Goal) (p : ProcId) : m.Same (m.setProc p g.mark) :=
  same_setProc fun x => by cases g <;> simp [Goal.mark]

theorem same_parent (m : Mem Q) (p : ProcId) (o : Option ProcId) :
    m.Same (m.setProc p fun x => { x with parent := o }) :=
  same_setProc fun _ => ⟨rfl, rfl, rfl, rfl⟩

theorem Goal.next_free (g : Goal) (p : ProcId) : (g.next p).Free := by
  cases g <;> exact ⟨rfl, rfl, rfl⟩

theorem taskStep_move {s s' : State Cpu Q} {c : Cpu} {t : Thread Cpu} {ok : Bool}
    (h : taskStep ops s t ok = some s') :
    Move ops s (.task c t ok) (events ops s (.task c t ok)) s' := by
  have free : ∀ {k : Task}, s.task t = k → k.Free → (s.task t).Free := fun hk hf => hk ▸ hf
  have holding : ∀ {k : Task} {p : ProcId}, s.task t = k → k.Holding p → (s.task t).Holding p :=
    fun hk hf => hk ▸ hf
  simp only [taskStep] at h
  split at h
  case h_1 => cases h
  case h_2 g i hk =>
    simp only [events, hk]
    split at h
    case isTrue hi =>
      split at h
      case isTrue hl =>
        cases h
        exact .taskLock (free hk ⟨rfl, rfl, rfl⟩) hl ⟨rfl, rfl, rfl⟩
      case isFalse => cases h
    case isFalse =>
      cases h
      exact .taskMove (free hk ⟨rfl, rfl, rfl⟩) ⟨rfl, rfl, rfl⟩
  case h_3 g p hk =>
    simp only [events, hk]
    split at h
    case isTrue =>
      split at h
      case isTrue hs =>
        cases h
        exact .wake hk hs (same_mark _ g p)
      case isFalse =>
        cases h
        exact .taskUnlock (holding hk ⟨rfl, rfl, rfl⟩) (g.next_free p) (same_mark _ g p)
    case isFalse =>
      cases h
      exact .taskUnlock (holding hk ⟨rfl, rfl, rfl⟩) ⟨rfl, rfl, rfl⟩ Same.rfl
  case h_4 g p hk =>
    simp only [events, hk]
    split at h
    case isTrue hm =>
      cases h
      exact .wakePush hk hm
    case isFalse => cases h
  case h_5 g p hk =>
    simp only [events, hk]
    cases h
    exact .taskUnlock (holding hk ⟨rfl, rfl, rfl⟩) (g.next_free p) Same.rfl
  case h_6 i hk =>
    simp only [events, hk]
    split at h
    case isTrue hi =>
      split at h
      case isTrue hl =>
        cases h
        exact .taskLock (free hk ⟨rfl, rfl, rfl⟩) hl ⟨rfl, rfl, rfl⟩
      case isFalse => cases h
    case isFalse =>
      cases h
      exact .taskMove (free hk ⟨rfl, rfl, rfl⟩) ⟨rfl, rfl, rfl⟩
  case h_7 p hk =>
    split at h
    case isTrue hs =>
      cases h
      simp only [events, hk, hs, if_true]
      exact .take rfl hk hs
    case isFalse hs =>
      cases h
      simp only [events, hk, if_neg hs]
      exact .taskUnlock (holding hk ⟨rfl, rfl, rfl⟩) ⟨rfl, rfl, rfl⟩ Same.rfl
  case h_8 p hk =>
    simp only [events, hk]
    split at h
    case isTrue =>
      split at h
      case h_1 =>
        cases h
        exact .forkBoot hk
      case h_2 =>
        cases h
        exact .forkRelease hk
    case isFalse =>
      cases h
      exact .giveUp hk
  case h_9 p hk =>
    simp only [events, hk]
    split at h
    case h_1 q =>
      split at h
      case isTrue hl =>
        cases h
        exact .forkAcquire hk hl (same_parent _ p _)
      case isFalse => cases h
    case h_2 => cases h
  case h_10 p hk =>
    simp only [events, hk]
    cases h
    exact .forkRunnable hk
  case h_11 p hk =>
    simp only [events, hk]
    split at h
    case isTrue hm =>
      cases h
      exact .forkPush hk hm
    case isFalse => cases h
  case h_12 p hk =>
    simp only [events, hk]
    cases h
    exact .taskUnlock (holding hk ⟨rfl, rfl, rfl⟩) ⟨rfl, rfl, rfl⟩ Same.rfl
  case h_13 i hk =>
    simp only [events, hk]
    split at h
    case h_1 q =>
      split at h
      case isTrue hi =>
        split at h
        case isTrue =>
          split at h
          case isTrue hl =>
            cases h
            exact .taskLock (free hk ⟨rfl, rfl, rfl⟩) hl ⟨rfl, rfl, rfl⟩
          case isFalse => cases h
        case isFalse =>
          cases h
          exact .taskMove (free hk ⟨rfl, rfl, rfl⟩) ⟨rfl, rfl, rfl⟩
      case isFalse =>
        cases h
        exact .taskMove (free hk ⟨rfl, rfl, rfl⟩) ⟨rfl, rfl, rfl⟩
    case h_2 => cases h
  case h_14 p hk =>
    simp only [events, hk]
    split at h
    case isTrue hz =>
      split at h
      case isTrue =>
        cases h
        exact .reap hk hz (same_parent _ p _)
      case isFalse =>
        cases h
        exact .taskUnlock (holding hk ⟨rfl, rfl, rfl⟩) ⟨rfl, rfl, rfl⟩ Same.rfl
    case isFalse =>
      cases h
      exact .taskUnlock (holding hk ⟨rfl, rfl, rfl⟩) ⟨rfl, rfl, rfl⟩ Same.rfl

theorem startStep_move {s s' : State Cpu Q} {a : Act Cpu} {c : Cpu} {t : Thread Cpu} {op : Op}
    (h : startStep s c t op = some s') : Move ops s a [] s' := by
  have start : ∀ {k : Task}, s.task t = .idle → k.Free → Move ops s a [] (s.setTask t k) :=
    fun ht hk => .taskMove (ht ▸ ⟨rfl, rfl, rfl⟩) hk
  simp only [startStep] at h
  split at h
  case isFalse => cases h
  case isTrue ht =>
    split at h
    case h_5 =>
      split at h
      case isTrue =>
        cases h
        exact start ht ⟨rfl, rfl, rfl⟩
      case isFalse => cases h
    case h_6 =>
      split at h
      case isTrue =>
        cases h
        exact start ht ⟨rfl, rfl, rfl⟩
      case isFalse => cases h
    case h_7 => cases h
    all_goals
      cases h
      exact start ht ⟨rfl, rfl, rfl⟩

/-- **Every step is a move.** -/
theorem step_move {s s' : State Cpu Q} {a : Act Cpu} (h : step ops s a = some s') :
    Move ops s a (events ops s a) s' := by
  cases a with
  | sched c =>
    simp only [step] at h
    split at h
    · exact schedStep_move h
    · cases h
  | self c p =>
    simp only [step] at h
    split at h
    case isTrue hc =>
      simp only [onCpu, Bool.and_eq_true, decide_eq_true_eq] at hc
      exact selfStep_move hc.1 h
    case isFalse => cases h
  | call c p w =>
    simp only [step] at h
    split at h
    case isTrue hg =>
      simp only [onCpu, Bool.and_eq_true, decide_eq_true_eq] at hg
      obtain ⟨⟨⟨⟨hc, -⟩, ho⟩, hl⟩, hh⟩ := hg
      split at h
      · cases h
        exact .call hc ho hl hh
      · cases h
    case isFalse => cases h
  | sleepPrepare c p chan =>
    simp only [step] at h
    split at h
    · cases h
      exact .quiet (same_setProc fun _ => ⟨rfl, rfl, rfl, rfl⟩)
    · cases h
  | reparent c p =>
    simp only [step] at h
    split at h
    · cases h
      exact .quiet same_reparent
    · cases h
  | start c t op =>
    simp only [step] at h
    split at h
    · exact startStep_move h
    · cases h
  | task c t ok =>
    simp only [step] at h
    split at h
    · exact taskStep_move h
    · cases h
  | tick =>
    simp only [step, Option.some_inj] at h
    subst h
    exact .quiet ⟨rfl, fun _ => rfl, fun _ => rfl, fun _ => rfl, fun _ => rfl⟩

end Mlfq
