/-
Where every process is.

The invariants of the kernel whose queues are deques, in three layers, each
kept by every `Move` with the help of the layers before it:

* `LockInv` — who holds `p->lock` is who the program counters say;
* `StateInv` — a process is on a CPU exactly while its own code runs, and its
  state is the one its program counter and the tasks working on it imply;
* `PlaceInv` — a process that is to be scheduled is in exactly one place: in a
  queue, popped by one scheduler, or in the hand of a boosting `yield_mlfq`.

The last one is where the windows between `p->lock` and `mlfq_lock` are:
`yield_mlfq` pushes before it writes `p->state`, `wakeup`, `kkill` and
`kfork` after, and a scheduler pops without holding `p->lock`.
-/
import CshellXv6.Mlfq.QueueFacts

namespace Mlfq

open Mem

variable {Cpu : Type}

/-- The program counters of a process at which it holds its own lock. -/
def SelfPc.holds : SelfPc → Bool
  | .off | .out => false
  | _ => true

/-- The states a process can be in at a program counter. -/
def SelfPc.Allows : SelfPc → ProcState → Prop
  | .off, x => x ≠ .RUNNING
  | .ready .yield, x => x = .RUNNABLE
  | .ready .sleep, x => x = .SLEEPING
  | .ready .exit, x => x = .ZOMBIE
  | _, x => x = .RUNNING

/-- The owner of `p->lock` is the one whose program counter holds it. -/
structure LockInv {Q : Type} (s : State Cpu Q) : Prop where
  sched : ∀ c p, s.cpu c = .locked p ∨ s.cpu c = .back p ↔ s.lock p = some (.sched c)
  self : ∀ p, (s.self p).holds = true ↔ s.lock p = some .self
  task : ∀ t p, (s.task t).holds = some p ↔ s.lock p = some (.thread t)

/-- The state of a process fits the program counters. -/
structure StateInv {Q : Type} (s : State Cpu Q) : Prop where
  off : ∀ p, s.self p = .off ↔ ∀ c, s.cpu c ≠ .running p
  running : ∀ c c' p, s.cpu c = .running p → s.cpu c' = .running p → c = c'
  self : ∀ p, (s.self p).Allows (s.mem.proc p).state
  pushing : ∀ t p, (s.task t).pushing = some p → (s.mem.proc p).state = .RUNNABLE
  making : ∀ t p, (s.task t).making = some p → (s.mem.proc p).state = .USED
  making_unique : ∀ t t' p, (s.task t).making = some p → (s.task t').making = some p → t = t'
  boosting : ∀ p, s.self p = .boosting ↔ ∃ pc, s.mlfq = some (p, pc)

theorem Task.holds_of_pushing {k : Task} {p : ProcId} (h : k.pushing = some p) :
    k.holds = some p := by
  cases k <;> simp_all [Task.pushing, Task.holds]

section Locks

variable {Q : Type} {ops : QueueOps Q} {s s' : State Cpu Q} {a : Act Cpu} {es : List Event}

/-- Whoever holds `p->lock` from outside and finds `p` in a state other than
`RUNNING` finds it off its CPU. -/
theorem StateInv.off_of_lock (hL : LockInv s) (h : StateInv s) {o : Owner Cpu} {p : ProcId}
    (hl : s.lock p = some o) (ho : o ≠ .self) (hr : (s.mem.proc p).state ≠ .RUNNING) :
    s.self p = .off := by
  have hs := hL.self p
  have ha := h.self p
  rw [hl] at hs
  cases hp : s.self p <;> simp_all [SelfPc.holds, SelfPc.Allows]

theorem StateInv.off_of_dispatch (hL : LockInv s) (h : StateInv s) {c : Cpu} {p : ProcId}
    (hc : s.cpu c = .locked p) (hr : (s.mem.proc p).state = .RUNNABLE) : s.self p = .off :=
  h.off_of_lock hL ((hL.sched c p).mp (.inl hc)) (by simp) (by simp [hr])

variable [DecidableEq Cpu]

/-- A move of the lock of `p` is made by its owner, or takes a free lock. -/
theorem LockInv.move_at (h : LockInv s) (hm : Move ops s a es s') (p : ProcId) :
    (∀ c, s'.cpu c = .locked p ∨ s'.cpu c = .back p ↔ s'.lock p = some (.sched c)) ∧
      ((s'.self p).holds = true ↔ s'.lock p = some .self) ∧
      ∀ t, (s'.task t).holds = some p ↔ s'.lock p = some (.thread t) := by
  have h₁ := fun c => h.sched c p
  have h₂ := h.self p
  have h₃ := fun t => h.task t p
  -- the owners of the locks that a move releases
  have hback : ∀ c, s.cpu c = .back p → s.lock p = some (.sched c) :=
    fun c hc => (h₁ c).mp (.inr hc)
  have hsetup : ∀ t, s.task t = .setup p → s.lock p = some (.thread t) :=
    fun t ht => (h₃ t).mp (by rw [ht]; rfl)
  have hwait : ∀ t, s.task t = .waitLocked p → s.lock p = some (.thread t) :=
    fun t ht => (h₃ t).mp (by rw [ht]; rfl)
  cases hm <;>
    simp only [State.setLock, State.setCpu, State.setSelf, State.setTask, State.setProc,
      State.setState, freeproc, Function.update_apply] <;>
    grind [Task.Free, Task.Holding, SelfPc.holds, Task.holds]

theorem LockInv.move (h : LockInv s) (hm : Move ops s a es s') : LockInv s' where
  sched := fun c p => (h.move_at hm p).1 c
  self := fun p => (h.move_at hm p).2.1
  task := fun t p => (h.move_at hm p).2.2 t

theorem StateInv.off_move (hL : LockInv s) (h : StateInv s) (hm : Move ops s a es s') (p : ProcId) :
    s'.self p = .off ↔ ∀ c, s'.cpu c ≠ .running p := by
  have h₁ := h.off p
  have h₂ := fun c c' => h.running c c' p
  have hd := fun c => h.off_of_dispatch hL (c := c) (p := p)
  cases hm <;>
    simp only [State.setLock, State.setCpu, State.setSelf, State.setTask, State.setProc,
      State.setState, freeproc, Function.update_apply] <;> grind

theorem StateInv.running_move (hL : LockInv s) (h : StateInv s) (hm : Move ops s a es s')
    {c c' : Cpu} {p : ProcId} : s'.cpu c = .running p → s'.cpu c' = .running p → c = c' := by
  have h₁ := h.off p
  have h₂ := fun c c' => h.running c c' p
  have hd := fun c => h.off_of_dispatch hL (c := c) (p := p)
  cases hm <;>
    simp only [State.setLock, State.setCpu, State.setSelf, State.setTask, State.setProc,
      State.setState, freeproc, Function.update_apply] <;> grind

theorem StateInv.self_move (hL : LockInv s) (h : StateInv s) (hm : Move ops s a es s') (p : ProcId) :
    (s'.self p).Allows (s'.mem.proc p).state := by
  have h₁ := h.self p
  have hd : ∀ t, (s.task t).holds = some p → (s.mem.proc p).state ≠ .RUNNING → s.self p = .off :=
    fun t ht hr => h.off_of_lock hL ((hL.task t p).mp ht) (by simp) hr
  have hk := fun t => h.making t p
  have hsw : ∀ w x, (SelfPc.ready w).Allows x → SelfPc.off.Allows x := by
    intro w x hx
    cases w <;> rw [hx] <;> simp [SelfPc.Allows]
  cases hm <;>
    simp only [State.setLock, State.setCpu, State.setSelf, State.setTask, State.setProc,
      State.setState, freeproc, setProc_proc, Function.update_apply] <;>
    grind [Task.holds, Task.making, SelfPc.Allows, Mem.Same, popFirst_state, boostStep_state,
      account_state, push_state, boostEnd_state]

theorem StateInv.pushing_move (hL : LockInv s) (h : StateInv s) (hm : Move ops s a es s')
    {t : Thread Cpu} {p : ProcId} :
    (s'.task t).pushing = some p → (s'.mem.proc p).state = .RUNNABLE := by
  have h₁ := fun t => h.pushing t p
  have hl : ∀ t, (s.task t).pushing = some p → s.lock p = some (.thread t) :=
    fun t ht => (hL.task t p).mp (Task.holds_of_pushing ht)
  have l₁ := fun c => hL.sched c p
  have l₂ := hL.self p
  have l₃ := fun t => hL.task t p
  cases hm <;>
    simp only [State.setLock, State.setCpu, State.setSelf, State.setTask, State.setProc,
      State.setState, freeproc, setProc_proc, Function.update_apply] <;>
    grind [Task.holds, Task.pushing, Task.Free, Task.Holding, SelfPc.holds, Mem.Same,
      popFirst_state, boostStep_state, account_state, push_state, boostEnd_state]

theorem StateInv.making_move (h : StateInv s) (hm : Move ops s a es s')
    {t : Thread Cpu} {p : ProcId} :
    (s'.task t).making = some p → (s'.mem.proc p).state = .USED := by
  have h₁ := fun t => h.making t p
  have h₂ := fun t t' => h.making_unique t t' p
  have h₃ := h.self p
  cases hm <;>
    simp only [State.setLock, State.setCpu, State.setSelf, State.setTask, State.setProc,
      State.setState, freeproc, setProc_proc, Function.update_apply] <;>
    grind [Task.making, Task.Free, Task.Holding, SelfPc.Allows, Mem.Same, popFirst_state,
      boostStep_state, account_state, push_state, boostEnd_state]

theorem StateInv.making_unique_move (h : StateInv s) (hm : Move ops s a es s')
    {t t' : Thread Cpu} {p : ProcId} :
    (s'.task t).making = some p → (s'.task t').making = some p → t = t' := by
  have h₁ := fun t => h.making t p
  have h₂ := fun t t' => h.making_unique t t' p
  cases hm <;>
    simp only [State.setLock, State.setCpu, State.setSelf, State.setTask, State.setProc,
      State.setState, freeproc, Function.update_apply] <;>
    grind [Task.making, Task.Free, Task.Holding]

theorem StateInv.boosting_move (hL : LockInv s) (h : StateInv s) (hm : Move ops s a es s')
    (p : ProcId) : s'.self p = .boosting ↔ ∃ pc, s'.mlfq = some (p, pc) := by
  have h₁ := h.boosting
  have hd := fun c => h.off_of_dispatch hL (c := c) (p := p)
  cases hm <;>
    simp only [State.setLock, State.setCpu, State.setSelf, State.setTask, State.setProc,
      State.setState, freeproc, Function.update_apply, Option.some.injEq, Prod.mk.injEq,
      exists_and_left, exists_eq', and_true] <;> grind

theorem StateInv.move (hL : LockInv s) (h : StateInv s) (hm : Move ops s a es s') : StateInv s' where
  off := h.off_move hL hm
  running := fun _ _ _ => h.running_move hL hm
  self := h.self_move hL hm
  pushing := fun _ _ => h.pushing_move hL hm
  making := fun _ _ => h.making_move hm
  making_unique := fun _ _ _ => h.making_unique_move hm
  boosting := h.boosting_move hL hm

end Locks

/-! ### Where a runnable process is -/

/-- Process `p` is in one of the places it can be scheduled from. -/
def Placed {Q : Type} (s : State Cpu Q) (p : ProcId) : Prop :=
  (s.mem.proc p).inq = true ∨ (∃ c, s.cpu c = .popped p) ∨
    ∃ b i, s.mlfq = some (b, .popped i p)

/-- Process `p` is to be scheduled: it has gone back to the queues in
`yield_mlfq`, or is `RUNNABLE` and neither taken by a scheduler nor still to be
pushed by the thread that made it so. -/
def ToRun {Q : Type} (s : State Cpu Q) (p : ProcId) : Prop :=
  s.self p = .queued ∨ (s.mem.proc p).state = .RUNNABLE ∧ (∀ c, s.cpu c ≠ .locked p) ∧
    ∀ t, (s.task t).pushing ≠ some p

/-- A process that is to be scheduled is in exactly one place. -/
structure PlaceInv (s : State Cpu Deques) : Prop where
  queues : QueueOk s.mem
  placed : ∀ p, Placed s p ↔ ToRun s p
  popped : ∀ c p, s.cpu c = .popped p → (s.mem.proc p).inq = false
  popped_unique : ∀ c c' p, s.cpu c = .popped p → s.cpu c' = .popped p → c = c'
  hand : ∀ b i p, s.mlfq = some (b, .popped i p) → (s.mem.proc p).inq = false ∧
    (s.mem.proc p).queue = 0 ∧ ∀ c, s.cpu c ≠ .popped p
  locked : ∀ c p, s.cpu c = .locked p → (s.mem.proc p).state = .RUNNABLE
  fresh : ∀ t p, (s.task t).making = some p ∨ s.task t = .forkPush p →
    (s.mem.proc p).queue = 0

section Places

variable {s s' : State Cpu Deques} {a : Act Cpu} {es : List Event}

theorem PlaceInv.inq_false (h : PlaceInv s) {p : ProcId} (hr : ¬ ToRun s p) :
    (s.mem.proc p).inq = false := by
  by_contra hi
  exact hr ((h.placed p).mp (.inl (by simpa using hi)))

/-- A process in one of its calls, and not back in the queues, is not to be
scheduled. -/
theorem not_toRun {p : ProcId} (hp : s.self p ≠ .queued)
    (hr : (s.mem.proc p).state ≠ .RUNNABLE) : ¬ ToRun s p := by
  rintro (hq | hq)
  · exact hp hq
  · exact hr hq.1

theorem StateInv.not_toRun_pushing (hS : StateInv s) {t : Thread Cpu} {p : ProcId}
    (ht : (s.task t).pushing = some p) : ¬ ToRun s p := by
  rintro (hq | hq)
  · have ha := hS.self p
    rw [hq, hS.pushing t p ht] at ha
    exact absurd ha (by simp [SelfPc.Allows])
  · exact hq.2.2 t ht

theorem PlaceInv.queues_boost (h : PlaceInv s) {b : ProcId} {pc pc' : BoostPc}
    {m : Mem Deques} (hb : s.mlfq = some (b, pc))
    (hst : s.mem.boostStep dequeOps pc = some (pc', m)) : QueueOk m := by
  obtain ⟨i, -, -, hp⟩ | ⟨i, pp, m₁, -, -, hp, rfl⟩ | ⟨i, pp, rfl, -, rfl⟩ := boostStep_cases hst
  · obtain ⟨-, rfl⟩ := pop_none_deques hp
    exact h.queues
  · have hin : (m₁.proc pp).inq = false := by
      rw [pop_proc hp, if_pos rfl]
    exact (h.queues.pop hp).1.setProc hin hin
  · obtain ⟨hi, hq, -⟩ := h.hand b i pp hb
    exact h.queues.push true hi hq

theorem QueueOk.setState {m : Mem Deques} (h : QueueOk m) (p : ProcId) (st : ProcState) :
    QueueOk (m.setProc p fun x => { x with state := st }) :=
  h.setOther rfl rfl

theorem QueueOk.free {m : Mem Deques} (h : QueueOk m) (p : ProcId) :
    QueueOk (m.setProc p fun x =>
      { x with pid := 0, chan := 0, killed := false, state := .UNUSED }) :=
  h.setOther rfl rfl

/-- No scheduler has popped a process that is not to be scheduled. -/
theorem PlaceInv.not_popped (h : PlaceInv s) {p : ProcId} (hr : ¬ ToRun s p) (c : Cpu) :
    s.cpu c ≠ .popped p :=
  fun hc => hr ((h.placed p).mp (.inr (.inl ⟨c, hc⟩)))

theorem StateInv.not_toRun_self (hS : StateInv s) {p : ProcId} {w : Call}
    (hp : s.self p = .locked w ∨ s.self p = .boosting) : ¬ ToRun s p := by
  refine not_toRun (by rcases hp with hp | hp <;> simp [hp]) ?_
  have := hS.self p
  rcases hp with hp | hp <;> rw [hp] at this <;> rw [this] <;> simp

/-- What the scheduler pops was in a queue. -/
theorem PlaceInv.popFirst_inq_true (h : PlaceInv s) {p : ProcId} {m : Mem Deques}
    (hp : s.mem.popFirst dequeOps [0, 1, 2, 3] = some (some p, m)) :
    (s.mem.proc p).inq = true := by
  obtain ⟨q, hq⟩ := popFirst_deques hp
  exact (h.queues.pop hq).2

/-- What the boost loop pops was in a queue. -/
theorem PlaceInv.boostStep_inq_true (h : PlaceInv s) {i : ℕ} {p : ProcId} {m : Mem Deques}
    (hp : s.mem.boostStep dequeOps (.loop i) = some (.popped i p, m)) :
    (s.mem.proc p).inq = true := by
  obtain ⟨_, -, he, -⟩ | ⟨j, pp, m₁, -, he, hq, -⟩ | ⟨_, _, he, -⟩ := boostStep_cases hp
  · cases he
  · cases he
    exact (h.queues.pop hq).2
  · cases he

/-- The three layers together. -/
structure Inv (s : State Cpu Deques) : Prop where
  locks : LockInv s
  states : StateInv s
  places : PlaceInv s

theorem inv_boot : Inv (boot dequeOps : State Cpu Deques) where
  locks := by constructor <;> simp [boot, SelfPc.holds, Task.holds]
  states := by
    constructor <;> simp [boot, SelfPc.Allows, Task.pushing, Task.making]
  places := by
    constructor
    case queues => constructor <;> simp [boot, dequeOps]
    all_goals simp [boot, Placed, ToRun, Task.making]

variable [DecidableEq Cpu]

theorem PlaceInv.locked_move (hL : LockInv s) (hS : StateInv s) (h : PlaceInv s)
    (hm : Move dequeOps s a es s') {c : Cpu} {p : ProcId} :
    s'.cpu c = .locked p → (s'.mem.proc p).state = .RUNNABLE := by
  have h₁ := fun c => h.locked c p
  have hk := fun t => hS.making t p
  have l₁ := fun c => hL.sched c p
  have l₂ := hL.self p
  have l₃ := fun t => hL.task t p
  -- what a scheduler has popped is `RUNNABLE` once its lock is free
  have hp : ∀ c, s.cpu c = .popped p → s.lock p = none → (s.mem.proc p).state = .RUNNABLE := by
    intro c hc hl
    rcases (h.placed p).mp (.inr (.inl ⟨c, hc⟩)) with hq | hr
    · have := (hL.self p).mp (by rw [hq]; rfl)
      rw [hl] at this
      cases this
    · exact hr.1
  cases hm <;>
    simp only [State.setLock, State.setCpu, State.setSelf, State.setTask, State.setProc,
      State.setState, freeproc, setProc_proc, Function.update_apply] <;>
    grind [Task.holds, Task.making, SelfPc.holds, Mem.Same, popFirst_state, boostStep_state,
      account_state, push_state, boostEnd_state]

theorem PlaceInv.fresh_move (hL : LockInv s) (hS : StateInv s) (h : PlaceInv s)
    (hm : Move dequeOps s a es s') {t : Thread Cpu} {p : ProcId} :
    (s'.task t).making = some p ∨ s'.task t = .forkPush p → (s'.mem.proc p).queue = 0 := by
  have h₁ := fun t => h.fresh t p
  have l₂ := hL.self p
  have l₃ := fun t => hL.task t p
  -- a process that accounts for its tick is not in the making
  have hs := hS.self p
  have hk := fun t => hS.making t p
  have hp : ∀ t, s.task t = .forkPush p → (s.mem.proc p).state = .RUNNABLE :=
    fun t ht => hS.pushing t p (by rw [ht]; rfl)
  cases hm <;>
    simp only [State.setLock, State.setCpu, State.setSelf, State.setTask, State.setProc,
      State.setState, freeproc, setProc_proc, Function.update_apply] <;>
    grind [Task.making, Task.pushing, Task.Free, Task.Holding, SelfPc.Allows, Mem.Same,
      popFirst_queue, boostStep_queue, account_queue, push_queue, boostEnd_queue]

theorem PlaceInv.queues_move (hS : StateInv s) (h : PlaceInv s) (hm : Move dequeOps s a es s') :
    QueueOk s'.mem := by
  have hQ := h.queues
  have hself := hS.self
  -- a process in `yield_mlfq` is running, so it is in no queue
  have out : ∀ p w, s.self p = .locked w ∨ s.self p = .boosting → (s.mem.proc p).inq = false := by
    intro p w hp
    refine h.inq_false (not_toRun (by rcases hp with hp | hp <;> simp [hp]) ?_)
    have := hself p
    rcases hp with hp | hp <;> rw [hp] at this <;> rw [this] <;> simp
  cases hm with
  | quiet hs => exact hQ.same hs
  | popNone _ hp => rw [popFirst_none_deques hp]; exact hQ
  | pop _ _ hp =>
    obtain ⟨q, hq⟩ := popFirst_deques hp
    exact (hQ.pop hq).1
  | account _ hp => exact hQ.account (out _ _ (.inl hp))
  | boostCall _ _ hb hst => exact h.queues_boost hb hst
  | @boostEnd c p _ hp _ =>
    have hi := out p .yield (.inr hp)
    refine (hQ.boostEnd hi).account ?_
    rw [boostEnd_inq]
    exact hi
  | dispatch => exact hQ.setState _ _
  | block => exact hQ.setState _ _
  | runnable => exact hQ.setState _ _
  | taskUnlock _ _ hs => exact hQ.same hs
  | wake _ _ hs => exact (hQ.same hs).setState _ _
  | wakePush ht =>
    exact hQ.push true (h.inq_false (hS.not_toRun_pushing (by rw [ht]; rfl))) rfl
  | @take c t p ok _ n _ ht hu =>
    -- the entry was unused, so it is in no queue
    have hq : s.self p ≠ .queued := by
      intro hq
      have := hself p
      rw [hq, hu] at this
      cases this
    have hi := h.inq_false (not_toRun hq (by rw [hu]; simp))
    exact hQ.setProc (f := fun x =>
      { x with pid := n, state := .USED, queue := 0, tick := 0, inq := false }) hi rfl
  | giveUp => exact hQ.free _
  | forkAcquire _ _ hs => exact hQ.same hs
  | forkRunnable => exact hQ.setState _ _
  | forkPush ht =>
    exact hQ.push true (h.inq_false (hS.not_toRun_pushing (by rw [ht]; rfl)))
      (h.fresh _ _ (.inr ht))
  | reap _ _ hs => exact (hQ.same hs).free _
  | _ => exact hQ

theorem PlaceInv.popped_move (hS : StateInv s) (h : PlaceInv s) (hm : Move dequeOps s a es s')
    {c : Cpu} {p : ProcId} : s'.cpu c = .popped p → (s'.mem.proc p).inq = false := by
  have h₁ := fun c => h.popped c p
  have h₂ := fun b i => h.hand b i p
  have n₁ : ∀ t c, (s.task t).pushing = some p → s.cpu c ≠ .popped p :=
    fun t c ht => h.not_popped (hS.not_toRun_pushing ht) c
  have n₂ : ∀ c, s.self p = .locked .yield ∨ s.self p = .boosting → s.cpu c ≠ .popped p :=
    fun c hp => h.not_popped (hS.not_toRun_self hp) c
  cases hm <;>
    simp only [State.setLock, State.setCpu, State.setSelf, State.setTask, State.setProc,
      State.setState, freeproc, setProc_proc, Function.update_apply] <;>
    grind [Task.pushing, Mem.Same, popFirst_inq, popFirst_none_proc, boostStep_inq, account_inq,
      push_inq, boostEnd_inq]

theorem PlaceInv.popped_unique_move (h : PlaceInv s) (hm : Move dequeOps s a es s')
    {c c' : Cpu} {p : ProcId} : s'.cpu c = .popped p → s'.cpu c' = .popped p → c = c' := by
  have h₁ := fun c => h.popped c p
  have h₂ := fun c c' => h.popped_unique c c' p
  have hp := fun m => h.popFirst_inq_true (p := p) (m := m)
  cases hm <;>
    simp only [State.setLock, State.setCpu, State.setSelf, State.setTask, State.setProc,
      State.setState, freeproc, Function.update_apply] <;> grind

theorem PlaceInv.hand_move (h : PlaceInv s) (hm : Move dequeOps s a es s')
    {b : ProcId} {i : ℕ} {p : ProcId} : s'.mlfq = some (b, .popped i p) →
    (s'.mem.proc p).inq = false ∧ (s'.mem.proc p).queue = 0 ∧ ∀ c, s'.cpu c ≠ .popped p := by
  have h₁ := fun b i => h.hand b i p
  have h₂ := fun c => h.popped c p
  have q₂ := fun i m => h.boostStep_inq_true (i := i) (p := p) (m := m)
  cases hm <;>
    simp only [State.setLock, State.setCpu, State.setSelf, State.setTask, State.setProc,
      State.setState, freeproc, setProc_proc, Function.update_apply] <;>
    grind [Mem.Same, popFirst_inq, boostStep_inq]

theorem PlaceInv.placed_move (hL : LockInv s) (hS : StateInv s) (h : PlaceInv s)
    (hm : Move dequeOps s a es s') (p : ProcId) : Placed s' p ↔ ToRun s' p := by
  have h₀ := h.placed p
  have h₁ := fun c => h.popped c p
  have h₂ := fun b i => h.hand b i p
  have h₃ := fun c c' => h.popped_unique c c' p
  have hs := hS.self p
  have hk := fun t => hS.making t p
  have hp := fun t => hS.pushing t p
  have q₁ := fun m => h.popFirst_inq_true (p := p) (m := m)
  have q₂ := fun i m => h.boostStep_inq_true (i := i) (p := p) (m := m)
  -- two of a scheduler that has locked `p`, a thread about to push `p` and `p` back in
  -- the queues would hold `p->lock` together
  have l₁ : ∀ c, s.cpu c = .locked p → s.lock p = some (.sched c) :=
    fun c hc => (hL.sched c p).mp (.inl hc)
  have l₂ : s.self p = .queued → s.lock p = some .self :=
    fun hq => (hL.self p).mp (by rw [hq]; rfl)
  have l₃ : ∀ t, (s.task t).pushing = some p → s.lock p = some (.thread t) :=
    fun t ht => (hL.task t p).mp (Task.holds_of_pushing ht)
  simp only [Placed, ToRun] at h₀ ⊢
  cases hm <;>
    simp only [State.setLock, State.setCpu, State.setSelf, State.setTask, State.setProc,
      State.setState, freeproc, setProc_proc, Function.update_apply, Option.some.injEq,
      Prod.mk.injEq, exists_and_left, exists_eq_left'] <;>
    grind [Task.pushing, Task.Free, Task.Holding, Task.making, SelfPc.Allows, Mem.Same,
      popFirst_inq, popFirst_none_proc, boostStep_inq, account_inq, push_inq, boostEnd_inq,
      popFirst_state, boostStep_state, account_state, push_state, boostEnd_state]

theorem PlaceInv.move (hL : LockInv s) (hS : StateInv s) (h : PlaceInv s)
    (hm : Move dequeOps s a es s') : PlaceInv s' where
  queues := h.queues_move hS hm
  placed := h.placed_move hL hS hm
  popped := fun _ _ => h.popped_move hS hm
  popped_unique := fun _ _ _ => h.popped_unique_move hm
  hand := fun _ _ _ => h.hand_move hm
  locked := fun _ _ => h.locked_move hL hS hm
  fresh := fun _ _ => h.fresh_move hL hS hm

theorem Inv.move (h : Inv s) (hm : Move dequeOps s a es s') : Inv s' where
  locks := h.locks.move hm
  states := h.states.move h.locks hm
  places := h.places.move h.locks h.states hm

/-- **Every reachable state of the kernel satisfies the invariants.** -/
theorem inv_reachable (h : (kernel Cpu dequeOps).Reachable s) : Inv s :=
  (kernel Cpu dequeOps).invariant (I := Inv) (fun _ hi => hi ▸ inv_boot)
    (fun _ _ _ hI hs => hI.move (step_move hs)) h

end Places

/-! ### No runnable process is lost or duplicated -/

/-- A `RUNNABLE` process that nobody has locked or popped is in a queue. -/
theorem Inv.in_queue {s : State Cpu Deques} (h : Inv s) (hm : s.mlfq = none) {p : ProcId}
    (hr : (s.mem.proc p).state = .RUNNABLE) (hl : s.lock p = none)
    (hc : ∀ c, s.cpu c ≠ .popped p) : ∃ q, p ∈ s.mem.queues q := by
  obtain ⟨hL, hS, hP⟩ := h
  -- nobody holds `p->lock`, so no scheduler has taken `p` and nobody is about to push it
  have hrun : ToRun s p := by
    refine .inr ⟨hr, fun c hc' => ?_, fun t ht => ?_⟩
    · have := (hL.sched c p).mp (.inl hc')
      rw [hl] at this
      cases this
    · have := (hL.task t p).mp (Task.holds_of_pushing ht)
      rw [hl] at this
      cases this
  refine (hP.queues.inq_iff p).mp ?_
  rcases (hP.placed p).mpr hrun with hi | ⟨c, hc'⟩ | ⟨b, i, hb⟩
  · exact hi
  · exact absurd hc' (hc c)
  · rw [hm] at hb
    cases hb

/-- In every reachable state: outside the sections under `mlfq_lock`, a
`RUNNABLE` process whose lock is free and which no scheduler has popped is in
the queue of its level, once, and in no other; `inq` tells who is in a queue;
a process in a queue is `RUNNABLE` or still on its way out of `yield_mlfq`; and
the test of `p->state` in `scheduler_mlfq` never fails. -/
theorem runnable_in_one_queue [DecidableEq Cpu] {s : State Cpu Deques}
    (h : (kernel Cpu dequeOps).Reachable s) :
    (∀ p, s.mlfq = none → (s.mem.proc p).state = .RUNNABLE → s.lock p = none →
      (∀ c, s.cpu c ≠ .popped p) →
      ∀ q, (s.mem.queues q).count p = if q = (s.mem.proc p).queue then 1 else 0) ∧
    (∀ p, (s.mem.proc p).inq = true ↔ ∃ q, p ∈ s.mem.queues q) ∧
    (∀ p q, p ∈ s.mem.queues q → (s.mem.proc p).state ≠ .SLEEPING ∧
      (s.mem.proc p).state ≠ .ZOMBIE ∧ (s.mem.proc p).state ≠ .USED ∧
      (s.mem.proc p).state ≠ .UNUSED) ∧
    (∀ c p, s.cpu c = .locked p → (s.mem.proc p).state = .RUNNABLE) := by
  obtain ⟨hL, hS, hP⟩ := inv_reachable h
  refine ⟨?_, hP.queues.inq_iff, ?_, hP.locked⟩
  · intro p hm hr hl hc q
    obtain ⟨q', hq'⟩ := (inv_reachable h).in_queue hm hr hl hc
    have hlev := hP.queues.level p q' hq'
    split
    case isTrue he =>
      rw [he, hlev]
      exact List.count_eq_one_of_mem (hP.queues.nodup q') hq'
    case isFalse hne =>
      exact List.count_eq_zero_of_not_mem fun hq => hne (hP.queues.level p q hq).symm
  · intro p q hp
    rcases (hP.placed p).mp (.inl ((hP.queues.inq_iff p).mpr ⟨q, hp⟩)) with hq | hr
    · have ha := hS.self p
      rw [hq] at ha
      rw [ha]
      simp
    · rw [hr.1]
      simp

/-- Three processes: the first one runs, the second one waits at level 1, and the
third one, which slept, has just been woken by a device interrupt. -/
def wokenActs {Cpu : Type} (c : Cpu) : List (Act Cpu) :=
  userinitActs c ++ takeActs c firstProc ++ familyActs c ++
    .start c (.intr c) (.wakeup 3) :: List.replicate 8 (.task c (.intr c) true)

/-- Each of the two that can run is in one queue, once. -/
theorem runnable_in_one_queue_woken : ∃ s : State (Fin 8) Deques,
    (kernel (Fin 8) dequeOps).Reachable s ∧
      (∀ q, (s.mem.queues q).count secondProc = if q = 1 then 1 else 0) ∧
      ∀ q, (s.mem.queues q).count thirdProc = if q = 0 then 1 else 0 := by
  obtain ⟨s, hr, hm, hsecond, hthird⟩ := Sys.exists_of_run (kernel (Fin 8) dequeOps) (wokenActs 0)
    (s := boot dequeOps) (p := fun s => s.mlfq = none ∧
      ((s.mem.proc secondProc).state = .RUNNABLE ∧ s.lock secondProc = none ∧
        (∀ c, s.cpu c ≠ .popped secondProc) ∧ (s.mem.proc secondProc).queue = 1) ∧
      (s.mem.proc thirdProc).state = .RUNNABLE ∧ s.lock thirdProc = none ∧
        (∀ c, s.cpu c ≠ .popped thirdProc) ∧ (s.mem.proc thirdProc).queue = 0)
    (.init rfl) (by decide +kernel)
  obtain ⟨hstate₂, hlock₂, hpop₂, hq₂⟩ := hsecond
  obtain ⟨hstate₃, hlock₃, hpop₃, hq₃⟩ := hthird
  have hone := (runnable_in_one_queue hr).1
  refine ⟨s, hr, fun q => ?_, fun q => ?_⟩
  · rw [hone secondProc hm hstate₂ hlock₂ hpop₂ q, hq₂]
  · rw [hone thirdProc hm hstate₃ hlock₃ hpop₃ q, hq₃]

end Mlfq
