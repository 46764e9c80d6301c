/-
The scheduling core of the kernel as a transition system.

Any number of CPUs run `scheduler_mlfq`, every process has a kernel thread,
and every CPU takes device interrupts.  A step of the model is a piece of code
between two points where another thread of control can get in:

* `p->lock` is a lock with an owner; the code that holds it is cut at its
  acquire, at the writes of `p->state` and at its release;
* a section under `mlfq_lock` that makes a single call of `push` or `pop` take
  effect is one step; the section of a `yield_mlfq` that boosts is a sequence
  of steps, one for each call, and keeps every other section out by `mlfq`.

The program counters are `CpuPc` (the scheduler of a CPU), `SelfPc` (a
process inside `yield_mlfq`, `sleep` or `kexit`, the calls that end in
`sched`) and `Task` (a thread inside `wakeup`, `kkill`, `kfork`, `userinit` or
`kwait`).  `wait_lock` is left out, so the model allows more interleavings
than the code.
-/
import CshellXv6.Lib.Transition
import CshellXv6.Mlfq.Queue

namespace Mlfq

open Mem

/-- Where `scheduler_mlfq` stands on a CPU. -/
inductive CpuPc
  /-- at the top of the loop -/
  | idle
  /-- `p` popped, `p->lock` not yet acquired -/
  | popped (p : ProcId)
  /-- `p->lock` acquired, the test of `p->state` to come -/
  | locked (p : ProcId)
  /-- switched to `p` -/
  | running (p : ProcId)
  /-- switched back from `p`, holding `p->lock` -/
  | back (p : ProcId)
  deriving DecidableEq, Repr

/-- The calls that end in `sched`. -/
inductive Call
  | yield | sleep | exit
  deriving DecidableEq, Repr

/-- Where a process stands with respect to those calls. -/
inductive SelfPc
  /-- not on a CPU -/
  | off
  /-- just switched to, holding the `p->lock` taken by the scheduler -/
  | resume
  /-- running, outside the calls -/
  | out
  /-- inside call `w`, `p->lock` acquired -/
  | locked (w : Call)
  /-- inside the boost block of `yield_mlfq` -/
  | boosting
  /-- back in a queue, `mlfq_lock` released, `p->state` not yet written -/
  | queued
  /-- `p->state` written, `swtch` to come -/
  | ready (w : Call)
  deriving DecidableEq, Repr

/-- A thread of control that can call `wakeup`, `kkill`, `kfork` or `kwait`. -/
inductive Thread (Cpu : Type)
  | proc (p : ProcId)
  | intr (c : Cpu)
  | boot
  deriving DecidableEq

/-- The two scans that wake sleepers. -/
inductive Goal
  | wakeup (chan : ℕ)
  | kkill (pid : ℕ)
  deriving DecidableEq, Repr

/-- Where a thread stands inside those functions. -/
inductive Task
  | idle
  /-- `wakeup` or `kkill`, about to acquire `proc[i].lock` -/
  | scan (g : Goal) (i : ℕ)
  | scanLocked (g : Goal) (p : ProcId)
  /-- `p->state` set to `RUNNABLE`, the push to come -/
  | scanPush (g : Goal) (p : ProcId)
  | scanUnlock (g : Goal) (p : ProcId)
  /-- `allocproc`, about to acquire `proc[i].lock` -/
  | alloc (i : ℕ)
  | allocLocked (p : ProcId)
  /-- `allocproc` has taken `p` -/
  | setup (p : ProcId)
  /-- `kfork` between its release of `np->lock` and the next acquire -/
  | fork (p : ProcId)
  | forkLocked (p : ProcId)
  | forkPush (p : ProcId)
  | forkUnlock (p : ProcId)
  /-- `kwait`, at entry `i` of the table -/
  | wait (i : ℕ)
  | waitLocked (p : ProcId)
  deriving DecidableEq, Repr

/-- Who holds a `p->lock`: a scheduler, the process itself inside one of its
calls, or a thread inside one of its tasks. -/
inductive Owner (Cpu : Type)
  | sched (c : Cpu)
  | self
  | thread (t : Thread Cpu)
  deriving DecidableEq

structure State (Cpu Q : Type) where
  mem : Mem Q
  nextpid : ℕ
  initproc : Option ProcId
  lock : ProcId → Option (Owner Cpu)
  /-- the `yield_mlfq` holding `mlfq_lock` across its boost loop -/
  mlfq : Option (ProcId × BoostPc)
  cpu : Cpu → CpuPc
  self : ProcId → SelfPc
  task : Thread Cpu → Task

/-- A call a thread can make. -/
inductive Op
  | wakeup (chan : ℕ)
  | kkill (pid : ℕ)
  | fork
  | wait
  deriving DecidableEq, Repr

/-- The scheduling choices: who takes the next step, on which CPU. -/
inductive Act (Cpu : Type)
  /-- `scheduler_mlfq` on `c` -/
  | sched (c : Cpu)
  /-- process `p`, inside one of its calls -/
  | self (c : Cpu) (p : ProcId)
  /-- `p` enters `yield_mlfq`, `sleep` or the last part of `kexit` -/
  | call (c : Cpu) (p : ProcId) (w : Call)
  | sleepPrepare (c : Cpu) (p : ProcId) (chan : ℕ)
  | reparent (c : Cpu) (p : ProcId)
  /-- thread `t` makes call `op` -/
  | start (c : Cpu) (t : Thread Cpu) (op : Op)
  /-- thread `t` goes on with its call; `ok` is what `kalloc`, `uvmcopy` and
  `copyout` answer there -/
  | task (c : Cpu) (t : Thread Cpu) (ok : Bool)
  /-- `clockintr`: `ticks++` -/
  | tick
  deriving DecidableEq

namespace State

variable {Cpu Q : Type} [DecidableEq Cpu]

def setLock (s : State Cpu Q) (p : ProcId) (o : Option (Owner Cpu)) : State Cpu Q :=
  { s with lock := Function.update s.lock p o }

def setCpu (s : State Cpu Q) (c : Cpu) (pc : CpuPc) : State Cpu Q :=
  { s with cpu := Function.update s.cpu c pc }

def setSelf (s : State Cpu Q) (p : ProcId) (pc : SelfPc) : State Cpu Q :=
  { s with self := Function.update s.self p pc }

def setTask (s : State Cpu Q) (t : Thread Cpu) (k : Task) : State Cpu Q :=
  { s with task := Function.update s.task t k }

def setProc (s : State Cpu Q) (p : ProcId) (f : Proc → Proc) : State Cpu Q :=
  { s with mem := s.mem.setProc p f }

/-- `p->state = st`. -/
def setState (s : State Cpu Q) (p : ProcId) (st : ProcState) : State Cpu Q :=
  s.setProc p fun x => { x with state := st }

end State

/-- The lock a task holds. -/
def Task.holds : Task → Option ProcId
  | .scanLocked _ p | .scanPush _ p | .scanUnlock _ p | .allocLocked p | .setup p
  | .forkLocked p | .forkPush p | .forkUnlock p | .waitLocked p => some p
  | _ => none

section Step

variable {Cpu Q : Type} [DecidableEq Cpu] (ops : QueueOps Q)

/-- Process `p` runs its own code on CPU `c`: no interrupt handler is on top
of it. -/
def onCpu (s : State Cpu Q) (c : Cpu) (p : ProcId) : Bool :=
  s.cpu c = .running p && s.task (.intr c) = .idle

/-- Thread `t` can execute on CPU `c`. -/
def executes (s : State Cpu Q) (c : Cpu) : Thread Cpu → Bool
  | .proc p => onCpu s c p && s.self p = .out
  | .intr c' => c' = c
  | .boot => true

/-- Interrupts are on: the CPU is at the top of the scheduler loop, or runs a
process that holds no lock. -/
def intrOn (s : State Cpu Q) (c : Cpu) : Bool :=
  match s.cpu c with
  | .idle => true
  | .running p => s.self p = .out && (s.task (.proc p)).holds = none
  | _ => false

/-- `scheduler_mlfq` on CPU `c`. -/
def schedStep (s : State Cpu Q) (c : Cpu) : Option (State Cpu Q) :=
  match s.cpu c with
  | .idle =>
    if s.mlfq = none then
      match s.mem.popFirst ops [0, 1, 2, 3] with
      | none => none
      | some (none, m) => some { s with mem := m }
      | some (some p, m) => some ({ s with mem := m }.setCpu c (.popped p))
    else none
  | .popped p =>
    if s.lock p = none then some ((s.setLock p (some (.sched c))).setCpu c (.locked p)) else none
  | .locked p =>
    if (s.mem.proc p).state = .RUNNABLE then
      some ((((s.setState p .RUNNING).setCpu c (.running p)).setLock p (some .self)).setSelf
        p .resume)
    else some ((s.setLock p none).setCpu c .idle)
  | .running _ => none
  | .back p => some ((s.setLock p none).setCpu c .idle)

/-- One step of the boost block of the `yield_mlfq` of process `p`, the tick
accounting included once the loop is over. -/
def boostBlockStep (s : State Cpu Q) (p : ProcId) : Option (State Cpu Q) :=
  match s.mlfq with
  | none => none
  | some (b, pc) =>
    if b = p then
      if pc = .loop 4 then
        some ({ s with mem := (s.mem.boostEnd p).account ops p, mlfq := none }.setSelf p .queued)
      else match s.mem.boostStep ops pc with
        | none => none
        | some (pc', m) => some { s with mem := m, mlfq := some (b, pc') }
    else none

/-- Process `p`, running on CPU `c`, inside one of its calls. -/
def selfStep (s : State Cpu Q) (c : Cpu) (p : ProcId) : Option (State Cpu Q) :=
  match s.self p with
  | .off => none
  | .resume => some ((s.setLock p none).setSelf p .out)
  | .out => none
  | .locked .yield =>
    if s.mlfq = none then
      if s.mem.boostDue then some ({ s with mlfq := some (p, .loop 0) }.setSelf p .boosting)
      else some ({ s with mem := s.mem.account ops p }.setSelf p .queued)
    else none
  | .locked .sleep =>
    if (s.mem.proc p).chan = 0 then some ((s.setLock p none).setSelf p .out)
    else some ((s.setState p .SLEEPING).setSelf p (.ready .sleep))
  | .locked .exit => some ((s.setState p .ZOMBIE).setSelf p (.ready .exit))
  | .boosting => boostBlockStep ops s p
  | .queued => some ((s.setState p .RUNNABLE).setSelf p (.ready .yield))
  | .ready _ => some (((s.setCpu c (.back p)).setLock p (some (.sched c))).setSelf p .off)

/-- `freeproc(p)`. -/
def freeproc (s : State Cpu Q) (p : ProcId) : State Cpu Q :=
  s.setProc p fun x => { x with pid := 0, chan := 0, killed := false, state := .UNUSED }

/-- What the scan looks for. -/
def Goal.hits : Goal → Proc → Bool
  | .wakeup chan, x => x.chan = chan
  | .kkill pid, x => x.pid = pid

/-- What the scan writes before it looks at `p->state`. -/
def Goal.mark : Goal → Proc → Proc
  | .wakeup _, x => { x with chan := 0 }
  | .kkill _, x => { x with killed := true }

/-- After a hit `wakeup` goes on with the next entry, `kkill` returns. -/
def Goal.next : Goal → ProcId → Task
  | .wakeup chan, p => .scan (.wakeup chan) (p + 1)
  | .kkill _, _ => .idle

/-- Thread `t` goes on with the call it is in. -/
def taskStep (s : State Cpu Q) (t : Thread Cpu) (ok : Bool) : Option (State Cpu Q) :=
  match s.task t with
  | .idle => none
  | .scan g i =>
    if h : i < NPROC then
      if s.lock ⟨i, h⟩ = none then
        some ((s.setLock ⟨i, h⟩ (some (.thread t))).setTask t (.scanLocked g ⟨i, h⟩))
      else none
    else some (s.setTask t .idle)
  | .scanLocked g p =>
    if g.hits (s.mem.proc p) then
      if (s.mem.proc p).state = .SLEEPING then
        some (((s.setProc p g.mark).setState p .RUNNABLE).setTask t (.scanPush g p))
      else some (((s.setProc p g.mark).setLock p none).setTask t (g.next p))
    else some ((s.setLock p none).setTask t (.scan g (p + 1)))
  | .scanPush g p =>
    if s.mlfq = none then
      some ({ s with mem := s.mem.push ops p (s.mem.proc p).queue true }.setTask
        t (.scanUnlock g p))
    else none
  | .scanUnlock g p => some ((s.setLock p none).setTask t (g.next p))
  | .alloc i =>
    if h : i < NPROC then
      if s.lock ⟨i, h⟩ = none then
        some ((s.setLock ⟨i, h⟩ (some (.thread t))).setTask t (.allocLocked ⟨i, h⟩))
      else none
    else some (s.setTask t .idle)
  | .allocLocked p =>
    if (s.mem.proc p).state = .UNUSED then
      some (({ s with nextpid := s.nextpid + 1 }.setProc p fun x =>
        { x with pid := s.nextpid, state := .USED, queue := 0, tick := 0, inq := false }).setTask
          t (.setup p))
    else some ((s.setLock p none).setTask t (.alloc (p + 1)))
  | .setup p =>
    if ok then
      match t with
      | .boot => some ({ s with initproc := some p }.setTask t (.forkLocked p))
      | _ => some ((s.setLock p none).setTask t (.fork p))
    else some (((freeproc s p).setLock p none).setTask t .idle)
  | .fork p =>
    match t with
    | .proc q =>
      if s.lock p = none then
        some (((s.setProc p fun x => { x with parent := some q }).setLock
          p (some (.thread t))).setTask t (.forkLocked p))
      else none
    | _ => none
  | .forkLocked p => some ((s.setState p .RUNNABLE).setTask t (.forkPush p))
  | .forkPush p =>
    if s.mlfq = none then
      some ({ s with mem := s.mem.push ops p 0 true }.setTask t (.forkUnlock p))
    else none
  | .forkUnlock p => some ((s.setLock p none).setTask t .idle)
  | .wait i =>
    match t with
    | .proc q =>
      if h : i < NPROC then
        if (s.mem.proc ⟨i, h⟩).parent = some q then
          if s.lock ⟨i, h⟩ = none then
            some ((s.setLock ⟨i, h⟩ (some (.thread t))).setTask t (.waitLocked ⟨i, h⟩))
          else none
        else some (s.setTask t (.wait (i + 1)))
      else some (s.setTask t .idle)
    | _ => none
  | .waitLocked p =>
    if (s.mem.proc p).state = .ZOMBIE then
      if ok then
        some (((freeproc (s.setProc p fun x => { x with parent := none }) p).setLock
          p none).setTask t .idle)
      else some ((s.setLock p none).setTask t .idle)
    else some ((s.setLock p none).setTask t (.wait (p + 1)))

/-- Thread `t` makes call `op`.  An interrupt handler only wakes sleepers; the
boot thread only runs `userinit`, once. -/
def startStep (s : State Cpu Q) (c : Cpu) (t : Thread Cpu) (op : Op) : Option (State Cpu Q) :=
  if s.task t = .idle then
    match t, op with
    | .proc _, .wakeup chan => some (s.setTask t (.scan (.wakeup chan) 0))
    | .proc _, .kkill pid => some (s.setTask t (.scan (.kkill pid) 0))
    | .proc _, .fork => some (s.setTask t (.alloc 0))
    | .proc _, .wait => some (s.setTask t (.wait 0))
    | .intr _, .wakeup chan =>
      if intrOn s c then some (s.setTask t (.scan (.wakeup chan) 0)) else none
    | .boot, .fork => if s.initproc = none then some (s.setTask t (.alloc 0)) else none
    | _, _ => none
  else none

/-- Give the children of `p` to init. -/
def reparent (m : Mem Q) (p : ProcId) (init : Option ProcId) : Mem Q :=
  { m with proc := fun q =>
      if (m.proc q).parent = some p then { m.proc q with parent := init } else m.proc q }

/-- The step of the kernel. -/
def step (s : State Cpu Q) : Act Cpu → Option (State Cpu Q)
  | .sched c => if s.task (.intr c) = .idle then schedStep ops s c else none
  | .self c p => if onCpu s c p then selfStep ops s c p else none
  | .call c p w =>
    if onCpu s c p && s.self p = .out && s.lock p = none && (s.task (.proc p)).holds = none then
      if w = .yield || (s.task (.proc p) = .idle && (w = .sleep || s.initproc ≠ some p)) then
        some ((s.setLock p (some .self)).setSelf p (.locked w))
      else none
    else none
  | .sleepPrepare c p chan =>
    if onCpu s c p && s.self p = .out && s.lock p = none && chan ≠ 0 then
      some (s.setProc p fun x => { x with chan := chan })
    else none
  | .reparent c p =>
    if onCpu s c p && s.self p = .out then
      some { s with mem := reparent s.mem p s.initproc }
    else none
  | .start c t op => if executes s c t then startStep s c t op else none
  | .task c t ok => if executes s c t then taskStep ops s t ok else none
  | .tick => some { s with mem := { s.mem with ticks := s.mem.ticks + 1 } }

/-! ### What a step means for the tick accounting -/

/-- What happens to a process as far as its level is concerned: it is
allocated or reset by a boost, or it accounts for a tick in `yield_mlfq`. -/
inductive Event
  | restart (p : ProcId)
  | yield (p : ProcId)
  deriving DecidableEq, Repr

/-- The reset made by a call of the boost loop that leaves it at `pc`. -/
def Mem.BoostPc.resets : BoostPc → List Event
  | .loop _ => []
  | .popped _ pp => [.restart pp]

/-- The events of a step, the latest first. -/
def events (s : State Cpu Q) : Act Cpu → List Event
  | .self _ p =>
    match s.self p with
    | .locked .yield => if s.mem.boostDue then [] else [.yield p]
    | .boosting =>
      match s.mlfq with
      | none => []
      | some (_, pc) =>
        if pc = .loop 4 then [.yield p, .restart p]
        else match s.mem.boostStep ops pc with
          | none => []
          | some (pc', _) => pc'.resets
    | _ => []
  | .task _ t _ =>
    match s.task t with
    | .allocLocked p => if (s.mem.proc p).state = .UNUSED then [.restart p] else []
    | _ => []
  | _ => []

/-- Zero-initialised memory, every lock free, every CPU at the top of its
loop. -/
def boot : State Cpu Q where
  mem := { proc := fun _ => {}, queues := ops.empty, ticks := 0, boost := 0 }
  nextpid := 1
  initproc := none
  lock := fun _ => none
  mlfq := none
  cpu := fun _ => .idle
  self := fun _ => .off
  task := fun _ => .idle

variable (Cpu) in
/-- The kernel from boot. -/
def kernel : Sys (State Cpu Q) (Act Cpu) where
  init s := s = boot ops
  step := step ops

/-! ### The first steps: `userinit` -/

/-- The entry `allocproc` takes first. -/
def firstProc : ProcId := ⟨0, by decide⟩

/-- The entries it takes next. -/
def secondProc : ProcId := ⟨1, by decide⟩

@[inherit_doc secondProc]
def thirdProc : ProcId := ⟨2, by decide⟩

/-- `userinit`, run by the boot thread without interruption. -/
def userinitActs (c : Cpu) : List (Act Cpu) :=
  .start c .boot .fork :: List.replicate 6 (.task c .boot true)

/-- The state `userinit` leaves: one process, in queue 0. -/
def booted : State Cpu Q :=
  { boot ops with
    mem :=
      { proc := Function.update (fun _ => {}) firstProc
          { state := .RUNNABLE, pid := 1, inq := true }
        queues := ops.pushTail ops.empty 0 firstProc
        ticks := 0
        boost := 0 }
    nextpid := 2
    initproc := some firstProc }

theorem userinit_run (c : Cpu) :
    (kernel Cpu ops).runFrom (boot ops) (userinitActs c) = some (booted ops) := by
  have h₀ : (0 : ℕ) < NPROC := by decide
  simp [userinitActs, List.replicate, kernel, step, executes, startStep, taskStep, boot,
    State.setTask, State.setLock, State.setProc, State.setState, Mem.setProc, Mem.push, h₀,
    booted, firstProc]

theorem booted_reachable (c : Cpu) : (kernel Cpu ops).Reachable (booted ops) :=
  (kernel Cpu ops).reachable_runFrom (.init rfl) (userinit_run ops c)

end Step

/-! ### Pieces of runs -/

section Runs

variable {Cpu : Type} (c : Cpu) (p : ProcId)

/-- CPU `c` takes `p`, which comes first, and runs it. -/
def takeActs : List (Act Cpu) := [.sched c, .sched c, .sched c, .self c p]

/-- `p` goes through `yield_mlfq` without a boost. -/
def yieldActs : List (Act Cpu) :=
  [.call c p .yield, .self c p, .self c p, .self c p, .sched c]

/-- `p` sleeps on `chan`. -/
def blockActs (chan : ℕ) : List (Act Cpu) :=
  [.sleepPrepare c p chan, .call c p .sleep, .self c p, .self c p, .sched c]

/-- `p` forks, and the child gets entry `i`, the first free one. -/
def forkActs (i : ℕ) : List (Act Cpu) :=
  .start c (.proc p) .fork :: List.replicate (2 * i + 7) (.task c (.proc p) true)

/-- The first process, which runs on CPU `c`, forks twice; it uses up its tick, and
so does its first child, while the second one sleeps on channel 3.  Then the first
process runs again at level 1, where its child waits. -/
def familyActs : List (Act Cpu) :=
  forkActs c firstProc 1 ++ forkActs c firstProc 2 ++ yieldActs c firstProc ++
    takeActs c secondProc ++ yieldActs c secondProc ++ takeActs c thirdProc ++
    blockActs c thirdProc 3 ++ takeActs c firstProc

end Runs

end Mlfq
