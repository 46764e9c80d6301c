/-
The four queues of the MLFQ scheduler (`xv6/kernel/proc.c`, lines 19 to 126).

`push` and `pop` work on the process table (they read and write `p->inq`) and
on the four queues.  The queues are kept abstract in `QueueOps`, with two
instances:

* `ringOps` — the code: four rings `mlfqi[q][…]` in one block of memory, with
  the `int` indices `head`, `tail` and `len` moved by C's `%`, which truncates
  toward zero;
* `dequeOps` — what the rings are for: four lists, append, prepend and take
  the first.

The section of `yield_mlfq` under `mlfq_lock` is cut where it calls `push` and
`pop`: `boostStep` is one pass of its boost loop, `account` what follows.
-/
import Mathlib.Data.Fin.Basic
import Mathlib.Logic.Function.Basic
import Mathlib.Data.UInt

namespace Mlfq

/-- `NPROC` of `param.h`. -/
def NPROC : ℕ := 64

/-- A `struct proc *`, as the index of its entry in `proc[NPROC]`. -/
abbrev ProcId := Fin NPROC

/-- A queue level, 0 to 3. -/
abbrev Level := Fin 4

instance Level.neZero : NeZero 4 := ⟨by decide⟩

/-- `enum procstate`. -/
inductive ProcState
  | UNUSED | USED | SLEEPING | RUNNABLE | RUNNING | ZOMBIE
  deriving DecidableEq, Repr

/-- The fields of `struct proc` that scheduling reads or writes.  A null
`chan` is 0, a null `parent` is `none`. -/
structure Proc where
  state : ProcState := .UNUSED
  chan : ℕ := 0
  killed : Bool := false
  pid : ℕ := 0
  parent : Option ProcId := none
  queue : Level := 0
  tick : ℕ := 0
  inq : Bool := false
  deriving DecidableEq, Repr

/-- The slot writes and reads behind `push` and `pop`.  `popHead` answers
`none` when the slot read holds a null pointer, which `pop` then writes
through. -/
structure QueueOps (Q : Type) where
  empty : Q
  pushTail : Q → Level → ProcId → Q
  pushHead : Q → Level → ProcId → Q
  popHead : Q → Level → Option (Option ProcId × Q)

/-! ### The rings of the code -/

/-- `mlfqi`, `head`, `tail` and `len`.  `mlfqi[q][i]` is the cell `64 * q + i`
of one block, so that an index outside a row names a cell of another row. -/
structure Rings where
  mlfqi : ℤ → Option ProcId
  head : Level → ℤ
  tail : Level → ℤ
  len : Level → ℤ

namespace Rings

/-- The cell of `mlfqi[q][i]`. -/
def cell (q : Level) (i : ℤ) : ℤ := NPROC * (q : ℕ) + i

/-- Zero-initialised arrays. -/
def zero : Rings := ⟨fun _ => none, fun _ => 0, fun _ => 0, fun _ => 0⟩

/-- The index `push(p,q,0)` writes: `(head[q]-1)%NPROC`. -/
def headSlot (r : Rings) (q : Level) : ℤ := (r.head q - 1).tmod NPROC

/-- `push(p,q,1)` behind its `inq` test. -/
def pushTail (r : Rings) (q : Level) (p : ProcId) : Rings :=
  { r with
    mlfqi := Function.update r.mlfqi (cell q (r.tail q)) (some p)
    tail := Function.update r.tail q ((r.tail q + 1).tmod NPROC)
    len := Function.update r.len q (r.len q + 1) }

/-- `push(p,q,0)` behind its `inq` test. -/
def pushHead (r : Rings) (q : Level) (p : ProcId) : Rings :=
  { r with
    mlfqi := Function.update r.mlfqi (cell q (r.headSlot q)) (some p)
    head := Function.update r.head q (r.headSlot q)
    len := Function.update r.len q (r.len q + 1) }

/-- `pop(q)` up to its write of `p->inq`. -/
def popHead (r : Rings) (q : Level) : Option (Option ProcId × Rings) :=
  if r.len q = 0 then some (none, r)
  else match r.mlfqi (cell q (r.head q)) with
    | none => none
    | some p => some (some p,
        { r with
          head := Function.update r.head q ((r.head q + 1).tmod NPROC)
          len := Function.update r.len q (r.len q - 1) })

end Rings

/-- The queues as the code keeps them. -/
def ringOps : QueueOps Rings where
  empty := Rings.zero
  pushTail := Rings.pushTail
  pushHead := Rings.pushHead
  popHead := Rings.popHead

/-! ### The queues as deques -/

/-- Four lists, the head of the queue first. -/
abbrev Deques := Level → List ProcId

/-- `push` and `pop` read as append, prepend and take-first. -/
def dequeOps : QueueOps Deques where
  empty := fun _ => []
  pushTail d q p := Function.update d q (d q ++ [p])
  pushHead d q p := Function.update d q (p :: d q)
  popHead d q := match d q with
    | [] => some (none, d)
    | p :: ps => some (some p, Function.update d q ps)

/-! ### `push`, `pop` and the pieces of `yield_mlfq` -/

/-- The memory the scheduler works on: the process table, the queues and the
two counters. -/
structure Mem (Q : Type) where
  proc : ProcId → Proc
  queues : Q
  ticks : UInt32
  boost : UInt32

namespace Mem

variable {Q : Type} (ops : QueueOps Q)

/-- Rewrite one entry of the process table. -/
def setProc (m : Mem Q) (p : ProcId) (f : Proc → Proc) : Mem Q :=
  { m with proc := Function.update m.proc p (f (m.proc p)) }

/-- `push(p,q,t)`. -/
def push (m : Mem Q) (p : ProcId) (q : Level) (t : Bool) : Mem Q :=
  if (m.proc p).inq then m
  else
    { m with queues := if t then ops.pushTail m.queues q p else ops.pushHead m.queues q p }.setProc
      p fun x => { x with inq := true }

/-- `pop(q)`; `none` when it writes through a null pointer. -/
def pop (m : Mem Q) (q : Level) : Option (Option ProcId × Mem Q) :=
  match ops.popHead m.queues q with
  | none => none
  | some (none, d) => some (none, { m with queues := d })
  | some (some p, d) =>
    some (some p, { m with queues := d }.setProc p fun x => { x with inq := false })

/-- The loop of `scheduler_mlfq`: pop the levels in order until one of them
gives a process. -/
def popFirst (m : Mem Q) : List Level → Option (Option ProcId × Mem Q)
  | [] => some (none, m)
  | i :: is => match m.pop ops i with
    | none => none
    | some (some p, m') => some (some p, m')
    | some (none, m') => popFirst m' is

/-- `ticks-boost>=48` on `uint`. -/
def boostDue (m : Mem Q) : Bool := 48 ≤ m.ticks - m.boost

/-- The time slice of a level: the `qtick` of `yield_mlfq`. -/
def slice (q : Level) : ℕ :=
  if q = 0 then 1 else if q = 1 then 4 else if q = 2 then 8 else 16

/-- `if(p->queue<3) p->queue++`. -/
def demote (q : Level) : Level := if q < 3 then q + 1 else q

/-- `pp->queue=0; pp->tick=0`. -/
def resetLevel (m : Mem Q) (p : ProcId) : Mem Q :=
  m.setProc p fun x => { x with queue := 0, tick := 0 }

/-- Where the boost loop stands: about to pop level `i`, or holding the
process it has just popped from level `i`. -/
inductive BoostPc
  | loop (i : ℕ)
  | popped (i : ℕ) (pp : ProcId)
  deriving DecidableEq, Repr

/-- One call of the boost loop: a `pop` (with the two writes that follow it)
or the `push` back into queue 0.  `none` when the loop over the levels is over
or `pop` faults. -/
def boostStep (m : Mem Q) : BoostPc → Option (BoostPc × Mem Q)
  | .loop i =>
    if h : i < 4 then
      match m.pop ops ⟨i, h⟩ with
      | none => none
      | some (none, m') => some (.loop (i + 1), m')
      | some (some pp, m') => some (.popped i pp, m'.resetLevel pp)
    else none
  | .popped i pp => some (.loop i, m.push ops pp 0 true)

/-- What follows the boost loop inside the boost block. -/
def boostEnd (m : Mem Q) (p : ProcId) : Mem Q :=
  { m.resetLevel p with boost := m.ticks }

/-- `p->tick++` and the two pushes at the end of `yield_mlfq`. -/
def account (m : Mem Q) (p : ProcId) : Mem Q :=
  let m := m.setProc p fun x => { x with tick := x.tick + 1 }
  if slice (m.proc p).queue ≤ (m.proc p).tick then
    let m := m.setProc p fun x => { x with tick := 0, queue := demote x.queue }
    m.push ops p (m.proc p).queue true
  else m.push ops p (m.proc p).queue false

end Mem

end Mlfq
