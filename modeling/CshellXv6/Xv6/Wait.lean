/-
Parents and children (kernel/proc.c).

`kfork`, `kexit` and `kwait` are the programs of a monitor: `wait_lock`, with
one channel for each process, on which it waits for a child to exit.  The data
are the entries of the process table: their state, parent, pid and exit status.
RUNNABLE, RUNNING and SLEEPING are one state here, and memory, files and the
scheduler are left out; a process that is not running kernel code of this file
is at `run`.

* `Procs.monitor` — the processes of the table;
* `Procs.inside_does` and `Procs.outside_goes` — everything they can do.
-/
import CshellXv6.Lib.Monitor
import Mathlib.Data.Int.Notation

namespace Xv6

/-- `enum procstate`, with one state for the living. -/
inductive ProcState where
  | unused
  | used
  | live
  | zombie
  deriving DecidableEq

/-- The process table, and `nextpid`. -/
structure Procs (T : Type) where
  state : T → ProcState
  parent : T → Option T
  pid : T → Int32
  xstate : T → ℤ
  nextpid : Int32

namespace Procs

/-- Where the process of an entry is.  `none` before its first step and behind
`kexit`; `me` is its own entry, `np` the one it is filling, `rest` what is left
of the table in a loop. -/
inductive Loc (T : Type) where
  | none
  | run
  | forking (np : T)
  | forked (np : T)
  | exiting (status : ℤ)
  | reparenting (status : ℤ) (rest : List T)
  | dying (me : T) (status : ℤ)
  | waiting (me : T)
  | scanning (me : T) (havekids : Bool) (rest : List T)
  | panicked
  deriving DecidableEq

/-- The system call that a process makes, how `uvmcopy` fares, and for the
steps of `kwait` the answers of `killed(p)` and whether the status can be
copied out (or is not asked for). -/
inductive Input (T : Type) where
  | fork (np : T)
  | exit (status : ℤ)
  | wait
  | go
  | nomem
  | answer (killed copied : Bool)

variable {T : Type} [DecidableEq T]

/-- `allocproc` (proc.c:224-266) on an entry that is free. -/
def alloc (d : Procs T) (np : T) : Procs T :=
  { d with
    state := Function.update d.state np .used
    pid := Function.update d.pid np d.nextpid
    nextpid := d.nextpid + 1 }

/-- `freeproc` (proc.c:271-287). -/
def free (d : Procs T) (p : T) : Procs T :=
  { d with
    state := Function.update d.state p .unused
    pid := Function.update d.pid p 0
    xstate := Function.update d.xstate p 0 }

/-- `pp->parent = p` -/
def adopt (d : Procs T) (pp : T) (p : Option T) : Procs T :=
  { d with parent := Function.update d.parent pp p }

/-- `np->state = RUNNABLE` -/
def start (d : Procs T) (np : T) : Procs T :=
  { d with state := Function.update d.state np .live }

/-- `p->xstate = status; p->state = ZOMBIE` -/
def die (d : Procs T) (p : T) (status : ℤ) : Procs T :=
  { d with
    xstate := Function.update d.xstate p status
    state := Function.update d.state p .zombie }

/-- What a process does without `wait_lock`. -/
def outside (init t : T) (l : Loc T) (d : Procs T) : Input T → Option (Procs T × Loc T)
  | .fork np =>
    match l with
    | .run => if d.state np = .unused then some (d.alloc np, .forking np) else none
    | _ => none
  | .exit status =>
    match l with
    | .run => some (d, if t = init then .panicked else .exiting status)
    | _ => none
  | .wait =>
    match l with
    | .run => some (d, .waiting t)
    | _ => none
  | .nomem =>
    match l with
    | .forking np => some (d.free np, .run)
    | _ => none
  | .go =>
    match l with
    | .none => if d.state t = .live then some (d, .run) else none
    | .forked np => some (d.start np, .run)
    | _ => none
  | .answer _ _ => none

open Monitor (Out St)

/-- One round of the loop of `reparent` (proc.c:445-450); behind it, `kexit`
wakes the parent (proc.c:484). -/
def reparentRound (init t : T) (d : Procs T) (status : ℤ) : List T → Out (Procs T) (Loc T) T
  | pp :: rest =>
    if d.parent pp = some t then .wake init (d.adopt pp (some init)) (.reparenting status rest)
    else .work d (.reparenting status rest)
  | [] =>
    match d.parent t with
    | some p => .wake p d (.dying t status)
    | none => .work d (.dying t status)

/-- One round of the loop of `kwait` over the table (proc.c:512-535), and what
comes behind it (proc.c:539-546). -/
def kwaitRound (t : T) (d : Procs T) (havekids killed copied : Bool) :
    List T → Out (Procs T) (Loc T) T
  | pp :: rest =>
    if d.parent pp = some t then
      if d.state pp = .zombie then
        if copied then .leave ((d.adopt pp none).free pp) .run else .leave d .run
      else .work d (.scanning t true rest)
    else .work d (.scanning t havekids rest)
  | [] => if !havekids || killed then .leave d .run else .wait t d (.waiting t)

/-- What the holder of `wait_lock` does. -/
def inside (procs : List T) (init t : T) (l : Loc T) (d : Procs T) :
    Input T → Option (Out (Procs T) (Loc T) T)
  | .answer killed copied =>
    match l with
    | .forking np => some (.leave (d.adopt np (some t)) (.forked np))
    | .exiting status => some (.work d (.reparenting status procs))
    | .reparenting status rest => some (reparentRound init t d status rest)
    | .dying _ status => some (.leave (d.die t status) .none)
    | .waiting _ => some (.work d (.scanning t false procs))
    | .scanning _ havekids rest => some (kwaitRound t d havekids killed copied rest)
    | _ => none
  | _ => none

/-- The local states in which `acquire(&wait_lock)` comes next. -/
def wants : Loc T → Bool
  | .forking _ | .exiting _ | .waiting _ => true
  | _ => false

/-- The table with `initproc` alone, as `userinit` leaves it. -/
def Boot (init : T) (d : Procs T) : Prop :=
  (∀ t, d.state t = if t = init then .live else .unused) ∧ (∀ t, d.parent t = none) ∧
    (∀ t, d.pid t = if t = init then 1 else 0) ∧ d.nextpid = 2

/-- The processes of the table `procs`, with `initproc`. -/
def monitor (procs : List T) (init : T) : Monitor T (Loc T) (Procs T) T (Input T) where
  threads := procs
  init d f := Boot init d ∧ ∀ t, f t = .none
  wants := wants
  outside t := outside init t
  inside t := inside procs init t

/-- The table as it boots, with `true` for `initproc`. -/
def boot : St Bool (Loc Bool) (Procs Bool) Bool :=
  .start (fun _ => .none)
    { state := fun t => if t then .live else .unused
      parent := fun _ => none
      pid := fun t => if t then 1 else 0
      xstate := fun _ => 0
      nextpid := 2 }

theorem boot_init : (monitor [false, true] true).sys.init boot :=
  Monitor.init_start ⟨⟨by decide, by decide, by decide, rfl⟩, fun _ => rfl⟩

/-- `initproc` forks a child and falls asleep in `kwait`. -/
def forkAndWait : List (Monitor.Act Bool (Input Bool)) :=
  [.outside true .go, .outside true (.fork false), .acquire true, .inside true (.answer false true),
    .outside true .go, .outside true .wait, .acquire true] ++
    List.replicate 4 (.inside true (.answer false true)) ++ [.release true, .sleep true]

/-! ### Everything a process can do -/

/-- What the holder of the lock does, by where it is. -/
inductive Does (procs : List T) (init t : T) (d : Procs T) : Loc T → Out (Procs T) (Loc T) T → Prop
  | adopt {np} : Does procs init t d (.forking np) (.leave (d.adopt np (some t)) (.forked np))
  | exit {status} : Does procs init t d (.exiting status) (.work d (.reparenting status procs))
  | orphan {status pp rest} : d.parent pp = some t → Does procs init t d
      (.reparenting status (pp :: rest))
      (.wake init (d.adopt pp (some init)) (.reparenting status rest))
  | other {status pp rest} : d.parent pp ≠ some t → Does procs init t d
      (.reparenting status (pp :: rest)) (.work d (.reparenting status rest))
  | notify {status p} : d.parent t = some p →
      Does procs init t d (.reparenting status []) (.wake p d (.dying t status))
  | nobody {status} : d.parent t = none →
      Does procs init t d (.reparenting status []) (.work d (.dying t status))
  | die {me status} : Does procs init t d (.dying me status) (.leave (d.die t status) .none)
  | look {me} : Does procs init t d (.waiting me) (.work d (.scanning t false procs))
  | collect {me havekids pp rest} : d.parent pp = some t → d.state pp = .zombie →
      Does procs init t d (.scanning me havekids (pp :: rest))
        (.leave ((d.adopt pp none).free pp) .run)
  | fault {me havekids pp rest} : d.parent pp = some t → d.state pp = .zombie →
      Does procs init t d (.scanning me havekids (pp :: rest)) (.leave d .run)
  | child {me havekids pp rest} : d.parent pp = some t → d.state pp ≠ .zombie →
      Does procs init t d (.scanning me havekids (pp :: rest)) (.work d (.scanning t true rest))
  | pass {me havekids pp rest} : d.parent pp ≠ some t →
      Does procs init t d (.scanning me havekids (pp :: rest)) (.work d (.scanning t havekids rest))
  | giveUp {me havekids} : Does procs init t d (.scanning me havekids []) (.leave d .run)
  | sleep {me} : Does procs init t d (.scanning me true []) (.wait t d (.waiting t))

variable {procs : List T} {init t : T} {d d' : Procs T} {l l' : Loc T}

theorem reparentRound_does {status : ℤ} {rest : List T} :
    Does procs init t d (.reparenting status rest) (reparentRound init t d status rest) := by
  cases rest with
  | cons pp rest =>
    simp only [reparentRound]
    split
    · rename_i hp
      exact .orphan hp
    · rename_i hp
      exact .other hp
  | nil =>
    simp only [reparentRound]
    split
    · rename_i p hp
      exact .notify hp
    · rename_i hp
      exact .nobody hp

theorem kwaitRound_does {me : T} {havekids killed copied : Bool} {rest : List T} :
    Does procs init t d (.scanning me havekids rest) (kwaitRound t d havekids killed copied rest) := by
  cases rest with
  | cons pp rest =>
    simp only [kwaitRound]
    split
    · rename_i hp
      split
      · rename_i hz
        split
        · exact .collect hp hz
        · exact .fault hp hz
      · rename_i hz
        exact .child hp hz
    · rename_i hp
      exact .pass hp
  | nil =>
    simp only [kwaitRound]
    split
    · exact .giveUp
    · rename_i hk
      cases havekids with
      | true => exact .sleep
      | false => simp at hk

theorem inside_does {i : Input T} {o : Out (Procs T) (Loc T) T}
    (h : inside procs init t l d i = some o) : Does procs init t d l o := by
  cases i with
  | answer killed copied =>
    cases l with
    | forking np =>
      cases h
      exact .adopt
    | exiting status =>
      cases h
      exact .exit
    | reparenting status rest =>
      cases h
      exact reparentRound_does
    | dying me status =>
      cases h
      exact .die
    | waiting me =>
      cases h
      exact .look
    | scanning me havekids rest =>
      cases h
      exact kwaitRound_does
    | _ => cases h
  | _ => cases h

/-- What a process does without the lock, by where it is. -/
inductive Goes (init t : T) (d : Procs T) : Loc T → Input T → Procs T → Loc T → Prop
  | born : d.state t = .live → Goes init t d .none .go d .run
  | fork {np} : d.state np = .unused → Goes init t d .run (.fork np) (d.alloc np) (.forking np)
  | nomem {np} : Goes init t d (.forking np) .nomem (d.free np) .run
  | forked {np} : Goes init t d (.forked np) .go (d.start np) .run
  | exit {status} : t ≠ init → Goes init t d .run (.exit status) d (.exiting status)
  | panic {status} : t = init → Goes init t d .run (.exit status) d .panicked
  | wait : Goes init t d .run .wait d (.waiting t)

theorem outside_goes {i : Input T} (h : outside init t l d i = some (d', l')) :
    Goes init t d l i d' l' := by
  cases i with
  | fork np =>
    cases l with
    | run =>
      simp only [outside] at h
      split at h
      · rename_i hu
        cases h
        exact .fork hu
      · cases h
    | _ => cases h
  | exit status =>
    cases l with
    | run =>
      simp only [outside, Option.some_inj, Prod.mk.injEq] at h
      obtain ⟨rfl, rfl⟩ := h
      split
      · rename_i ht
        exact .panic ht
      · rename_i ht
        exact .exit ht
    | _ => cases h
  | wait =>
    cases l with
    | run =>
      cases h
      exact .wait
    | _ => cases h
  | nomem =>
    cases l with
    | forking np =>
      cases h
      exact .nomem
    | _ => cases h
  | go =>
    cases l with
    | none =>
      simp only [outside] at h
      split at h
      · rename_i hlive
        cases h
        exact .born hlive
      · cases h
    | forked np =>
      cases h
      exact .forked
    | _ => cases h
  | answer killed copied => cases h

end Procs

end Xv6
