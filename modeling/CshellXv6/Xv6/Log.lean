/-
The log of the file system (kernel/log.c).

`begin_op`, `log_write`, `end_op` and `sys_sync` are the programs of a monitor:
`log.lock`, with the one channel `&log`.  In between, an operation reads,
changes and releases buffers, and the last one to end writes the transaction to
the disk, block by block, without the lock.

A buffer is its contents (`cache`) and its reference count; one that nobody
holds or has pinned may be recycled at any time, and is then read from the disk
again.  A disk block is written at once or not at all.  The blocks of the log
are kept apart from the home blocks, and the log's own buffers are left out.

* `Log.monitor` — the processes around the log;
* `Log.inside_does` and `Log.outside_does` — everything a process can do;
* `Disk.recovered` — what `recover_from_log` makes of a disk.
-/
import CshellXv6.Lib.Monitor
import CshellXv6.Lib.RedoLog

namespace Xv6

/-- kernel/param.h:9-10 -/
def MAXOPBLOCKS : ℕ := 10
def LOGBLOCKS : ℕ := MAXOPBLOCKS * 3

/-- The disk: the header block of the log, the blocks behind it, and the rest. -/
structure Disk (α : Type) where
  head : List ℕ
  logged : ℕ → α
  home : ℕ → α

/-- `install_trans` over a header that lists `head`. -/
def Disk.recovered {α : Type} (d : Disk α) : ℕ → α :=
  RedoLog.replay d.logged d.head 0 d.home

/-- `struct log` without its lock, with the buffers and the disk; `lh` is
`lh.block[0..lh.n)`. -/
structure Log (α : Type) where
  outstanding : ℕ
  committing : Bool
  ncommit : Int32
  lh : List ℕ
  cache : ℕ → α
  refcnt : ℕ → ℕ
  disk : Disk α

namespace Log

/-- Where a process is.  In an operation, `mine` are the blocks it has logged,
`bufs` the buffers it holds and `dirty` those it has changed and not yet
logged.  `panicked` remembers the call. -/
inductive Loc where
  | idle
  | begin
  | op (mine bufs dirty : List ℕ)
  | logWrite (b : ℕ) (mine bufs dirty : List ℕ)
  | ending
  | ended
  | commit
  | writeLog (tail : ℕ)
  | writeHead
  | install (tail : ℕ)
  | clear
  | committed
  | sync
  | syncing (n : Int32)
  | synced
  | panicked (l : Loc)
  deriving DecidableEq

/-- What a process does next outside the lock: make a call, work on buffers,
recycle a buffer, or go on with its commit. -/
inductive Input (α : Type) where
  | beginOp
  | endOp
  | sysSync
  | bread (b : ℕ)
  | write (b : ℕ) (v : α)
  | logWrite (b : ℕ)
  | brelse (b : ℕ)
  | recycle (b : ℕ)
  | go

variable {α : Type}

/-- `bpin`, and the reference that `bread` takes. -/
def pin (d : Log α) (b : ℕ) : Log α :=
  { d with refcnt := Function.update d.refcnt b (d.refcnt b + 1) }

/-- `bunpin`, and the reference that `brelse` gives back. -/
def unpin (d : Log α) (b : ℕ) : Log α :=
  { d with refcnt := Function.update d.refcnt b (d.refcnt b - 1) }

/-- One round of the loop of `write_log` (log.c:192-199). -/
def writeLogRound (d : Log α) (tail : ℕ) : Log α × Loc :=
  match d.lh[tail]? with
  | some b =>
    ({ d with disk := { d.disk with logged := Function.update d.disk.logged tail (d.cache b) } },
      .writeLog (tail + 1))
  | none => (d, .writeHead)

/-- `write_head` (log.c:105-116). -/
def writeHead (d : Log α) : Log α := { d with disk := { d.disk with head := d.lh } }

/-- One round of the loop of `install_trans(0)` (log.c:72-84); behind it,
`log.lh.n = 0`. -/
def installRound (d : Log α) (tail : ℕ) : Log α × Loc :=
  match d.lh[tail]? with
  | some b =>
    (unpin
      { d with
        cache := Function.update d.cache b (d.disk.logged tail)
        disk := { d.disk with home := Function.update d.disk.home b (d.disk.logged tail) } } b,
      .install (tail + 1))
  | none => ({ d with lh := [] }, .clear)

/-- What a process does without the lock. -/
def outside (l : Loc) (d : Log α) : Input α → Option (Log α × Loc)
  | .beginOp =>
    match l with
    | .idle | .synced => some (d, .begin)
    | _ => none
  | .sysSync =>
    match l with
    | .idle | .synced => some (d, .sync)
    | _ => none
  | .bread b =>
    match l with
    | .op mine bufs dirty =>
      if bufs.contains b then none else some (d.pin b, .op mine (b :: bufs) dirty)
    | _ => none
  | .write b v =>
    match l with
    | .op mine bufs dirty =>
      if bufs.contains b then
        some ({ d with cache := Function.update d.cache b v }, .op mine bufs (b :: dirty))
      else none
    | _ => none
  | .logWrite b =>
    match l with
    | .op mine bufs dirty => if bufs.contains b then some (d, .logWrite b mine bufs dirty) else none
    | _ => none
  | .brelse b =>
    match l with
    | .op mine bufs dirty =>
      if bufs.contains b && !dirty.contains b then some (d.unpin b, .op mine (bufs.erase b) dirty)
      else none
    | _ => none
  | .endOp =>
    match l with
    | .op _ [] [] => some (d, .ending)
    | _ => none
  | .recycle b =>
    if d.refcnt b = 0 then
      some ({ d with cache := Function.update d.cache b (d.disk.home b) }, l)
    else none
  | .go =>
    match l with
    | .commit => some (d, if d.lh.length > 0 then .writeLog 0 else .committed)
    | .writeLog tail => some (d.writeLogRound tail)
    | .writeHead => some (d.writeHead, .install 0)
    | .install tail => some (d.installRound tail)
    | .clear => some (d.writeHead, .committed)
    | _ => none

open Monitor (Out St)

/-- The loop of `begin_op` (log.c:132-149). -/
def beginOp (d : Log α) : Out (Log α) Loc Unit :=
  if d.committing then .wait () d .begin
  else if d.lh.length + (d.outstanding + 1) * MAXOPBLOCKS > LOGBLOCKS then .wait () d .begin
  else .leave { d with outstanding := d.outstanding + 1 } (.op [] [] [])

/-- `log_write` (log.c:224-244). -/
def logWrite (d : Log α) (b : ℕ) (mine bufs dirty : List ℕ) : Out (Log α) Loc Unit :=
  if d.lh.length ≥ LOGBLOCKS then .work d (.panicked (.logWrite b mine bufs dirty))
  else if d.outstanding < 1 then .work d (.panicked (.logWrite b mine bufs dirty))
  else
    .leave (if d.lh.contains b then d else { d.pin b with lh := d.lh ++ [b] })
      (.op (if mine.contains b then mine else b :: mine) bufs (dirty.filter (· != b)))

/-- `end_op`, up to the first release of the lock (log.c:159-172). -/
def endOp (d : Log α) : Out (Log α) Loc Unit :=
  if d.committing then .work { d with outstanding := d.outstanding - 1 } (.panicked .ending)
  else if d.outstanding - 1 = 0 then
    .leave { d with outstanding := d.outstanding - 1, committing := true } .commit
  else .wake () { d with outstanding := d.outstanding - 1 } .ended

/-- What the holder of `log.lock` does. -/
def inside (l : Loc) (d : Log α) : Option (Out (Log α) Loc Unit) :=
  match l with
  | .begin => some d.beginOp
  | .logWrite b mine bufs dirty => some (d.logWrite b mine bufs dirty)
  | .ending => some d.endOp
  | .ended => some (.leave d .idle)
  | .committed => some (.wake () { d with committing := false, ncommit := d.ncommit + 1 } .ended)
  | .sync =>
    if d.committing ∨ d.outstanding > 0 then some (.work d (.syncing (d.ncommit + 1)))
    else some (.leave d .synced)
  | .syncing n => if d.ncommit < n then some (.wait () d (.syncing n)) else some (.leave d .synced)
  | _ => none

/-- The local states in which `acquire(&log.lock)` comes next. -/
def wants : Loc → Bool
  | .begin | .logWrite _ _ _ _ | .ending | .committed | .sync | .syncing _ => true
  | _ => false

/-- The state that `initlog` leaves: the log on the disk is empty. -/
def fresh (disk : Disk α) : Log α where
  outstanding := 0
  committing := false
  ncommit := 0
  lh := []
  cache := disk.home
  refcnt _ := 0
  disk := disk

/-- The processes of the table `procs` around the log. -/
def monitor {T : Type} (procs : List T) : Monitor T Loc (Log α) Unit (Input α) where
  threads := procs
  init d f := d.disk.head = [] ∧ d = fresh d.disk ∧ ∀ t, f t = .idle
  wants := wants
  outside _ := outside
  inside _ l d _ := inside l d

/-- The log of an empty disk, with nobody around. -/
def start : St Bool Loc (Log ℕ) Unit :=
  .start (fun _ => .idle) (fresh { head := [], logged := fun _ => 0, home := fun _ => 0 })

theorem start_init : (monitor [false, true]).sys.init start :=
  Monitor.init_start ⟨rfl, rfl, fun _ => rfl⟩

/-- An operation writes block 3, ends, and is about to commit. -/
def oneOp : List (Monitor.Act Bool (Input ℕ)) :=
  [.outside true .beginOp, .acquire true, .inside true .go, .outside true (.bread 3),
    .outside true (.write 3 7), .outside true (.logWrite 3), .acquire true, .inside true .go,
    .outside true (.brelse 3), .outside true .endOp, .acquire true, .inside true .go]

/-! ### Everything a process can do -/

/-- What the holder of the lock does, by where it is. -/
inductive Does (d : Log α) : Loc → Out (Log α) Loc Unit → Prop
  | beginWait : d.committing = true ∨ LOGBLOCKS < d.lh.length + (d.outstanding + 1) * MAXOPBLOCKS →
      Does d .begin (.wait () d .begin)
  | began : d.committing = false → d.lh.length + (d.outstanding + 1) * MAXOPBLOCKS ≤ LOGBLOCKS →
      Does d .begin (.leave { d with outstanding := d.outstanding + 1 } (.op [] [] []))
  | panic {b mine bufs dirty} : LOGBLOCKS ≤ d.lh.length ∨ d.outstanding = 0 →
      Does d (.logWrite b mine bufs dirty) (.work d (.panicked (.logWrite b mine bufs dirty)))
  | absorbed {b mine bufs dirty} : 0 < d.outstanding → b ∈ d.lh →
      Does d (.logWrite b mine bufs dirty)
        (.leave d (.op (if mine.contains b then mine else b :: mine) bufs (dirty.filter (· != b))))
  | logged {b mine bufs dirty} : d.lh.length < LOGBLOCKS → 0 < d.outstanding → b ∉ d.lh →
      Does d (.logWrite b mine bufs dirty) (.leave { d.pin b with lh := d.lh ++ [b] }
        (.op (if mine.contains b then mine else b :: mine) bufs (dirty.filter (· != b))))
  | endPanic : d.committing = true → Does d .ending
      (.work { d with outstanding := d.outstanding - 1 } (.panicked .ending))
  | endLast : d.committing = false → d.outstanding - 1 = 0 → Does d .ending
      (.leave { d with outstanding := d.outstanding - 1, committing := true } .commit)
  | endMore : d.committing = false → d.outstanding - 1 ≠ 0 → Does d .ending
      (.wake () { d with outstanding := d.outstanding - 1 } .ended)
  | ended : Does d .ended (.leave d .idle)
  | committed : Does d .committed
      (.wake () { d with committing := false, ncommit := d.ncommit + 1 } .ended)
  | syncBusy : d.committing = true ∨ 0 < d.outstanding →
      Does d .sync (.work d (.syncing (d.ncommit + 1)))
  | syncIdle : d.committing = false → d.outstanding = 0 → Does d .sync (.leave d .synced)
  | syncWait {n} : d.ncommit < n → Does d (.syncing n) (.wait () d (.syncing n))
  | syncDone {n} : n ≤ d.ncommit → Does d (.syncing n) (.leave d .synced)

variable {d : Log α} {l : Loc}

theorem beginOp_does : Does d .begin d.beginOp := by
  unfold beginOp
  split
  · rename_i hc
    exact .beginWait (.inl hc)
  · rename_i hc
    split
    · rename_i hroom
      exact .beginWait (.inr hroom)
    · rename_i hroom
      exact .began (by simpa using hc) (by omega)

theorem logWrite_does {b : ℕ} {mine bufs dirty : List ℕ} :
    Does d (.logWrite b mine bufs dirty) (d.logWrite b mine bufs dirty) := by
  unfold logWrite
  split
  · rename_i hlen
    exact .panic (.inl hlen)
  · rename_i hlen
    split
    · rename_i hout
      exact .panic (.inr (by omega))
    · rename_i hout
      by_cases hb : b ∈ d.lh
      · rw [if_pos (by simpa using hb)]
        exact .absorbed (by omega) hb
      · rw [if_neg (by simpa using hb)]
        exact .logged (by omega) (by omega) hb

theorem endOp_does : Does d .ending d.endOp := by
  unfold endOp
  split
  · rename_i hc
    exact .endPanic hc
  · rename_i hc
    split
    · rename_i hout
      exact .endLast (by simpa using hc) hout
    · rename_i hout
      exact .endMore (by simpa using hc) hout

theorem inside_does {o : Out (Log α) Loc Unit} (h : inside l d = some o) : Does d l o := by
  cases l with
  | begin =>
    cases h
    exact beginOp_does
  | logWrite b mine bufs dirty =>
    cases h
    exact logWrite_does
  | ending =>
    cases h
    exact endOp_does
  | ended =>
    cases h
    exact .ended
  | committed =>
    cases h
    exact .committed
  | sync =>
    rw [inside] at h
    split at h
    · rename_i hbusy
      cases h
      exact .syncBusy hbusy
    · rename_i hidle
      cases h
      exact .syncIdle (by simpa using fun hc => hidle (.inl hc)) (by omega)
  | syncing n =>
    rw [inside] at h
    split at h
    · rename_i hlt
      cases h
      exact .syncWait hlt
    · rename_i hlt
      cases h
      exact .syncDone (Int32.not_lt.mp hlt)
  | _ => cases h

/-- What a process does without the lock, by where it is. -/
inductive Goes (d : Log α) : Loc → Input α → Log α → Loc → Prop
  | beginOp {l : Loc} : l = .idle ∨ l = .synced → Goes d l .beginOp d .begin
  | sysSync {l : Loc} : l = .idle ∨ l = .synced → Goes d l .sysSync d .sync
  | bread {b mine bufs dirty} : b ∉ bufs →
      Goes d (.op mine bufs dirty) (.bread b) (d.pin b) (.op mine (b :: bufs) dirty)
  | write {b v mine bufs dirty} : b ∈ bufs → Goes d (.op mine bufs dirty) (.write b v)
      { d with cache := Function.update d.cache b v } (.op mine bufs (b :: dirty))
  | logWrite {b mine bufs dirty} : b ∈ bufs →
      Goes d (.op mine bufs dirty) (.logWrite b) d (.logWrite b mine bufs dirty)
  | brelse {b mine bufs dirty} : b ∈ bufs → b ∉ dirty →
      Goes d (.op mine bufs dirty) (.brelse b) (d.unpin b) (.op mine (bufs.erase b) dirty)
  | endOp {mine} : Goes d (.op mine [] []) .endOp d .ending
  | recycle {l : Loc} {b} : d.refcnt b = 0 →
      Goes d l (.recycle b) { d with cache := Function.update d.cache b (d.disk.home b) } l
  | commit : d.lh ≠ [] → Goes d .commit .go d (.writeLog 0)
  | nothing : d.lh = [] → Goes d .commit .go d .committed
  | writeLog {tail b} : d.lh[tail]? = some b → Goes d (.writeLog tail) .go
      { d with disk := { d.disk with
          logged := Function.update d.disk.logged tail (d.cache b) } } (.writeLog (tail + 1))
  | wroteLog {tail} : d.lh.length ≤ tail → Goes d (.writeLog tail) .go d .writeHead
  | writeHead : Goes d .writeHead .go d.writeHead (.install 0)
  | install {tail b} : d.lh[tail]? = some b → Goes d (.install tail) .go
      (unpin { d with
        cache := Function.update d.cache b (d.disk.logged tail)
        disk := { d.disk with home := Function.update d.disk.home b (d.disk.logged tail) } } b)
      (.install (tail + 1))
  | installed {tail} : d.lh.length ≤ tail →
      Goes d (.install tail) .go { d with lh := [] } .clear
  | clear : Goes d .clear .go d.writeHead .committed

theorem writeLogRound_goes {tail : ℕ} {d' : Log α} {l' : Loc}
    (h : d.writeLogRound tail = (d', l')) : Goes d (.writeLog tail) .go d' l' := by
  unfold writeLogRound at h
  split at h
  · rename_i hb
    cases h
    exact .writeLog hb
  · rename_i hb
    cases h
    exact .wroteLog (by simpa using hb)

theorem installRound_goes {tail : ℕ} {d' : Log α} {l' : Loc}
    (h : d.installRound tail = (d', l')) : Goes d (.install tail) .go d' l' := by
  unfold installRound at h
  split at h
  · rename_i hb
    cases h
    exact .install hb
  · rename_i hb
    cases h
    exact .installed (by simpa using hb)

/-- The steps of `commit`. -/
theorem go_goes {d' : Log α} {l' : Loc} (h : outside l d .go = some (d', l')) :
    Goes d l .go d' l' := by
  cases l with
  | commit =>
    cases h
    split
    · rename_i hlen
      exact .commit (List.ne_nil_of_length_pos hlen)
    · rename_i hlen
      exact .nothing (by simpa using hlen)
  | writeLog tail => exact writeLogRound_goes (Option.some_inj.mp h)
  | writeHead =>
    cases h
    exact .writeHead
  | install tail => exact installRound_goes (Option.some_inj.mp h)
  | clear =>
    cases h
    exact .clear
  | _ => cases h

/-- The steps of an operation on its buffers. -/
theorem op_goes {i : Input α} {mine bufs dirty : List ℕ} {d' : Log α} {l' : Loc}
    (h : outside (.op mine bufs dirty) d i = some (d', l')) : Goes d (.op mine bufs dirty) i d' l' := by
  cases i with
  | bread b =>
    simp only [outside] at h
    split at h
    · cases h
    · rename_i hb
      cases h
      exact .bread (by simpa using hb)
  | write b v =>
    simp only [outside] at h
    split at h
    · rename_i hb
      cases h
      exact .write (by simpa using hb)
    · cases h
  | logWrite b =>
    simp only [outside] at h
    split at h
    · rename_i hb
      cases h
      exact .logWrite (by simpa using hb)
    · cases h
  | brelse b =>
    simp only [outside] at h
    split at h
    · rename_i hb
      cases h
      rw [Bool.and_eq_true] at hb
      exact .brelse (by simpa using hb.1) (by simpa using hb.2)
    · cases h
  | endOp =>
    simp only [outside] at h
    split at h
    · rename_i hl
      cases hl
      cases h
      exact .endOp
    · cases h
  | recycle b =>
    simp only [outside] at h
    split at h
    · rename_i hb
      cases h
      exact .recycle hb
    · cases h
  | beginOp => cases h
  | sysSync => cases h
  | go => cases h

theorem outside_goes {i : Input α} {d' : Log α} {l' : Loc} (h : outside l d i = some (d', l')) :
    Goes d l i d' l' := by
  cases i with
  | beginOp =>
    cases l <;> simp only [outside, Option.some_inj, Prod.mk.injEq, reduceCtorEq] at h
    all_goals
      obtain ⟨rfl, rfl⟩ := h
      exact .beginOp (by simp)
  | sysSync =>
    cases l <;> simp only [outside, Option.some_inj, Prod.mk.injEq, reduceCtorEq] at h
    all_goals
      obtain ⟨rfl, rfl⟩ := h
      exact .sysSync (by simp)
  | recycle b =>
    simp only [outside] at h
    split at h
    · rename_i hb
      cases h
      exact .recycle hb
    · cases h
  | go => exact go_goes h
  | _ =>
    cases l with
    | op mine bufs dirty => exact op_goes h
    | _ => cases h

end Log

end Xv6
