/-
Pipes (kernel/pipe.c).

`pipewrite`, `piperead` and `pipeclose` are the programs of a monitor: the
pipe's lock, with the channels `&pi->nread`, where readers wait for bytes, and
`&pi->nwrite`, where writers wait for room.  The two counters are 32 bits wide
and wrap around.

* `Pipe.monitor` — the processes around one pipe;
* `Pipe.Stores` — the ring of 512 bytes as a queue, wherever the counters are;
* `Pipe.inside_does` — everything the holder of the lock can do.
-/
import CshellXv6.Lib.CounterRing
import CshellXv6.Lib.Monitor

namespace Xv6

/-- kernel/pipe.c:11 -/
def PIPESIZE : UInt32 := 512

/-- `struct pipe`, without its lock. -/
structure Pipe where
  data : ℕ → UInt8
  nread : UInt32
  nwrite : UInt32
  readopen : Bool
  writeopen : Bool

namespace Pipe

/-- The addresses pipe.c sleeps on. -/
inductive Chan where
  | nread
  | nwrite
  deriving DecidableEq

/-- The calls into pipe.c.  `src i` is what `copyin` finds at `addr + i`,
`dst i` whether `copyout` can write there. -/
inductive Call where
  | pipewrite (src : ℕ → Option UInt8) (n : ℤ)
  | piperead (dst : ℕ → Bool) (n : ℤ)
  | pipeclose (writable : Bool)

/-- Where a process is in pipe.c.  The loop of `pipewrite` has two heads:
`write` when the lock has just been taken, `writing` behind a byte. -/
inductive Loc where
  | idle
  | write (src : ℕ → Option UInt8) (n : ℤ) (i : ℕ)
  | writing (src : ℕ → Option UInt8) (n : ℤ) (i : ℕ)
  | full (src : ℕ → Option UInt8) (n : ℤ) (i : ℕ)
  | wrote (r : ℤ)
  | read (dst : ℕ → Bool) (n : ℤ)
  | reading (dst : ℕ → Bool) (n : ℤ) (i : ℕ)
  | didRead (r : ℤ)
  | close (writable : Bool)
  | leaving (r : ℤ)
  | closing
  | ret (r : ℤ)
  | closed (free : Bool)

/-- A call begins. -/
def Call.start : Call → Loc
  | pipewrite src n => .write src n 0
  | piperead dst n => .read dst n
  | pipeclose w => .close w

/-- What a step is told from outside the pipe: the call a process makes, or
the answer of `killed(pr)`. -/
inductive Input where
  | call (c : Call)
  | killed (b : Bool)

/-- `pi->data[pi->nwrite++ % PIPESIZE] = ch` -/
def put (p : Pipe) (ch : UInt8) : Pipe :=
  { p with
    data := Function.update p.data (p.nwrite % PIPESIZE).toNat ch
    nwrite := p.nwrite + 1 }

/-- `pi->data[pi->nread % PIPESIZE]` -/
def next (p : Pipe) : UInt8 := p.data (p.nread % PIPESIZE).toNat

open Monitor (Out)

/-- One round of the loop of `pipewrite` (pipe.c:83-104). -/
def pipewriteRound (p : Pipe) (src : ℕ → Option UInt8) (n : ℤ) (i : ℕ) (killed : Bool) :
    Out Pipe Loc Chan :=
  if i < n then
    if !p.readopen || killed then .leave p (.ret (-1))
    else if p.nwrite = p.nread + PIPESIZE then .wake .nread p (.full src n i)
    else
      match src i with
      | none => .work p (.wrote (if i = 0 then -1 else i))
      | some ch => .work (p.put ch) (.writing src n (i + 1))
  else .work p (.wrote i)

/-- The `while` of `piperead` (pipe.c:119-128). -/
def pipereadWait (p : Pipe) (dst : ℕ → Bool) (n : ℤ) (killed : Bool) : Out Pipe Loc Chan :=
  if p.nread = p.nwrite ∧ p.writeopen then
    if killed then .leave p (.ret (-1)) else .wait .nread p (.read dst n)
  else .work p (.reading dst n 0)

/-- One round of the `for` of `piperead` (pipe.c:129-139). -/
def pipereadRound (p : Pipe) (dst : ℕ → Bool) (n : ℤ) (i : ℕ) : Out Pipe Loc Chan :=
  if i < n then
    if p.nread = p.nwrite then .work p (.didRead i)
    else if dst i then .work { p with nread := p.nread + 1 } (.reading dst n (i + 1))
    else .work p (.didRead (if i = 0 then -1 else i))
  else .work p (.didRead i)

/-- What the holder of `pi->lock` does. -/
def inside (l : Loc) (p : Pipe) : Input → Option (Out Pipe Loc Chan)
  | .call _ => none
  | .killed k =>
    match l with
    | .write src n i | .writing src n i => some (pipewriteRound p src n i k)
    | .full src n i => some (.wait .nwrite p (.write src n i))
    | .wrote r => some (.wake .nread p (.leaving r))
    | .read dst n => some (pipereadWait p dst n k)
    | .reading dst n i => some (pipereadRound p dst n i)
    | .didRead r => some (.wake .nwrite p (.leaving r))
    | .leaving r => some (.leave p (.ret r))
    | .close true => some (.wake .nread { p with writeopen := false } .closing)
    | .close false => some (.wake .nwrite { p with readopen := false } .closing)
    | .closing => some (.leave p (.closed (!p.readopen && !p.writeopen)))
    | .idle | .ret _ | .closed _ => none

/-- Outside, a process that is in no call makes one. -/
def outside (l : Loc) (p : Pipe) : Input → Option (Pipe × Loc)
  | .call c =>
    match l with
    | .idle | .ret _ | .closed _ => some (p, c.start)
    | _ => none
  | .killed _ => none

/-- The local states in which `acquire(&pi->lock)` comes next. -/
def wants : Loc → Bool
  | .write _ _ _ | .read _ _ | .close _ => true
  | _ => false

/-- `pipealloc`: both ends open, nothing read, nothing written. -/
def Fresh (p : Pipe) : Prop :=
  p.nread = 0 ∧ p.nwrite = 0 ∧ p.readopen = true ∧ p.writeopen = true

/-- The processes of the table `procs` around one pipe. -/
def monitor {T : Type} (procs : List T) : Monitor T Loc Pipe Chan Input where
  threads := procs
  init p f := Fresh p ∧ ∀ t, f t = .idle
  wants := wants
  outside _ := outside
  inside _ := inside

/-- A fresh pipe, with nobody around. -/
def start : Monitor.St Bool Loc Pipe Chan :=
  .start (fun _ => .idle)
    { data := fun _ => 0, nread := 0, nwrite := 0, readopen := true, writeopen := true }

theorem start_init : (monitor [false, true]).sys.init start :=
  Monitor.init_start ⟨⟨rfl, rfl, rfl, rfl⟩, fun _ => rfl⟩

/-! ### The buffer as a queue -/

/-- The buffer holds `xs`, from `nread` up to `nwrite`. -/
def Stores (p : Pipe) (xs : List UInt8) : Prop :=
  CounterRing.Stores PIPESIZE p.data p.nread p.nwrite xs

variable {p : Pipe} {xs : List UInt8}

theorem Stores.nil (hr : p.nread = 0) (hw : p.nwrite = 0) : Stores p [] := by
  rw [Stores, hr, hw]
  exact .nil

theorem Stores.put (h : Stores p xs) (hfull : p.nwrite ≠ p.nread + PIPESIZE) (ch : UInt8) :
    Stores (p.put ch) (xs ++ [ch]) := by
  have hlt : xs.length < PIPESIZE.toNat := by
    refine lt_of_le_of_ne h.room fun he => hfull ?_
    rw [h.count, he]
    rfl
  exact CounterRing.Stores.put (by decide) h hlt ch

theorem Stores.got (h : Stores p xs) (hne : p.nread ≠ p.nwrite) :
    ∃ ys, xs = p.next :: ys ∧ Stores { p with nread := p.nread + 1 } ys := by
  cases xs with
  | nil => exact absurd (h.eq_nil_iff.mpr rfl) hne
  | cons x ys =>
    obtain ⟨hx, hys⟩ := CounterRing.Stores.got (by decide) h
    exact ⟨ys, by rw [← hx]; rfl, hys⟩

/-! ### What the holder does to the buffer -/

/-- The three things the holder of the lock can do to the buffer. -/
inductive Effect (p : Pipe) : Pipe → Prop
  | same {p' : Pipe} : p'.data = p.data → p'.nread = p.nread → p'.nwrite = p.nwrite → Effect p p'
  | put (ch : UInt8) : p.nwrite ≠ p.nread + PIPESIZE → Effect p (p.put ch)
  | got : p.nread ≠ p.nwrite → Effect p { p with nread := p.nread + 1 }

theorem Effect.refl : Effect p p := .same rfl rfl rfl

/-- The two heads of the loop of `pipewrite`. -/
def Loc.Head (l : Loc) (src : ℕ → Option UInt8) (n : ℤ) (i : ℕ) : Prop :=
  l = .write src n i ∨ l = .writing src n i

/-- Everything the holder of the lock does, by where it is; `k` is what
`killed(pr)` says. -/
inductive Does (p : Pipe) (k : Bool) : Loc → Out Pipe Loc Chan → Prop
  | refuse {l src} {n : ℤ} {i : ℕ} : Loc.Head l src n i → i < n → p.readopen = false ∨ k = true →
      Does p k l (.leave p (.ret (-1)))
  | full {l src} {n : ℤ} {i : ℕ} : Loc.Head l src n i → i < n → p.readopen = true →
      p.nwrite = p.nread + PIPESIZE → Does p k l (.wake .nread p (.full src n i))
  | fault {l src} {n : ℤ} {i : ℕ} : Loc.Head l src n i → i < n → src i = none →
      Does p k l (.work p (.wrote (if i = 0 then -1 else i)))
  | put {l src} {n : ℤ} {i : ℕ} {ch} : Loc.Head l src n i → i < n → p.nwrite ≠ p.nread + PIPESIZE →
      src i = some ch → Does p k l (.work (p.put ch) (.writing src n (i + 1)))
  | done {l src} {n : ℤ} {i : ℕ} : Loc.Head l src n i → n ≤ i → Does p k l (.work p (.wrote i))
  | waitRoom {src n i} : Does p k (.full src n i) (.wait .nwrite p (.write src n i))
  | wrote {r} : Does p k (.wrote r) (.wake .nread p (.leaving r))
  | giveUp {dst n} : k = true → Does p k (.read dst n) (.leave p (.ret (-1)))
  | waitByte {dst n} : p.nread = p.nwrite → p.writeopen = true → k = false →
      Does p k (.read dst n) (.wait .nread p (.read dst n))
  | enter {dst n} : p.nread ≠ p.nwrite ∨ p.writeopen = false →
      Does p k (.read dst n) (.work p (.reading dst n 0))
  | empty {dst} {n : ℤ} {i : ℕ} : i < n → p.nread = p.nwrite →
      Does p k (.reading dst n i) (.work p (.didRead i))
  | got {dst} {n : ℤ} {i : ℕ} : i < n → p.nread ≠ p.nwrite → dst i = true →
      Does p k (.reading dst n i) (.work { p with nread := p.nread + 1 } (.reading dst n (i + 1)))
  | noRoom {dst} {n : ℤ} {i : ℕ} : i < n → dst i = false →
      Does p k (.reading dst n i) (.work p (.didRead (if i = 0 then -1 else i)))
  | filled {dst} {n : ℤ} {i : ℕ} : n ≤ i → Does p k (.reading dst n i) (.work p (.didRead i))
  | didRead {r} : Does p k (.didRead r) (.wake .nwrite p (.leaving r))
  | leaving {r} : Does p k (.leaving r) (.leave p (.ret r))
  | closeWrite : Does p k (.close true) (.wake .nread { p with writeopen := false } .closing)
  | closeRead : Does p k (.close false) (.wake .nwrite { p with readopen := false } .closing)
  | closing : Does p k .closing (.leave p (.closed (!p.readopen && !p.writeopen)))

theorem pipewriteRound_does {l : Loc} {src : ℕ → Option UInt8} {n : ℤ} {i : ℕ} {k : Bool}
    (hl : l.Head src n i) : Does p k l (pipewriteRound p src n i k) := by
  unfold pipewriteRound
  split
  · rename_i hi
    split
    · rename_i hk
      exact .refuse hl hi (by simpa using hk)
    · rename_i hk
      split
      · rename_i hfull
        exact .full hl hi (by simp_all) hfull
      · rename_i hfull
        split
        · rename_i hsrc
          exact .fault hl hi hsrc
        · rename_i ch hsrc
          exact .put hl hi hfull hsrc
  · rename_i hi
    exact .done hl (by omega)

theorem pipereadWait_does {dst : ℕ → Bool} {n : ℤ} {k : Bool} :
    Does p k (.read dst n) (pipereadWait p dst n k) := by
  unfold pipereadWait
  split
  · rename_i hempty
    split
    · rename_i hk
      exact .giveUp hk
    · rename_i hk
      exact .waitByte hempty.1 hempty.2 (by simpa using hk)
  · rename_i hempty
    refine .enter ?_
    by_cases he : p.nread = p.nwrite
    · exact .inr (by simpa [he] using hempty)
    · exact .inl he

theorem pipereadRound_does {dst : ℕ → Bool} {n : ℤ} {i : ℕ} {k : Bool} :
    Does p k (.reading dst n i) (pipereadRound p dst n i) := by
  unfold pipereadRound
  split
  · rename_i hi
    split
    · rename_i he
      exact .empty hi he
    · rename_i hne
      split
      · rename_i hd
        exact .got hi hne hd
      · rename_i hd
        exact .noRoom hi (by simpa using hd)
  · rename_i hi
    exact .filled (by omega)

theorem inside_does {l : Loc} {i : Input} {o : Out Pipe Loc Chan} (h : inside l p i = some o) :
    ∃ k, i = .killed k ∧ Does p k l o := by
  cases i with
  | call c => cases h
  | killed k =>
    refine ⟨k, rfl, ?_⟩
    cases l with
    | write src n i =>
      cases h
      exact pipewriteRound_does (.inl rfl)
    | writing src n i =>
      cases h
      exact pipewriteRound_does (.inr rfl)
    | full src n i =>
      cases h
      exact .waitRoom
    | wrote r =>
      cases h
      exact .wrote
    | read dst n =>
      cases h
      exact pipereadWait_does
    | reading dst n i =>
      cases h
      exact pipereadRound_does
    | didRead r =>
      cases h
      exact .didRead
    | leaving r =>
      cases h
      exact .leaving
    | close w =>
      cases w with
      | true =>
        cases h
        exact .closeWrite
      | false =>
        cases h
        exact .closeRead
    | closing =>
      cases h
      exact .closing
    | idle => cases h
    | ret r => cases h
    | closed b => cases h

theorem Does.effect {l : Loc} {k : Bool} {o : Out Pipe Loc Chan} (h : Does p k l o) :
    Effect p o.shared := by
  cases h with
  | put _ _ hfull _ => exact .put _ hfull
  | got _ hne _ => exact .got hne
  | closeWrite => exact .same rfl rfl rfl
  | closeRead => exact .same rfl rfl rfl
  | _ => exact .refl

theorem outside_shared {l l' : Loc} {p' : Pipe} {i : Input} (h : outside l p i = some (p', l')) :
    p' = p ∧ ∃ c, i = .call c ∧ l' = c.start := by
  cases i with
  | call c =>
    cases l <;> simp only [outside, Option.some_inj, Prod.mk.injEq, reduceCtorEq] at h
    all_goals exact ⟨h.1.symm, c, rfl, h.2.symm⟩
  | killed k => cases h

end Pipe

end Xv6
