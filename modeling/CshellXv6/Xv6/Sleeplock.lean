/-
Sleep locks (kernel/sleeplock.c).

A sleep lock is a monitor with one channel, the lock itself: `acquiresleep`
waits while `locked` is set, `releasesleep` clears it and wakes everybody.

* `Sleeplock.exclusion` — between `acquiresleep` and `releasesleep` a process
  is alone, `locked` and `pid` say who it is, and `holdingsleep` tells the
  truth;
* `Sleeplock.sleepers_wait_owner` — whenever the spin lock inside is free, a process
  that sleeps for the lock waits for a process that has it.
-/
import CshellXv6.Lib.Monitor

namespace Xv6

/-- `struct sleeplock`, without the spin lock inside and the debugging name. -/
structure Sleeplock where
  locked : Bool
  pid : ℕ
  deriving DecidableEq

namespace Sleeplock

/-- The calls into sleeplock.c. -/
inductive Call where
  | acquiresleep
  | releasesleep
  | holdingsleep
  deriving DecidableEq

/-- Where a process is; `asking` and `answered` are inside and behind
`holdingsleep`, called with or without the lock. -/
inductive Loc where
  | idle
  | acquiring
  | holding
  | releasing
  | released
  | asking (has : Bool)
  | answered (has r : Bool)
  deriving DecidableEq

/-- Whether a process that is in no call has the lock. -/
def Loc.between : Loc → Option Bool
  | idle => some false
  | holding => some true
  | answered has _ => some has
  | _ => none

/-- A process calls `releasesleep` only for a lock it has. -/
def outside (l : Loc) (lk : Sleeplock) (c : Call) : Option (Sleeplock × Loc) :=
  match l.between, c with
  | some false, .acquiresleep => some (lk, .acquiring)
  | some true, .releasesleep => some (lk, .releasing)
  | some has, .holdingsleep => some (lk, .asking has)
  | _, _ => none

open Monitor (Out St)

/-- What the holder of the spin lock `lk->lk` does; `pid` is
`myproc()->pid`. -/
def inside (pid : ℕ) (l : Loc) (lk : Sleeplock) : Option (Out Sleeplock Loc Unit) :=
  match l with
  | .acquiring =>
    if lk.locked then some (.wait () lk .acquiring)
    else some (.leave { locked := true, pid := pid } .holding)
  | .releasing => some (.wake () { locked := false, pid := 0 } .released)
  | .released => some (.leave lk .idle)
  | .asking has => some (.leave lk (.answered has (lk.locked && lk.pid == pid)))
  | .idle | .holding | .answered _ _ => none

def wants : Loc → Bool
  | .acquiring | .releasing | .asking _ => true
  | _ => false

variable {T : Type}

/-- The processes of the table `procs` around one sleep lock;
`initsleeplock` makes it free. -/
def monitor (procs : List T) (pid : T → ℕ) : Monitor T Loc Sleeplock Unit Call where
  threads := procs
  init lk f := lk = { locked := false, pid := 0 } ∧ ∀ t, f t = .idle
  wants := wants
  outside _ := outside
  inside t l lk _ := inside (pid t) l lk

/-- The places at which a process has the lock. -/
def Loc.has : Loc → Bool
  | holding | releasing | asking true | answered true _ => true
  | _ => false

variable {lk lk' : Sleeplock} {l l' : Loc} {c : Call}

/-- A call leaves the lock and who has it. -/
theorem outside_has (h : outside l lk c = some (lk', l')) :
    lk' = lk ∧ l'.has = l.has ∧ ∀ h r, l' ≠ .answered h r := by
  cases l with
  | idle => cases c <;> cases h <;> exact ⟨rfl, rfl, by simp⟩
  | holding => cases c <;> cases h <;> exact ⟨rfl, rfl, by simp⟩
  | answered b r => cases b <;> cases c <;> cases h <;> exact ⟨rfl, rfl, by simp⟩
  | _ => cases c <;> cases h

/-- Who has the lock, as the lock's fields say it. -/
structure Owned (pid : T → ℕ) (lk : Sleeplock) (f : T → Loc) : Prop where
  owner : ∀ t, (f t).has = true → lk.locked = true ∧ lk.pid = pid t
  locked : lk.locked = true → ∃ t, (f t).has = true
  alone : ∀ t u, (f t).has = true → (f u).has = true → t = u
  answer : ∀ t h r, f t = .answered h r → r = h

variable [DecidableEq T] {pid : T → ℕ} {f : T → Loc} {t : T}

/-- A step that changes neither the lock nor who has it. -/
theorem Owned.move (h : Owned pid lk f) (hl : l'.has = (f t).has)
    (ha : ∀ h r, l' = .answered h r → r = h) : Owned pid lk (Function.update f t l') := by
  have hhas : ∀ u, (Function.update f t l' u).has = (f u).has := by
    intro u
    by_cases hu : u = t
    · subst hu
      simpa using hl
    · simp [hu]
  refine ⟨fun u hu => h.owner u (hhas u ▸ hu), fun hk => ?_, fun u v hu hv =>
    h.alone u v (hhas u ▸ hu) (hhas v ▸ hv), fun u b r hu => ?_⟩
  · obtain ⟨u, hu⟩ := h.locked hk
    exact ⟨u, by rw [hhas]; exact hu⟩
  · by_cases hut : u = t
    · subst hut
      exact ha b r (by simpa using hu)
    · exact h.answer u b r (by simpa [hut] using hu)

/-- Taking a free lock. -/
theorem Owned.take (h : Owned pid lk f) (hk : lk.locked = false) :
    Owned pid { locked := true, pid := pid t } (Function.update f t .holding) := by
  have hnone : ∀ u, (f u).has = false := by
    intro u
    by_contra hu
    have := (h.owner u (by simpa using hu)).1
    simp [hk] at this
  have honly : ∀ u, (Function.update f t .holding u).has = true → u = t := by
    intro u hu
    by_contra hut
    simp [hut, hnone] at hu
  refine ⟨fun u hu => ?_, fun _ => ⟨t, by simp [Loc.has]⟩, fun u v hu hv => ?_, fun u b r hu => ?_⟩
  · rw [honly u hu]
    exact ⟨rfl, rfl⟩
  · rw [honly u hu, honly v hv]
  · by_cases hut : u = t
    · subst hut
      simp at hu
    · exact h.answer u b r (by simpa [hut] using hu)

/-- Giving it back. -/
theorem Owned.give (h : Owned pid lk f) (ht : (f t).has = true) :
    Owned pid { locked := false, pid := 0 } (Function.update f t .released) := by
  have hnone : ∀ u, (Function.update f t .released u).has = false := by
    intro u
    by_cases hut : u = t
    · simp [hut, Loc.has]
    · simp only [Function.update_of_ne hut]
      by_contra hu
      exact hut (h.alone u t (by simpa using hu) ht)
  refine ⟨fun u hu => ?_, fun hk => (by cases hk), fun u v hu => ?_, fun u b r hu => ?_⟩
  · rw [hnone u] at hu
    cases hu
  · rw [hnone u] at hu
    cases hu
  · by_cases hut : u = t
    · subst hut
      simp at hu
    · exact h.answer u b r (by simpa [hut] using hu)

omit [DecidableEq T] in
theorem monitor_private {procs : List T} :
    Monitor.Private (monitor procs pid) (fun l => l == .released) where
  init h t := by rw [h.2 t]; rfl
  outside {t l lk c lk' l'} h := by
    cases l with
    | idle => cases c <;> cases h <;> rfl
    | holding => cases c <;> cases h <;> rfl
    | answered b r => cases b <;> cases c <;> cases h <;> rfl
    | _ => cases c <;> cases h
  leave {t l lk c lk' l'} h := by
    cases l <;> simp only [monitor, inside, Option.some_inj, Out.leave.injEq, reduceCtorEq] at h
    case acquiring =>
      split at h
      · cases h
      · cases h
        rfl
    case released =>
      rw [← h.2]
      rfl
    case asking b =>
      rw [← h.2]
      rfl
  wait {t l lk c u lk' l'} h := by
    cases l <;> simp only [monitor, inside, Option.some_inj, reduceCtorEq] at h
    case acquiring =>
      split at h
      · cases h
        rfl
      · cases h

variable {procs : List T} {s : St T Loc Sleeplock Unit}

/-- What `locked` and `pid` say of who has the lock, in every interleaving. -/
theorem owned (hpid : Function.Injective pid) (h : (monitor procs pid).sys.Reachable s) :
    Owned pid s.shared s.locs := by
  refine Monitor.view_invariant monitor_private (J := Owned pid) ?_ ?_ ?_ h
  · rintro lk f ⟨rfl, hidle⟩
    refine ⟨fun t ht => ?_, fun hk => (by cases hk), fun t u ht => ?_, fun t b r ht => ?_⟩
    · simp [hidle, Loc.has] at ht
    · simp [hidle, Loc.has] at ht
    · simp [hidle] at ht
  · intro lk f t c lk' l' hJ ho
    obtain ⟨rfl, hhas, hans⟩ := outside_has ho
    exact hJ.move hhas fun b r hl => absurd hl (hans b r)
  · intro lk f t c o hJ _ ho
    have ho : inside (pid t) (f t) lk = some o := ho
    cases hl : f t with
    | acquiring =>
      rw [hl, inside] at ho
      split at ho
      · cases ho
        exact hJ.move (by rw [hl]; rfl) (by simp [Out.loc])
      · rename_i hk
        cases ho
        exact hJ.take (by simpa using hk)
    | releasing =>
      rw [hl] at ho
      cases ho
      exact hJ.give (by rw [hl]; rfl)
    | released =>
      rw [hl] at ho
      cases ho
      exact hJ.move (by rw [hl]; rfl) (by simp [Out.loc])
    | asking has =>
      rw [hl] at ho
      cases ho
      refine hJ.move (by rw [hl]; cases has <;> rfl) fun b r hb => ?_
      -- `pid` tells the caller from the process that has the lock
      obtain ⟨rfl, rfl⟩ := Loc.answered.inj hb
      cases has with
      | true =>
        obtain ⟨hk, hp⟩ := hJ.owner t (by rw [hl]; rfl)
        simp [hk, hp]
      | false =>
        by_contra hyes
        have hyes : lk.locked = true ∧ lk.pid = pid t := by simpa using hyes
        obtain ⟨u, hu⟩ := hJ.locked hyes.1
        have hut : u = t := hpid ((hJ.owner u hu).2.symm.trans hyes.2)
        rw [hut, hl] at hu
        cases hu
    | idle => rw [hl] at ho; cases ho
    | holding => rw [hl] at ho; cases ho
    | answered b r => rw [hl] at ho; cases ho

/-- **Mutual exclusion.**  In every interleaving, at most one process is
between `acquiresleep` and the end of `releasesleep`; `holdingsleep` answers
yes to that process and no to all others. -/
theorem exclusion (hpid : Function.Injective pid) (h : (monitor procs pid).sys.Reachable s) :
    (∀ t u, (s.locs t).has = true → (s.locs u).has = true → t = u) ∧
    ∀ t has r, s.locs t = .answered has r → r = has :=
  ⟨(owned hpid h).alone, (owned hpid h).answer⟩

/-- One process takes the lock, and another one falls asleep for it. -/
def oneWaits : List (Monitor.Act Bool Call) :=
  [.outside true .acquiresleep, .acquire true, .inside true .acquiresleep,
    .outside false .acquiresleep, .acquire false, .inside false .acquiresleep, .release false,
    .sleep false]

theorem oneWaits_init : (monitor [false, true] Bool.toNat).sys.init
    (.start (fun _ => .idle) { locked := false, pid := 0 }) :=
  Monitor.init_start ⟨rfl, fun _ => rfl⟩

theorem oneWaits_pid : Function.Injective Bool.toNat := by
  unfold Function.Injective
  decide

theorem exclusion_oneWaits : ∃ s : St Bool Loc Sleeplock Unit,
    (monitor [false, true] Bool.toNat).sys.Reachable s ∧ (s.locs true).has = true ∧
    (∀ t u, (s.locs t).has = true → (s.locs u).has = true → t = u) ∧
    ∀ t has r, s.locs t = .answered has r → r = has := by
  obtain ⟨s, hs, htrue⟩ := Sys.exists_of_run (monitor [false, true] Bool.toNat).sys oneWaits
    (p := fun s => (s.locs true).has = true) (.init oneWaits_init) (by decide)
  exact ⟨s, hs, htrue, exclusion oneWaits_pid hs⟩

/-- No wakeup of a sleep lock is lost. -/
theorem noLoss (hall : ∀ t, t ∈ procs) :
    Monitor.NoLoss (monitor procs pid) (fun lk l _ => lk.locked = true ∧ l.has = false)
      (fun _ lk l _ => lk.locked = true ∧ l.has = false) where
  all := hall
  acquire _ h := h
  outside _ _ ho _ _ := by
    obtain ⟨rfl, -⟩ := outside_has ho
    exact ⟨id, fun _ => id⟩
  inside {s t i k o u l c} _ hk ho _ _ h := by
    have ho : inside (pid t) k s.shared = some o := ho
    cases k <;> simp only [inside, Option.some_inj, reduceCtorEq] at ho
    case acquiring =>
      rw [if_pos h.1] at ho
      cases ho
      exact h
    case releasing =>
      cases ho
      exact fun hne => absurd rfl hne
    case released =>
      cases ho
      exact h
    case asking =>
      cases ho
      exact h
  waits {s t i k c d k'} _ hk ho := by
    have ho : inside (pid t) k s.shared = some (.wait c d k') := ho
    cases k <;> simp only [inside, Option.some_inj, reduceCtorEq] at ho
    case acquiring =>
      split at ho
      · rename_i hlk
        cases ho
        exact ⟨hlk, rfl⟩
      · cases ho

/-- **No one sleeps for a free lock.**  Whenever the spin lock inside is free,
a process that sleeps for the sleep lock, or is about to, waits for another
process that has it. -/
theorem sleepers_wait_owner (hall : ∀ t, t ∈ procs) (hpid : Function.Injective pid)
    (h : (monitor procs pid).sys.Reachable s) (hlock : s.lock = none) {t : T}
    (hw : (s.pc t).waits = true) (hc : (s.chan t).isSome = true) :
    ∃ u, u ≠ t ∧ (s.locs u).has = true ∧ s.shared.pid = pid u := by
  obtain ⟨c, hc⟩ := Option.isSome_iff_exists.mp hc
  obtain ⟨hk, hno⟩ := (noLoss hall).reason_of_registered h hlock ⟨hw, rfl, hc⟩
  obtain ⟨u, hu⟩ := (owned hpid h).locked hk
  refine ⟨u, ?_, hu, ((owned hpid h).owner u hu).2⟩
  rintro rfl
  rw [hu] at hno
  cases hno

theorem sleepers_wait_oneWaits : ∃ s : St Bool Loc Sleeplock Unit,
    (monitor [false, true] Bool.toNat).sys.Reachable s ∧ (s.pc false).waits = true ∧
    ∃ u, u ≠ false ∧ (s.locs u).has = true ∧ s.shared.pid = Bool.toNat u := by
  obtain ⟨s, hs, hlock, hw, hc⟩ := Sys.exists_of_run (monitor [false, true] Bool.toNat).sys oneWaits
    (p := fun s => s.lock = none ∧ (s.pc false).waits = true ∧ (s.chan false).isSome = true)
    (.init oneWaits_init) (by decide)
  exact ⟨s, hs, hw, sleepers_wait_owner (by decide) oneWaits_pid hs hlock hw hc⟩

end Sleeplock

end Xv6
