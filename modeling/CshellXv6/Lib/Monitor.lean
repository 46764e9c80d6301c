/-
Monitors: shared data behind one lock, with threads that wait inside.

A thread that finds nothing to do registers itself on a channel, gives the
lock back and goes to sleep; a thread that changes the data wakes a channel,
one thread of the table after another, while it holds the lock.  Registering
and falling asleep are two steps, and a thread may also be taken out of its
sleep without any wakeup.  What the threads do is a parameter.

* `Monitor.sys` — the interleavings of the threads of a monitor;
* `Monitor.view_invariant` — a property of the shared data and the threads'
  local states holds in every reachable state as soon as the threads' own
  steps keep it;
* `Monitor.locked` — who holds the lock, and that a sleeping thread is still
  registered;
* `Monitor.Private` — local states that only the holder can be in;
* `Monitor.NoLoss` — the obligations of a monitor in which no wakeup is lost,
  and `Monitor.NoLoss.reason_of_registered` — whenever the lock is free, every
  thread that sleeps, or has made up its mind to, still has its reason to;
* `Monitor.limit` and `Monitor.guard` — the runs in which the steps of the
  holder, or those of the others, meet a condition;
* `Monitor.sum_move` — a share of every thread, summed over all of them, when
  one thread moves.
-/
import CshellXv6.Lib.Transition
import Mathlib.Algebra.BigOperators.Group.Finset.Piecewise
import Mathlib.Algebra.Order.BigOperators.Group.Finset
import Mathlib.Logic.Function.Basic

/-- What the holder of the lock does next: go on, wake a channel and go on,
give the lock back, or wait on a channel. -/
inductive Monitor.Out (σ L C : Type) where
  | work (s : σ) (l : L)
  | wake (c : C) (s : σ) (l : L)
  | leave (s : σ) (l : L)
  | wait (c : C) (s : σ) (l : L)

/-- The programs of a monitor's threads.  `outside` are the steps a thread
takes without the lock, `inside` those of the holder; `wants l` says that a
thread in local state `l` is about to take the lock.  `threads` is the table
that a wakeup goes through. -/
structure Monitor (T L σ C ι : Type) where
  threads : List T
  init : σ → (T → L) → Prop
  wants : L → Bool
  outside : T → L → σ → ι → Option (σ × L)
  inside : T → L → σ → ι → Option (Monitor.Out σ L C)

namespace Monitor

variable {T L σ C ι : Type}

/-- The shared data and the thread's local state after the step. -/
def Out.shared : Out σ L C → σ
  | work s _ | wake _ s _ | leave s _ | wait _ s _ => s

def Out.loc : Out σ L C → L
  | work _ l | wake _ _ l | leave _ l | wait _ _ l => l

/-- Where a thread is: without the lock, holding it, in the middle of a
wakeup that has `rest` of the table still to go through, registered but still
holding the lock, on its way to sleep, asleep. -/
inductive Pc (T L C : Type) where
  | out (l : L)
  | holds (l : L)
  | waking (c : C) (rest : List T) (l : L)
  | prepared (l : L)
  | leaving (l : L)
  | asleep (l : L)

/-- The thread's local state, wherever it is. -/
def Pc.loc : Pc T L C → L
  | out l | holds l | waking _ _ l | prepared l | leaving l | asleep l => l

/-- The places at which a thread holds the lock. -/
def Pc.inCrit : Pc T L C → Bool
  | holds _ | waking _ _ _ | prepared _ => true
  | out _ | leaving _ | asleep _ => false

/-- The places at which a thread works on the shared data. -/
def Pc.working : Pc T L C → Bool
  | holds _ | waking _ _ _ => true
  | out _ | prepared _ | leaving _ | asleep _ => false

/-- The places between registering and waking up. -/
def Pc.waits : Pc T L C → Bool
  | prepared _ | leaving _ | asleep _ => true
  | out _ | holds _ | waking _ _ _ => false

structure St (T L σ C : Type) where
  pc : T → Pc T L C
  chan : T → Option C
  lock : Option T
  shared : σ

/-- The local states of all threads. -/
def St.locs (s : St T L σ C) (t : T) : L := (s.pc t).loc

inductive Act (T ι : Type) where
  | outside (t : T) (i : ι)
  | acquire (t : T)
  | inside (t : T) (i : ι)
  | scan (t : T)
  | release (t : T)
  | sleep (t : T)
  | kick (t : T)

variable [DecidableEq T]

/-- Move one thread. -/
def St.goto (s : St T L σ C) (t : T) (p : Pc T L C) : St T L σ C :=
  { s with pc := Function.update s.pc t p }

section Goto

variable {s : St T L σ C} (t : T) (p : Pc T L C)

@[simp] theorem goto_shared : (s.goto t p).shared = s.shared := rfl
@[simp] theorem goto_chan : (s.goto t p).chan = s.chan := rfl
@[simp] theorem goto_lock : (s.goto t p).lock = s.lock := rfl
@[simp] theorem goto_pc : (s.goto t p).pc = Function.update s.pc t p := rfl

theorem locs_goto : (s.goto t p).locs = Function.update s.locs t p.loc := by
  funext u
  by_cases hu : u = t
  · subst hu
    simp [St.locs]
  · simp [St.locs, hu]

/-- Moving a thread without changing its local state. -/
theorem locs_goto_same {t : T} {p : Pc T L C} (h : p.loc = (s.pc t).loc) :
    (s.goto t p).locs = s.locs := by
  rw [locs_goto, h]
  exact Function.update_eq_self t s.locs

end Goto

section Locked

variable {s : St T L σ C}

/-- The lock is held by the thread that is in the critical section, and a
sleeping thread is registered. -/
structure Locked (s : St T L σ C) : Prop where
  holder : ∀ t, (s.pc t).inCrit = true ↔ s.lock = some t
  asleep : ∀ t l, s.pc t = .asleep l → (s.chan t).isSome = true

/-- Moves inside or outside the critical section leave the holder. -/
theorem Locked.goto {t : T} {p : Pc T L C} (h : Locked s) (hp : p.inCrit = (s.pc t).inCrit)
    (ha : ∀ l, p = .asleep l → (s.chan t).isSome = true) : Locked (s.goto t p) := by
  constructor
  · intro u
    by_cases hu : u = t
    · subst hu
      simp [hp, h.holder]
    · simp [hu, h.holder]
  · intro u l hl
    by_cases hu : u = t
    · subst hu
      exact ha l (by simpa using hl)
    · exact h.asleep u l (by simpa [hu] using hl)

/-- The lock is handed over: to the thread that enters, or back. -/
theorem Locked.give {t : T} {p : Pc T L C} {o : Option T} (h : Locked s)
    (ho : s.lock = none ∨ s.lock = some t) (hp : p.inCrit = true ↔ o = some t) (hn : o = none ∨ o = some t)
    (ha : ∀ l, p ≠ .asleep l) : Locked { s.goto t p with lock := o } := by
  constructor
  · intro u
    by_cases hu : u = t
    · subst hu
      simpa using hp
    · have hcrit : ¬ (s.pc u).inCrit = true := by
        rw [h.holder]
        obtain ho | ho := ho <;> simp [ho, Ne.symm hu]
      obtain hn | hn := hn <;> simp [hn, hu, hcrit, Ne.symm hu]
  · intro u l hl
    by_cases hu : u = t
    · subst hu
      exact absurd (by simpa using hl) (ha l)
    · exact h.asleep u l (by simpa [hu] using hl)

omit [DecidableEq T] in
/-- Registering a thread, or writing the shared data. -/
theorem Locked.with {c : T → Option C} {d : σ} (h : Locked s)
    (hc : ∀ t, (s.chan t).isSome = true → (c t).isSome = true) :
    Locked { s with chan := c, shared := d } :=
  ⟨h.holder, fun t l hl => hc t (h.asleep t l hl)⟩

end Locked

variable [DecidableEq C]

/-- A wakeup on `c` at one thread of the table: the thread is unregistered
and, if it sleeps already, taken out of its sleep. -/
def St.wakeOne (s : St T L σ C) (c : C) (u : T) : St T L σ C :=
  if s.chan u = some c then
    match s.pc u with
    | .asleep l => { s.goto u (.out l) with chan := Function.update s.chan u none }
    | _ => { s with chan := Function.update s.chan u none }
  else s

/-- What the holder's step makes of the state. -/
def St.outcome (M : Monitor T L σ C ι) (s : St T L σ C) (t : T) : Out σ L C → St T L σ C
  | .work d l => { s.goto t (.holds l) with shared := d }
  | .wake c d l => { s.goto t (.waking c M.threads l) with shared := d }
  | .leave d l => { s.goto t (.out l) with shared := d, lock := none }
  | .wait c d l =>
    { s.goto t (.prepared l) with shared := d, chan := Function.update s.chan t (some c) }

/-- One step of one thread.  `kick` takes a thread out of its sleep without
unregistering it. -/
def step (M : Monitor T L σ C ι) (s : St T L σ C) : Act T ι → Option (St T L σ C)
  | .outside t i =>
    match s.pc t with
    | .out l => (M.outside t l s.shared i).map fun r => { s.goto t (.out r.2) with shared := r.1 }
    | _ => none
  | .acquire t =>
    match s.pc t with
    | .out l =>
      if M.wants l && s.lock.isNone then some { s.goto t (.holds l) with lock := some t } else none
    | _ => none
  | .inside t i =>
    match s.pc t with
    | .holds l => (M.inside t l s.shared i).map (s.outcome M t)
    | _ => none
  | .scan t =>
    match s.pc t with
    | .waking c (u :: rest) l => some ((s.wakeOne c u).goto t (.waking c rest l))
    | .waking _ [] l => some (s.goto t (.holds l))
    | _ => none
  | .release t =>
    match s.pc t with
    | .prepared l => some { s.goto t (.leaving l) with lock := none }
    | _ => none
  | .sleep t =>
    match s.pc t with
    | .leaving l => some (s.goto t (if (s.chan t).isSome then .asleep l else .out l))
    | _ => none
  | .kick t =>
    match s.pc t with
    | .asleep l => some (s.goto t (.out l))
    | _ => none

/-- The interleavings of the threads, from a state in which all of them are
outside and none is registered. -/
def sys (M : Monitor T L σ C ι) : Sys (St T L σ C) (Act T ι) where
  init s := M.init s.shared s.locs ∧ (∀ t, ∃ l, s.pc t = .out l) ∧ (∀ t, s.chan t = none) ∧
    s.lock = none
  step := M.step

/-- All threads outside, in local states `f`, and none registered. -/
def St.start (f : T → L) (d : σ) : St T L σ C where
  pc t := .out (f t)
  chan _ := none
  lock := none
  shared := d

omit [DecidableEq T] [DecidableEq C] in
@[simp] theorem locs_start (f : T → L) (d : σ) : (St.start f d : St T L σ C).locs = f := rfl

theorem init_start {M : Monitor T L σ C ι} {f : T → L} {d : σ} (h : M.init d f) :
    M.sys.init (.start f d) :=
  ⟨h, fun t => ⟨f t, rfl⟩, fun _ => rfl, rfl⟩

section Steps

variable {M : Monitor T L σ C ι} {s s' : St T L σ C}

/-- Everything a step can do. -/
inductive Moves (M : Monitor T L σ C ι) (s : St T L σ C) : Act T ι → St T L σ C → Prop
  | outside {t : T} {i : ι} {l l' : L} {d : σ} : s.pc t = .out l →
      M.outside t l s.shared i = some (d, l') →
      Moves M s (.outside t i) { s.goto t (.out l') with shared := d }
  | acquire {t : T} {l : L} : s.pc t = .out l → M.wants l = true → s.lock = none →
      Moves M s (.acquire t) { s.goto t (.holds l) with lock := some t }
  | inside {t : T} {i : ι} {l : L} {o : Out σ L C} : s.pc t = .holds l →
      M.inside t l s.shared i = some o → Moves M s (.inside t i) (s.outcome M t o)
  | scan {t u : T} {rest : List T} {c : C} {l : L} : s.pc t = .waking c (u :: rest) l →
      Moves M s (.scan t) ((s.wakeOne c u).goto t (.waking c rest l))
  | scanned {t : T} {c : C} {l : L} : s.pc t = .waking c [] l →
      Moves M s (.scan t) (s.goto t (.holds l))
  | release {t : T} {l : L} : s.pc t = .prepared l →
      Moves M s (.release t) { s.goto t (.leaving l) with lock := none }
  | sleep {t : T} {l : L} : s.pc t = .leaving l →
      Moves M s (.sleep t) (s.goto t (if (s.chan t).isSome then .asleep l else .out l))
  | kick {t : T} {l : L} : s.pc t = .asleep l → Moves M s (.kick t) (s.goto t (.out l))

theorem step_moves {a : Act T ι} (h : M.step s a = some s') : Moves M s a s' := by
  cases a with
  | outside t i =>
    simp only [step] at h
    split at h
    · rename_i l hl
      obtain ⟨⟨d, l'⟩, hr, rfl⟩ := Option.map_eq_some_iff.mp h
      exact .outside hl hr
    · cases h
  | acquire t =>
    simp only [step] at h
    split at h
    · rename_i l hl
      split at h
      · rename_i hw
        rw [Bool.and_eq_true, Option.isNone_iff_eq_none] at hw
        cases h
        exact .acquire hl hw.1 hw.2
      · cases h
    · cases h
  | inside t i =>
    simp only [step] at h
    split at h
    · rename_i l hl
      obtain ⟨o, ho, rfl⟩ := Option.map_eq_some_iff.mp h
      exact .inside hl ho
    · cases h
  | scan t =>
    simp only [step] at h
    split at h
    · rename_i hl
      cases h
      exact .scan hl
    · rename_i hl
      cases h
      exact .scanned hl
    · cases h
  | release t =>
    simp only [step] at h
    split at h
    · rename_i hl
      cases h
      exact .release hl
    · cases h
  | sleep t =>
    simp only [step] at h
    split at h
    · rename_i hl
      cases h
      exact .sleep hl
    · cases h
  | kick t =>
    simp only [step] at h
    split at h
    · rename_i hl
      cases h
      exact .kick hl
    · cases h

theorem wakeOne_shared (c : C) (u : T) : (s.wakeOne c u).shared = s.shared := by
  unfold St.wakeOne
  split
  · split <;> rfl
  · rfl

theorem wakeOne_lock (c : C) (u : T) : (s.wakeOne c u).lock = s.lock := by
  unfold St.wakeOne
  split
  · split <;> rfl
  · rfl

/-- A wakeup unregisters the thread if it is on the channel. -/
theorem wakeOne_chan (c : C) (u v : T) :
    (s.wakeOne c u).chan v = if v = u ∧ s.chan u = some c then none else s.chan v := by
  unfold St.wakeOne
  split
  · rename_i hc
    have hupd : Function.update s.chan u none v =
        if v = u ∧ s.chan u = some c then none else s.chan v := by
      by_cases hv : v = u
      · subst hv
        simp [hc]
      · simp [hv]
    split
    · exact hupd
    · exact hupd
  · rename_i hc
    simp [hc]

/-- What a wakeup leaves of a thread's place: outside for a sleeper on the
channel, else where it was. -/
theorem wakeOne_pc (c : C) (u v : T) :
    ((s.wakeOne c u).pc v = s.pc v ∧ (v = u → s.chan u = some c → ∀ l, s.pc v ≠ .asleep l)) ∨
      ∃ l, v = u ∧ s.chan u = some c ∧ s.pc v = .asleep l ∧ (s.wakeOne c u).pc v = .out l := by
  unfold St.wakeOne
  split
  · rename_i hc
    split
    · rename_i l hl
      by_cases hv : v = u
      · subst hv
        exact .inr ⟨l, rfl, hc, hl, by simp⟩
      · exact .inl ⟨by simp [hv], fun h => absurd h hv⟩
    · rename_i hl
      exact .inl ⟨rfl, fun h _ => h ▸ hl⟩
  · rename_i hc
    exact .inl ⟨rfl, fun _ h => absurd h hc⟩

theorem wakeOne_locs (c : C) (u : T) : (s.wakeOne c u).locs = s.locs := by
  funext v
  obtain ⟨h, -⟩ | ⟨l, -, -, hl, hl'⟩ := wakeOne_pc (s := s) c u v
  · simp [St.locs, h]
  · simp [St.locs, hl, hl', Pc.loc]

end Steps

section View

variable {M : Monitor T L σ C ι} {s s' : St T L σ C}

/-- What a step does to the shared data and the local states: nothing, or
what the thread's own program does. -/
theorem step_view {a : Act T ι} (h : M.step s a = some s') :
    (s'.shared = s.shared ∧ s'.locs = s.locs ∧ (∀ t i, a ≠ .outside t i ∧ a ≠ .inside t i)) ∨
    (∃ t i l', a = .outside t i ∧ M.outside t (s.locs t) s.shared i = some (s'.shared, l') ∧
      s'.locs = Function.update s.locs t l') ∨
    (∃ t i o, a = .inside t i ∧ s.pc t = .holds (s.locs t) ∧
      M.inside t (s.locs t) s.shared i = some o ∧
      s'.shared = o.shared ∧ s'.locs = Function.update s.locs t o.loc) := by
  cases step_moves h with
  | @outside t i l l' d hl ho =>
    have hloc : s.locs t = l := by simp [St.locs, hl, Pc.loc]
    exact .inr (.inl ⟨t, i, l', rfl, by rw [hloc]; exact ho, locs_goto t _⟩)
  | @acquire t l hl _ _ =>
    exact .inl ⟨rfl, locs_goto_same (by rw [hl]; rfl), by simp⟩
  | @inside t i l o hl ho =>
    have hloc : s.locs t = l := by simp [St.locs, hl, Pc.loc]
    refine .inr (.inr ⟨t, i, o, rfl, by rw [hloc]; exact hl, by rw [hloc]; exact ho, ?_⟩)
    cases o with
    | work d l => exact ⟨rfl, locs_goto t _⟩
    | wake c d l => exact ⟨rfl, locs_goto t _⟩
    | leave d l => exact ⟨rfl, locs_goto t _⟩
    | wait c d l => exact ⟨rfl, locs_goto t _⟩
  | @scan t u rest c l hl =>
    refine .inl ⟨wakeOne_shared c u, ?_, by simp⟩
    rw [locs_goto, wakeOne_locs]
    have hloc : Pc.loc (.waking c rest l) = s.locs t := by simp [St.locs, hl, Pc.loc]
    rw [hloc]
    exact Function.update_eq_self t s.locs
  | @scanned t c l hl => exact .inl ⟨rfl, locs_goto_same (by rw [hl]; rfl), by simp⟩
  | @release t l hl => exact .inl ⟨rfl, locs_goto_same (by rw [hl]; rfl), by simp⟩
  | @sleep t l hl =>
    refine .inl ⟨rfl, locs_goto_same ?_, by simp⟩
    rw [hl]
    split <;> rfl
  | @kick t l hl => exact .inl ⟨rfl, locs_goto_same (by rw [hl]; rfl), by simp⟩

end View

section Lock

variable {M : Monitor T L σ C ι} {s s' : St T L σ C}

theorem Locked.wakeOne {c : C} {u : T} (h : Locked s) : Locked (s.wakeOne c u) := by
  constructor
  · intro v
    rw [wakeOne_lock, ← h.holder v]
    obtain ⟨hv, -⟩ | ⟨l, -, -, hl, hl'⟩ := wakeOne_pc (s := s) c u v
    · rw [hv]
    · simp [hl, hl', Pc.inCrit]
  · intro v l hl
    obtain ⟨hv, hno⟩ | ⟨l', -, -, -, hl'⟩ := wakeOne_pc (s := s) c u v
    · rw [hv] at hl
      rw [wakeOne_chan, if_neg fun hvu => hno hvu.1 hvu.2 l hl]
      exact h.asleep v l hl
    · rw [hl'] at hl
      cases hl

omit [DecidableEq C] in
theorem Locked.outcome {t : T} {l : L} (h : Locked s) (hl : s.pc t = .holds l)
    (o : Out σ L C) : Locked (s.outcome M t o) := by
  have hlock : s.lock = some t := (h.holder t).mp (by rw [hl]; rfl)
  cases o with
  | work d l => exact (h.goto (by rw [hl]; rfl) (by simp)).with fun _ hc => hc
  | wake c d l => exact (h.goto (by rw [hl]; rfl) (by simp)).with fun _ hc => hc
  | leave d l =>
    exact (h.give (.inr hlock) (by simp [Pc.inCrit]) (.inl rfl) (by simp)).with fun _ hc => hc
  | wait c d l =>
    refine (h.goto (by rw [hl]; rfl) (by simp)).with fun u hc => ?_
    by_cases hu : u = t
    · simp [hu]
    · simpa [hu] using hc

/-- Only the thread in the critical section holds the lock, and no thread
sleeps unregistered. -/
theorem locked (h : M.sys.Reachable s) : Locked s := by
  refine M.sys.invariant ?_ ?_ h
  · rintro s ⟨-, hpc, -, hlock⟩
    constructor
    · intro t
      obtain ⟨l, hl⟩ := hpc t
      simp [hl, hlock, Pc.inCrit]
    · intro t l hl
      obtain ⟨l', hl'⟩ := hpc t
      rw [hl'] at hl
      cases hl
  · intro s a s' hI hs
    cases step_moves hs with
    | outside hl _ => exact (hI.goto (by rw [hl]; rfl) (by simp)).with fun _ hc => hc
    | acquire hl _ hn => exact hI.give (.inl hn) (by simp [Pc.inCrit]) (.inr rfl) (by simp)
    | @inside _ _ _ o hl _ => exact hI.outcome hl o
    | @scan t u rest c l hl =>
      refine hI.wakeOne.goto ?_ (by simp)
      obtain ⟨hv, -⟩ | ⟨l', -, -, hl', -⟩ := wakeOne_pc (s := s) c u t
      · rw [hv, hl]
        rfl
      · rw [hl] at hl'
        cases hl'
    | scanned hl => exact hI.goto (by rw [hl]; rfl) (by simp)
    | @release t l hl =>
      have hlock : s.lock = some t := (hI.holder t).mp (by rw [hl]; rfl)
      exact hI.give (.inr hlock) (by simp [Pc.inCrit]) (.inl rfl) (by simp)
    | sleep hl =>
      refine hI.goto ?_ ?_
      · rw [hl]
        split <;> rfl
      · split
        · rename_i hc
          exact fun _ _ => hc
        · simp
    | kick hl => exact hI.goto (by rw [hl]; rfl) (by simp)

/-- Two threads are never in the critical section together. -/
theorem exclusive (h : M.sys.Reachable s) {t u : T} (ht : (s.pc t).inCrit = true)
    (hu : (s.pc u).inCrit = true) : t = u := by
  have hI := locked h
  rw [hI.holder] at ht hu
  exact Option.some_inj.mp (ht ▸ hu)

end Lock

section Private

variable {M : Monitor T L σ C ι} {s s' : St T L σ C}

/-- Local states that only the holder of the lock can be in. -/
structure Private (M : Monitor T L σ C ι) (mid : L → Bool) : Prop where
  init : ∀ {d f}, M.init d f → ∀ t, mid (f t) = false
  outside : ∀ {t l d i d' l'}, M.outside t l d i = some (d', l') → mid l' = false
  leave : ∀ {t l d i d' l'}, M.inside t l d i = some (.leave d' l') → mid l' = false
  wait : ∀ {t l d i c d' l'}, M.inside t l d i = some (.wait c d' l') → mid l' = false

omit [DecidableEq T] [DecidableEq C] in
/-- With no such state there is nothing to check. -/
theorem Private.none (M : Monitor T L σ C ι) : Private M fun _ => false :=
  ⟨fun _ _ => rfl, fun _ => rfl, fun _ => rfl, fun _ => rfl⟩

/-- A thread in such a state is at work inside. -/
def Private.Kept (mid : L → Bool) (s : St T L σ C) : Prop :=
  ∀ u, mid (s.locs u) = true → (s.pc u).working = true

omit [DecidableEq C] in
theorem Private.Kept.goto {mid : L → Bool} {t : T} {p : Pc T L C} (h : Private.Kept mid s)
    (hp : mid p.loc = true → p.working = true) : Private.Kept mid (s.goto t p) := by
  intro u hu
  by_cases hut : u = t
  · subst hut
    simpa [St.locs] using hp (by simpa [St.locs] using hu)
  · simpa [hut] using h u (by simpa [St.locs, hut] using hu)

omit [DecidableEq C] in
/-- The same for a move that leaves the local state. -/
theorem Private.Kept.stay {mid : L → Bool} {t : T} {p : Pc T L C} (h : Private.Kept mid s)
    (hl : p.loc = (s.pc t).loc) (hw : (s.pc t).working = true → p.working = true) :
    Private.Kept mid (s.goto t p) :=
  h.goto fun hp => hw (h t (by rwa [St.locs, ← hl]))

theorem Private.Kept.wakeOne {mid : L → Bool} {c : C} {u : T} (h : Private.Kept mid s) :
    Private.Kept mid (s.wakeOne c u) := by
  intro v hv
  rw [wakeOne_locs] at hv
  have := h v hv
  obtain ⟨hpc, -⟩ | ⟨l, -, -, hl, -⟩ := wakeOne_pc (s := s) c u v
  · rwa [hpc]
  · rw [hl] at this
    cases this

theorem Private.kept {mid : L → Bool} (h : Private M mid) (hr : M.sys.Reachable s) :
    Private.Kept mid s := by
  refine M.sys.invariant ?_ ?_ hr
  · rintro s ⟨hi, -⟩ u hu
    rw [h.init hi u] at hu
    cases hu
  · intro s a s' hI hs
    cases step_moves hs with
    | outside _ ho => exact hI.goto fun hp => absurd hp (by simp [Pc.loc, h.outside ho])
    | acquire _ _ _ => exact hI.goto fun _ => rfl
    | @inside t i k o hk ho =>
      cases o with
      | work d l => exact hI.goto fun _ => rfl
      | wake c d l => exact hI.goto fun _ => rfl
      | leave d l => exact hI.goto fun hp => absurd hp (by simp [Pc.loc, h.leave ho])
      | wait c d l => exact hI.goto fun hp => absurd hp (by simp [Pc.loc, h.wait ho])
    | @scan t u rest c l hl => exact hI.wakeOne.goto fun _ => rfl
    | scanned hl => exact hI.goto fun _ => rfl
    | release hl => exact hI.stay (by rw [hl]; rfl) (by rw [hl]; exact id)
    | sleep hl =>
      refine hI.stay ?_ (by rw [hl]; intro hw; cases hw)
      rw [hl]
      split <;> rfl
    | kick hl => exact hI.stay (by rw [hl]; rfl) (by rw [hl]; exact id)

theorem Private.inCrit {mid : L → Bool} (h : Private M mid) (hr : M.sys.Reachable s) {u : T}
    (hmid : mid (s.locs u) = true) : (s.pc u).inCrit = true := by
  have hw : (s.pc u).working = true := h.kept hr u hmid
  cases hp : s.pc u with
  | holds l => rfl
  | waking c rest l => rfl
  | _ => simp [hp, Pc.working] at hw

/-- While one thread is inside, no other is in such a state. -/
theorem Private.alone {mid : L → Bool} (h : Private M mid) (hr : M.sys.Reachable s) {t u : T}
    (ht : (s.pc t).inCrit = true) (hu : u ≠ t) : mid (s.locs u) = false := by
  by_contra hmid
  exact hu (exclusive hr (h.inCrit hr (by simpa using hmid)) ht)

/-- While the lock is free, no thread is in such a state. -/
theorem Private.free {mid : L → Bool} (h : Private M mid) (hr : M.sys.Reachable s)
    (hlock : s.lock = .none) (u : T) : mid (s.locs u) = false := by
  by_contra hmid
  have hheld := ((locked hr).holder u).mp (h.inCrit hr (by simpa using hmid))
  rw [hlock] at hheld
  cases hheld

/-- **Invariants of the shared data.**  A property of the shared data and the
local states that every thread's own steps keep holds in every reachable
state: who sleeps and who is woken in between does not matter. -/
theorem view_invariant {mid : L → Bool} (hm : Private M mid) {J : σ → (T → L) → Prop}
    (h₀ : ∀ d f, M.init d f → J d f)
    (hout : ∀ d f t i d' l', J d f → M.outside t (f t) d i = some (d', l') →
      J d' (Function.update f t l'))
    (hin : ∀ d f t i o, J d f → (∀ u, u ≠ t → mid (f u) = false) →
      M.inside t (f t) d i = some o → J o.shared (Function.update f t o.loc))
    (h : M.sys.Reachable s) : J s.shared s.locs := by
  refine M.sys.invariant_of_reachable (I := fun s => J s.shared s.locs)
    (fun s hs => h₀ _ _ hs.1) ?_ h
  intro s a s' hr hJ hs
  obtain ⟨hd, hf, -⟩ | ⟨t, i, l', -, ho, hf⟩ | ⟨t, i, o, -, hl, ho, hd, hf⟩ := step_view hs
  · rw [hd, hf]
    exact hJ
  · rw [hf]
    exact hout _ _ t i _ _ hJ ho
  · rw [hd, hf]
    exact hin _ _ t i o hJ (fun u hu => hm.alone hr (by rw [hl]; rfl) hu) ho

/-- The events of a run, read off the threads' own steps. -/
def events {ε : Type} (ev : T → L → σ → ι → List ε) (s : St T L σ C) : Act T ι → List ε
  | .outside t i | .inside t i => ev t (s.locs t) s.shared i
  | _ => []

/-- The same for properties of the shared data, the local states and the
events so far, the latest first. -/
theorem logged_view_invariant {mid : L → Bool} (hm : Private M mid) {ε : Type}
    {ev : T → L → σ → ι → List ε} {J : σ → (T → L) → List ε → Prop}
    (h₀ : ∀ d f, M.init d f → J d f [])
    (hout : ∀ d f e t i d' l', J d f e → M.outside t (f t) d i = some (d', l') →
      J d' (Function.update f t l') (ev t (f t) d i ++ e))
    (hin : ∀ d f e t i o, J d f e → (∀ u, u ≠ t → mid (f u) = false) →
      M.inside t (f t) d i = some o →
      J o.shared (Function.update f t o.loc) (ev t (f t) d i ++ e))
    {x : St T L σ C × List ε} (h : (M.sys.logged (events ev)).Reachable x) :
    J x.1.shared x.1.locs x.2 := by
  refine M.sys.logged_invariant (I := fun s e => J s.shared s.locs e)
    (fun s hs => h₀ _ _ hs.1) ?_ h
  intro s e a s' hr hJ hs
  obtain ⟨hd, hf, ha⟩ | ⟨t, i, l', rfl, ho, hf⟩ | ⟨t, i, o, rfl, hl, ho, hd, hf⟩ := step_view hs
  · have he : events ev s a = [] := by
      cases a with
      | outside t i => exact absurd rfl (ha t i).1
      | inside t i => exact absurd rfl (ha t i).2
      | _ => rfl
    rw [hd, hf, he]
    exact hJ
  · rw [hf]
    exact hout _ _ _ t i _ _ hJ ho
  · rw [hd, hf]
    exact hin _ _ _ t i o hJ (fun u hu => hm.alone hr (by rw [hl]; rfl) hu) ho

end Private

section NoLoss

/-- Thread `u` is registered on `c`; it will go on in local state `l`. -/
def Registered (s : St T L σ C) (u : T) (l : L) (c : C) : Prop :=
  (s.pc u).waits = true ∧ s.locs u = l ∧ s.chan u = some c

/-- What the holder's step leaves for a thread registered on `c`: nothing to
show if it is `c` that is woken. -/
def Leaves (reason : σ → L → C → Prop) (due : L → σ → L → C → Prop) (l : L) (c : C) :
    Out σ L C → Prop
  | .work d k => due k d l c
  | .wake c₀ d k => c ≠ c₀ → due k d l c
  | .leave d _ | .wait _ d _ => reason d l c

/-- The obligations under which no wakeup is lost.  `reason d l c` is why a
thread that will go on in local state `l` waits on `c`; `due k d l c` is what
is left of it while the lock is held by a thread in local state `k`, who may
have changed the data and not yet woken anybody.  A step of thread `t` only
has to care for the other threads that are registered. -/
structure NoLoss (M : Monitor T L σ C ι) (reason : σ → L → C → Prop)
    (due : L → σ → L → C → Prop) : Prop where
  all : ∀ t, t ∈ M.threads
  acquire : ∀ {k d l c}, M.wants k = true → reason d l c → due k d l c
  outside : ∀ {s t i k d k' u l c}, M.sys.Reachable s → s.pc t = .out k →
    M.outside t k s.shared i = some (d, k') → u ≠ t → Registered s u l c →
    (reason s.shared l c → reason d l c) ∧ ∀ h, due h s.shared l c → due h d l c
  inside : ∀ {s t i k o u l c}, M.sys.Reachable s → s.pc t = .holds k →
    M.inside t k s.shared i = some o → u ≠ t → Registered s u l c → due k s.shared l c →
    Leaves reason due l c o
  waits : ∀ {s t i k c d k'}, M.sys.Reachable s → s.pc t = .holds k →
    M.inside t k s.shared i = some (.wait c d k') → reason d k' c

variable {M : Monitor T L σ C ι} {s s' : St T L σ C} {reason : σ → L → C → Prop}
  {due : L → σ → L → C → Prop}

/-- What is known of a registered thread, by where the holder of the lock is.
In the middle of a wakeup on its channel, the thread is still to come. -/
def owed (reason : σ → L → C → Prop) (due : L → σ → L → C → Prop) (s : St T L σ C)
    (u : T) (l : L) (c : C) : Prop :=
  match s.lock.map s.pc with
  | some (.holds k) => due k s.shared l c
  | some (.waking c₀ rest k) => (c = c₀ ∧ u ∈ rest) ∨ (c ≠ c₀ ∧ due k s.shared l c)
  | _ => reason s.shared l c

omit [DecidableEq T] [DecidableEq C] in
theorem owed_congr {u : T} {l : L} {c : C} (hl : s'.lock.map s'.pc = s.lock.map s.pc)
    (hd : s'.shared = s.shared) : owed reason due s' u l c ↔ owed reason due s u l c := by
  simp only [owed, hl, hd]

omit [DecidableEq C] in
/-- The holder does not move when a thread outside the critical section does. -/
theorem Locked.map_goto {t : T} {p : Pc T L C} (h : Locked s) (ht : (s.pc t).inCrit = false) :
    s.lock.map (s.goto t p).pc = s.lock.map s.pc := by
  cases hl : s.lock with
  | none => rfl
  | some v =>
    have hv : v ≠ t := by
      rintro rfl
      rw [(h.holder v).mpr hl] at ht
      cases ht
    simp [hv]

omit [DecidableEq C] in
/-- Registration of the threads that did not move. -/
theorem registered_goto {t u : T} {p : Pc T L C} {l : L} {c : C} (hp : p.waits = false)
    (h : Registered (s.goto t p) u l c) : u ≠ t ∧ Registered s u l c := by
  obtain ⟨hw, hl, hc⟩ := h
  have hu : u ≠ t := by
    rintro rfl
    simp [hp] at hw
  exact ⟨hu, by simpa [hu] using hw, by simpa [St.locs, hu] using hl, hc⟩

omit [DecidableEq C] in
/-- Moving a waiting thread along its way to sleep keeps its registration. -/
theorem registered_along {t u : T} {p : Pc T L C} {l : L} {c : C} (hw : (s.pc t).waits = true)
    (hl : p.loc = (s.pc t).loc) (h : Registered (s.goto t p) u l c) : Registered s u l c := by
  by_cases hu : u = t
  · subst hu
    obtain ⟨-, hl', hc⟩ := h
    exact ⟨hw, by simpa [St.locs, hl] using hl', hc⟩
  · obtain ⟨hw', hl', hc⟩ := h
    exact ⟨by simpa [hu] using hw', by simpa [St.locs, hu] using hl', hc⟩

/-- A wakeup registers nobody, and unregisters the thread it is at. -/
theorem registered_wakeOne {c₀ c : C} {u v : T} {l : L} (h : Registered (s.wakeOne c₀ u) v l c) :
    Registered s v l c ∧ (v = u → c ≠ c₀) := by
  obtain ⟨hw, hl, hc⟩ := h
  rw [wakeOne_chan] at hc
  split at hc
  · cases hc
  · rename_i hvu
    obtain ⟨hv, -⟩ | ⟨l', rfl, hcu, -, -⟩ := wakeOne_pc (s := s) c₀ u v
    · refine ⟨⟨by rwa [← hv], by rwa [← wakeOne_locs c₀ u], hc⟩, ?_⟩
      rintro rfl rfl
      exact hvu ⟨rfl, hc⟩
    · exact absurd ⟨rfl, hcu⟩ hvu

/-- The holder's step keeps what is owed. -/
theorem NoLoss.owed_outcome (h : NoLoss M reason due) {t : T} {i : ι} {k : L} {o : Out σ L C}
    (hr : M.sys.Reachable s) (hk : s.pc t = .holds k) (ho : M.inside t k s.shared i = some o)
    (hI : ∀ u l c, Registered s u l c → owed reason due s u l c) {u : T} {l : L} {c : C}
    (hu : Registered (s.outcome M t o) u l c) : owed reason due (s.outcome M t o) u l c := by
  have hlock : s.lock = some t := ((locked hr).holder t).mp (by rw [hk]; rfl)
  have hdue : ∀ {u l c}, Registered s u l c → due k s.shared l c := fun hu => by
    have := hI _ _ _ hu
    simpa [owed, hlock, hk] using this
  cases o with
  | work d k' =>
    obtain ⟨hut, hu'⟩ := registered_goto (t := t) (p := .holds k') rfl hu
    have : due k' d l c := h.inside hr hk ho hut hu' (hdue hu')
    simpa [owed, St.outcome, hlock] using this
  | wake c₀ d k' =>
    obtain ⟨hut, hu'⟩ := registered_goto (t := t) (p := .waking c₀ M.threads k') rfl hu
    have hwake := h.inside hr hk ho hut hu' (hdue hu')
    have howed : (c = c₀ ∧ u ∈ M.threads) ∨ (c ≠ c₀ ∧ due k' d l c) := by
      by_cases hc : c = c₀
      · exact .inl ⟨hc, h.all u⟩
      · exact .inr ⟨hc, hwake hc⟩
    simpa [owed, St.outcome, hlock] using howed
  | leave d k' =>
    obtain ⟨hut, hu'⟩ := registered_goto (t := t) (p := .out k') rfl hu
    exact h.inside hr hk ho hut hu' (hdue hu')
  | wait c₀ d k' =>
    have hreason : reason d l c := by
      by_cases hut : u = t
      · subst hut
        obtain ⟨-, hl, hc⟩ := hu
        have hl' : k' = l := by simpa [St.outcome, St.locs, Pc.loc] using hl
        have hc' : c₀ = c := by simpa [St.outcome] using hc
        subst hl' hc'
        exact h.waits hr hk ho
      · have hu' : Registered s u l c := by
          obtain ⟨hw, hl, hc⟩ := hu
          exact ⟨by simpa [St.outcome, hut] using hw, by simpa [St.outcome, St.locs, hut] using hl,
            by simpa [St.outcome, hut] using hc⟩
        exact h.inside hr hk ho hut hu' (hdue hu')
    simpa [owed, St.outcome, hlock] using hreason

/-- What is owed is kept by every step. -/
theorem NoLoss.owed_step (h : NoLoss M reason due) {a : Act T ι} (hr : M.sys.Reachable s)
    (hI : ∀ u l c, Registered s u l c → owed reason due s u l c) (hs : M.step s a = some s') :
    ∀ u l c, Registered s' u l c → owed reason due s' u l c := by
  intro u l c hu
  have hL := locked hr
  cases step_moves hs with
  | @outside t i k k' d hk ho =>
    obtain ⟨hut, hu'⟩ := registered_goto (t := t) (p := .out k') rfl hu
    have hmap : s.lock.map (s.goto t (.out k')).pc = s.lock.map s.pc :=
      hL.map_goto (by rw [hk]; rfl)
    obtain ⟨hreason, hdue⟩ := h.outside hr hk ho hut hu'
    have := hI _ _ _ hu'
    simp only [owed] at this ⊢
    simp only [goto_lock, hmap]
    split at this
    · exact hdue _ this
    · exact this.imp id (And.imp_right (hdue _))
    · exact hreason this
  | @acquire t k hk hw hn =>
    have hu' : Registered s u l c := (registered_goto (t := t) (p := .holds k) rfl hu).2
    have hreason : reason s.shared l c := by simpa [owed, hn] using hI _ _ _ hu'
    simpa [owed] using h.acquire hw hreason
  | inside hk ho => exact h.owed_outcome hr hk ho hI hu
  | @scan t v rest c₀ k hk =>
    -- `v` has been woken; the others are still ahead of the scan
    have hlock : s.lock = some t := (hL.holder t).mp (by rw [hk]; rfl)
    obtain ⟨hut, hu₁⟩ := registered_goto (p := .waking c₀ rest k) rfl hu
    obtain ⟨hu', hne⟩ := registered_wakeOne hu₁
    have := hI _ _ _ hu'
    simp only [owed, hlock, Option.map_some, hk] at this
    have howed : (c = c₀ ∧ u ∈ rest) ∨ (c ≠ c₀ ∧ due k s.shared l c) := by
      obtain ⟨rfl, hmem⟩ | hne := this
      · obtain rfl | hmem := List.mem_cons.mp hmem
        · exact absurd rfl (hne rfl)
        · exact .inl ⟨rfl, hmem⟩
      · exact .inr hne
    simpa [owed, wakeOne_lock, wakeOne_shared, hlock] using howed
  | @scanned t c₀ k hk =>
    -- the scan is over, so who is registered waits for something else
    have hlock : s.lock = some t := (hL.holder t).mp (by rw [hk]; rfl)
    have hu' : Registered s u l c := (registered_goto (t := t) (p := .holds k) rfl hu).2
    have := hI _ _ _ hu'
    simp only [owed, hlock, Option.map_some, hk] at this
    obtain ⟨-, hmem⟩ | ⟨-, hdue⟩ := this
    · cases hmem
    · simpa [owed, hlock] using hdue
  | @release t k hk =>
    have hlock : s.lock = some t := (hL.holder t).mp (by rw [hk]; rfl)
    have hu' : Registered s u l c :=
      registered_along (t := t) (p := .leaving k) (by rw [hk]; rfl) (by rw [hk]; rfl) hu
    have := hI _ _ _ hu'
    simpa [owed, hlock, hk] using this
  | @sleep t k hk =>
    have hu' : Registered s u l c := by
      refine registered_along (by rw [hk]; rfl) ?_ hu
      rw [hk]
      split <;> rfl
    exact (owed_congr (hL.map_goto (by rw [hk]; rfl)) rfl).mpr (hI _ _ _ hu')
  | @kick t k hk =>
    have hu' : Registered s u l c := (registered_goto (t := t) (p := .out k) rfl hu).2
    exact (owed_congr (hL.map_goto (by rw [hk]; rfl)) rfl).mpr (hI _ _ _ hu')

/-- **No wakeup is lost.**  Whenever the lock is free, every registered
thread, be it asleep or still on its way there, has its reason to wait. -/
theorem NoLoss.reason_of_registered (h : NoLoss M reason due) (hr : M.sys.Reachable s)
    (hlock : s.lock = none) {u : T} {l : L} {c : C} (hu : Registered s u l c) :
    reason s.shared l c := by
  have hI : ∀ u l c, Registered s u l c → owed reason due s u l c := by
    refine M.sys.invariant_of_reachable
      (I := fun s => ∀ u l c, Registered s u l c → owed reason due s u l c) ?_ ?_ hr
    · rintro s ⟨-, hpc, -⟩ u l c ⟨hw, -⟩
      obtain ⟨l', hl'⟩ := hpc u
      rw [hl'] at hw
      cases hw
    · intro s a s' hr hI hs
      exact h.owed_step hr hI hs
  simpa [owed, hlock] using hI u l c hu

end NoLoss

section Limit

variable {M : Monitor T L σ C ι} {s : St T L σ C}

/-- The monitor whose holder only takes the steps that meet a condition. -/
def limit (M : Monitor T L σ C ι) (good : L → σ → ι → Bool) : Monitor T L σ C ι :=
  { M with inside := fun t l d i => if good l d i then M.inside t l d i else none }

omit [DecidableEq T] [DecidableEq C] in
theorem limit_inside {good : L → σ → ι → Bool} {t : T} {l : L} {d : σ} {i : ι} {o : Out σ L C} :
    (M.limit good).inside t l d i = some o ↔ good l d i = true ∧ M.inside t l d i = some o := by
  simp only [limit]
  split
  · rename_i hg
    simp [hg]
  · rename_i hg
    simp [hg]

/-- Its runs are runs. -/
theorem reachable_of_limit {good : L → σ → ι → Bool} (h : (M.limit good).sys.Reachable s) :
    M.sys.Reachable s := by
  induction h with
  | init hi => exact .init hi
  | @step s s' a _ hs ih =>
    refine .step (a := a) ih ?_
    cases a with
    | inside t i =>
      have hs' : (M.limit good).step s (.inside t i) = some s' := hs
      show M.step s (.inside t i) = some s'
      simp only [step] at hs' ⊢
      split at hs'
      · obtain ⟨o, ho, hout⟩ := Option.map_eq_some_iff.mp hs'
        rw [(limit_inside.mp ho).2]
        rw [← hout]
        cases o <;> rfl
      · cases hs'
    | _ => exact hs

/-- The monitor whose threads, without the lock, only take the steps that meet
a condition. -/
def guard (M : Monitor T L σ C ι) (good : L → σ → ι → Bool) : Monitor T L σ C ι :=
  { M with outside := fun t l d i => if good l d i then M.outside t l d i else none }

omit [DecidableEq T] [DecidableEq C] in
theorem guard_outside {good : L → σ → ι → Bool} {t : T} {l : L} {d : σ} {i : ι} {r : σ × L} :
    (M.guard good).outside t l d i = some r ↔
      good l d i = true ∧ M.outside t l d i = some r := by
  simp only [guard]
  split
  · rename_i hg
    simp [hg]
  · rename_i hg
    simp [hg]

theorem reachable_of_guard {good : L → σ → ι → Bool} (h : (M.guard good).sys.Reachable s) :
    M.sys.Reachable s := by
  induction h with
  | init hi => exact .init hi
  | @step s s' a _ hs ih =>
    refine .step (a := a) ih ?_
    cases a with
    | outside t i =>
      have hs' : (M.guard good).step s (.outside t i) = some s' := hs
      show M.step s (.outside t i) = some s'
      simp only [step] at hs' ⊢
      split at hs'
      · obtain ⟨r, hr, hout⟩ := Option.map_eq_some_iff.mp hs'
        rw [(guard_outside.mp hr).2, ← hout]
        rfl
      · cases hs'
    | _ => exact hs

omit [DecidableEq T] [DecidableEq C] in
theorem Private.guard {mid : L → Bool} (h : Private M mid) (good : L → σ → ι → Bool) :
    Private (M.guard good) mid :=
  ⟨h.init, fun ho => h.outside (guard_outside.mp ho).2, h.leave, h.wait⟩

end Limit

section Shares

variable [Fintype T] {f : T → L} {t : T} {l' : L}

/-- The sum of the shares, when one thread moves. -/
theorem sum_move (w : L → ℕ) (f : T → L) (t : T) (l' : L) :
    ∑ u, w (Function.update f t l' u) + w (f t) = ∑ u, w (f u) + w l' := by
  have hupd : ∀ u, w (Function.update f t l' u) = Function.update (w ∘ f) t (w l') u := by
    intro u
    by_cases hu : u = t
    · subst hu
      simp
    · simp [hu]
  have hsum := Finset.add_sum_erase Finset.univ (w ∘ f) (Finset.mem_univ t)
  simp only [hupd, Finset.sum_update_of_mem (Finset.mem_univ t), Finset.sdiff_singleton_eq_erase]
  simp only [Function.comp_apply] at hsum ⊢
  omega

/-- A move that does not change the thread's share. -/
theorem sum_stay {w : L → ℕ} (h : w l' = w (f t)) :
    ∑ u, w (Function.update f t l' u) = ∑ u, w (f u) := by
  have := sum_move w f t l'
  omega

omit [DecidableEq T] in
theorem le_sum (w : L → ℕ) (f : T → L) (t : T) : w (f t) ≤ ∑ u, w (f u) :=
  Finset.single_le_sum (f := fun u => w (f u)) (fun _ _ => Nat.zero_le _) (Finset.mem_univ t)

omit [DecidableEq T] in
theorem eq_zero_of_sum {w : L → ℕ} (h : ∑ u, w (f u) = 0) (t : T) : w (f t) = 0 := by
  have := le_sum w f t
  omega

end Shares

end Monitor
