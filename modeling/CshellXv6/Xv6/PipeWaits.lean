/-
Sleeping on a pipe.

* `Pipe.writers_wait` — whenever the lock is free, a writer sleeps only on a
  full pipe that is still open for reading;
* `Pipe.readers_wait` — and a reader only on an empty one that is still open
  for writing, as long as no writer notices in the middle of its loop that it
  was killed;
* `Pipe.killed_writer` — the condition is needed: `pipewrite` returns -1
  without the `wakeup(&pi->nread)` at its end, and the bytes it has put stay
  in the pipe in front of a sleeping reader.
-/
import CshellXv6.Xv6.PipeRuns

namespace Xv6.Pipe

open Monitor (Out St Registered NoLoss Leaves)

/-- Why a process waits. -/
def reason (p : Pipe) : Chan → Prop
  | .nread => (p.nread = p.nwrite ∧ p.writeopen = true) ∨ p.readopen = false
  | .nwrite => p.nwrite = p.nread + PIPESIZE ∧ p.readopen = true

/-- What is left of the reason while the lock is held: nothing for readers
once a byte was put, nothing for writers once bytes may have been taken. -/
def due (l : Loc) (p : Pipe) (c : Chan) : Prop :=
  match l, c with
  | .writing _ _ _, .nread | .wrote _, .nread => True
  | .reading _ _ _, .nwrite | .didRead _, .nwrite => True
  | _, c => reason p c

variable {p : Pipe} {l : Loc} {c : Chan} {k : Bool} {o : Out Pipe Loc Chan}

theorem due_of_reason (h : reason p c) : due l p c := by
  unfold due
  split <;> trivial

/-- At the heads of the loop of `pipewrite`, writers still have their reason. -/
theorem due_head {src : ℕ → Option UInt8} {n : ℤ} {i : ℕ} (hl : l.Head src n i)
    (h : due l p .nwrite) : reason p .nwrite := by
  obtain rfl | rfl := hl <;> exact h

/-- Every step of the holder, for writers. -/
theorem Does.left_nwrite (h : Does p k l o) (hd : due l p .nwrite) (w : Loc) :
    Leaves (fun p _ => reason p) (fun l p _ => due l p) w .nwrite o := by
  cases h with
  | refuse hl _ _ => exact due_head hl hd
  | full hl _ _ _ => exact fun _ => due_head hl hd
  | fault hl _ _ => exact due_head hl hd
  | put hl _ hfull _ => exact absurd (due_head hl hd).1 hfull
  | done hl _ => exact due_head hl hd
  | enter _ => trivial
  | empty _ _ => trivial
  | got _ _ _ => trivial
  | noRoom _ _ => trivial
  | filled _ => trivial
  | didRead => exact fun h => absurd rfl h
  | closeRead => exact fun h => absurd rfl h
  | wrote => exact fun _ => hd
  | closeWrite => exact fun _ => hd
  | _ => exact hd

/-- Every step of the holder, for readers, unless a writer in the middle of
its loop notices that it was killed. -/
theorem Does.left_nread (h : Does p k l o) (hk : ∀ src n i, l = .writing src n i → k = false)
    (hd : due l p .nread) (w : Loc) :
    Leaves (fun p _ => reason p) (fun l p _ => due l p) w .nread o := by
  cases h with
  | @refuse l src n i hl _ hr =>
    obtain rfl | rfl := hl
    · exact hd
    · exact .inr (hr.resolve_right (by simp [hk src n i rfl]))
  | full _ _ _ _ => exact fun h => absurd rfl h
  | fault _ _ _ => trivial
  | put _ _ _ _ => trivial
  | done _ _ => trivial
  | wrote => exact fun h => absurd rfl h
  | got _ hne _ => exact .inr (hd.resolve_left fun h => hne h.1)
  | closeWrite => exact fun h => absurd rfl h
  | closeRead => exact fun _ => .inr rfl
  | didRead => exact fun _ => hd
  | _ => exact hd

theorem Does.found_full (h : Does p k l o) {src : ℕ → Option UInt8} {n : ℤ} {i : ℕ}
    (hl : o.loc = .full src n i) : reason o.shared .nwrite := by
  cases h with
  | full _ _ hr hfull => exact ⟨hfull, hr⟩
  | _ => cases hl

variable {T : Type} [DecidableEq T] {procs : List T} {s : St T Loc Pipe Chan}

/-- Between the two wakeups of a writer that found no room, nobody makes any. -/
theorem full_stays (h : (monitor procs).sys.Reachable s) {t : T} {src : ℕ → Option UInt8} {n : ℤ}
    {i : ℕ} (ht : s.locs t = .full src n i) : reason s.shared .nwrite := by
  refine Monitor.view_invariant monitor_private
    (J := fun p f => ∀ t src n i, f t = .full src n i → reason p .nwrite) ?_ ?_ ?_ h t src n i ht
  · rintro p f ⟨-, hidle⟩ t src n i ht
    rw [hidle t] at ht
    cases ht
  · rintro p f t i p' l' hJ ho u src n j hu
    obtain ⟨rfl, c, rfl, rfl⟩ := outside_shared ho
    by_cases hut : u = t
    · subst hut
      rw [Function.update_self] at hu
      cases c <;> cases hu
    · rw [Function.update_of_ne hut] at hu
      exact hJ u src n j hu
  · rintro p f t i o - hmid ho u src n j hu
    obtain ⟨k, -, hd⟩ := inside_does ho
    by_cases hut : u = t
    · subst hut
      rw [Function.update_self] at hu
      exact hd.found_full hu
    · rw [Function.update_of_ne hut] at hu
      have := hmid u hut
      rw [hu] at this
      cases this

/-- The process that goes to sleep has its reason. -/
theorem Does.waits {l' : Loc} {p' : Pipe} (h : Does p k l (.wait c p' l'))
    (hfull : ∀ src n i, l = .full src n i → reason p .nwrite) : reason p' c := by
  cases h with
  | waitRoom => exact hfull _ _ _ rfl
  | waitByte he hw _ => exact .inl ⟨he, hw⟩

/-- No writer notices a kill in the middle of its loop. -/
def unhurried : Loc → Pipe → Input → Bool
  | .writing _ _ _, _, .killed true => false
  | _, _, _ => true

/-- No wakeup is lost by writers. -/
theorem noLoss_writers (hall : ∀ t, t ∈ procs) :
    NoLoss (monitor procs) (fun p _ c => c = .nwrite → reason p c)
      (fun l p _ c => c = .nwrite → due l p c) where
  all := hall
  acquire _ h hc := due_of_reason (h hc)
  outside _ _ ho _ _ := by
    obtain ⟨rfl, -⟩ := outside_shared ho
    exact ⟨id, fun _ => id⟩
  inside {s t i k o u l c} hr hk ho _ _ h := by
    obtain ⟨b, -, hd⟩ := inside_does ho
    have hleft : c = .nwrite → Leaves (fun p _ => reason p) (fun l p _ => due l p) l c o := by
      rintro rfl
      exact hd.left_nwrite (h rfl) l
    cases o with
    | wake c₀ p' l' => exact fun hne hc => hleft hc hne
    | _ => exact hleft
  waits {s t i k c d k'} hr hk ho hc := by
    obtain ⟨b, -, hd⟩ := inside_does ho
    refine hd.waits fun src n j hl => ?_
    have hloc : s.locs t = .full src n j := by simp [St.locs, hk, hl, Monitor.Pc.loc]
    exact full_stays hr hloc

/-- No wakeup is lost by anybody as long as writers take their time. -/
theorem noLoss_all (hall : ∀ t, t ∈ procs) :
    NoLoss ((monitor procs).limit unhurried) (fun p _ => reason p) (fun l p _ => due l p) where
  all := hall
  acquire _ h := due_of_reason h
  outside _ _ ho _ _ := by
    obtain ⟨rfl, -⟩ := outside_shared ho
    exact ⟨id, fun _ => id⟩
  inside {s t i k o u l c} hr hk ho _ _ h := by
    obtain ⟨hgood, ho⟩ := Monitor.limit_inside.mp ho
    obtain ⟨b, rfl, hd⟩ := inside_does ho
    cases c with
    | nwrite => exact hd.left_nwrite h l
    | nread =>
      refine hd.left_nread (fun src n j hl => ?_) h l
      rw [hl] at hgood
      cases b with
      | false => rfl
      | true => cases hgood
  waits {s t i k c d k'} hr hk ho := by
    obtain ⟨-, ho⟩ := Monitor.limit_inside.mp ho
    obtain ⟨b, -, hd⟩ := inside_does ho
    refine hd.waits fun src n j hl => ?_
    have hloc : s.locs t = .full src n j := by simp [St.locs, hk, hl, Monitor.Pc.loc]
    exact full_stays (Monitor.reachable_of_limit hr) hloc

/-- **Writers only sleep on a full pipe.**  In every interleaving, whenever the
lock is free, a process that sleeps on `&pi->nwrite`, or is about to, has no
room in the pipe and somebody left to read from it. -/
theorem writers_wait (hall : ∀ t, t ∈ procs) (h : (monitor procs).sys.Reachable s)
    (hlock : s.lock = none) {t : T} (hw : (s.pc t).waits = true) (hc : s.chan t = some .nwrite) :
    s.shared.nwrite = s.shared.nread + PIPESIZE ∧ s.shared.readopen = true :=
  (noLoss_writers hall).reason_of_registered h hlock ⟨hw, rfl, hc⟩ rfl

/-- A writer fills the pipe and waits for room. -/
def fullPipe : List (Monitor.Act Bool Input) :=
  [.outside true (.call (.pipewrite (fun _ => some 65) 513)), .acquire true] ++
    List.replicate 513 (.inside true (.killed false)) ++
    [.scan true, .scan true, .scan true, .inside true (.killed false), .release true]

theorem writers_wait_full : ∃ s : St Bool Loc Pipe Chan, (monitor [false, true]).sys.Reachable s ∧
    (s.pc true).waits = true ∧ s.shared.nwrite = s.shared.nread + PIPESIZE ∧
    s.shared.readopen = true := by
  obtain ⟨s, hs, hlock, hw, hc⟩ := Sys.exists_of_run (monitor [false, true]).sys fullPipe
    (p := fun s => s.lock = none ∧ (s.pc true).waits = true ∧ s.chan true = some .nwrite)
    (.init start_init) (by decide +kernel)
  exact ⟨s, hs, hw, writers_wait (by decide) hs hlock hw hc⟩

/-- **Readers only sleep on an empty pipe.**  In every interleaving in which no
writer notices a kill behind a byte it has put, whenever the lock is free, a
process that sleeps on `&pi->nread`, or is about to, has nothing to read and
somebody left to write; or the read end was closed behind its back. -/
theorem readers_wait (hall : ∀ t, t ∈ procs)
    (h : ((monitor procs).limit unhurried).sys.Reachable s)
    (hlock : s.lock = none) {t : T} (hw : (s.pc t).waits = true) (hc : s.chan t = some .nread) :
    (s.shared.nread = s.shared.nwrite ∧ s.shared.writeopen = true) ∨ s.shared.readopen = false :=
  (noLoss_all hall).reason_of_registered h hlock ⟨hw, rfl, hc⟩

/-- A reader finds nothing and falls asleep. -/
def emptyPipe : List (Monitor.Act Bool Input) :=
  [.outside false (.call (.piperead (fun _ => true) 1)), .acquire false,
    .inside false (.killed false), .release false, .sleep false]

theorem readers_wait_empty : ∃ s : St Bool Loc Pipe Chan,
    ((monitor [false, true]).limit unhurried).sys.Reachable s ∧ (s.pc false).waits = true ∧
    ((s.shared.nread = s.shared.nwrite ∧ s.shared.writeopen = true) ∨
      s.shared.readopen = false) := by
  obtain ⟨s, hs, hlock, hw, hc⟩ :=
    Sys.exists_of_run ((monitor [false, true]).limit unhurried).sys emptyPipe
      (p := fun s => s.lock = none ∧ (s.pc false).waits = true ∧ s.chan false = some .nread)
      (.init start_init) (by decide)
  exact ⟨s, hs, hw, readers_wait (by decide) hs hlock hw hc⟩

/-- A reader falls asleep, a writer puts a byte and then notices that it was
killed. -/
def killedWriter : List (Monitor.Act Bool Input) :=
  emptyPipe ++ [.outside true (.call (.pipewrite (fun _ => some 65) 2)), .acquire true,
    .inside true (.killed false), .inside true (.killed true)]

/-- The condition on writers is needed: here a reader sleeps, the lock is
free, both ends are open and there is a byte to read. -/
theorem killed_writer : ∃ s : St Bool Loc Pipe Chan, (monitor [false, true]).sys.Reachable s ∧
    s.lock = none ∧ (s.pc false).waits = true ∧ s.chan false = some .nread ∧
    s.shared.nread ≠ s.shared.nwrite ∧ s.shared.readopen = true ∧ s.shared.writeopen = true :=
  Sys.exists_of_run _ killedWriter (.init start_init) (by decide)

end Xv6.Pipe
