/-
The priority boost.

The boost loop of `yield_mlfq` pops each level until it is empty and pushes what
it pops to queue 0.  Level 0 is one of the levels it pops, so on a queue 0 that
is not empty the loop never gets past it; and it writes the level of the
processes it finds in a queue and of the booster, but of nobody else.

* `boostLoop_drain` — a level other than 0 is moved to the end of queue 0, in
  order;
* `boostLoop_stuck` — the loop does not end if queue 0 is not empty;
* `boost_covers_iff` — exactly when a boost leaves every process at level 0.
-/
import CshellXv6.Mlfq.Refinement

namespace Mlfq

open Mem CircularBuffer

section Loop

variable {Q : Type} (ops : QueueOps Q)

/-- The boost loop from `pc` on; `none` if it is not over after `n` calls of
`pop` and `push`. -/
def boostLoop : ℕ → BoostPc → Mem Q → Option (Mem Q)
  | 0, pc, m => if pc = .loop 4 then some m else none
  | n + 1, pc, m =>
    if pc = .loop 4 then some m
    else match m.boostStep ops pc with
      | none => none
      | some (pc', m') => boostLoop n pc' m'

variable {ops}

theorem boostLoop_step {pc pc' : BoostPc} {m m' : Mem Q} (hpc : pc ≠ .loop 4)
    (hs : m.boostStep ops pc = some (pc', m')) (n : ℕ) :
    boostLoop ops (n + 1) pc m = boostLoop ops n pc' m' := by
  rw [boostLoop, if_neg hpc, hs]

/-- More calls do not change where the loop ends. -/
theorem boostLoop_mono {n : ℕ} {pc : BoostPc} {m m' : Mem Q}
    (h : boostLoop ops n pc m = some m') (k : ℕ) : boostLoop ops (n + k) pc m = some m' := by
  induction n generalizing pc m with
  | zero =>
    simp only [boostLoop] at h
    split at h
    case isTrue hpc =>
      cases h
      cases k with
      | zero => exact if_pos hpc
      | succ k =>
        rw [Nat.zero_add]
        exact if_pos hpc
    case isFalse => cases h
  | succ n ih =>
    rw [Nat.add_right_comm]
    simp only [boostLoop] at h ⊢
    split at h
    case isTrue hpc => rw [if_pos hpc, h]
    case isFalse hpc =>
      rw [if_neg hpc]
      split at h
      case h_1 => cases h
      case h_2 pc' m₁ hs =>
        exact ih h

theorem boostLoop_unique {n n' : ℕ} {pc : BoostPc} {m m₁ m₂ : Mem Q}
    (h₁ : boostLoop ops n pc m = some m₁) (h₂ : boostLoop ops n' pc m = some m₂) : m₁ = m₂ := by
  have h₁' := boostLoop_mono h₁ n'
  rw [Nat.add_comm, boostLoop_mono h₂ n, Option.some_inj] at h₁'
  exact h₁'.symm

end Loop

/-! ### The loop on deques -/

/-- Level `i` moved to the end of queue 0. -/
def drain (m : Mem Deques) (i : Level) : Mem Deques :=
  { m with
    proc := fun r =>
      if r ∈ m.queues i then { m.proc r with queue := 0, tick := 0, inq := true } else m.proc r
    queues := Function.update (Function.update m.queues i []) 0 (m.queues 0 ++ m.queues i) }

/-- Draining moves one process at a time. -/
def drainOne (m : Mem Deques) (i : Level) (p : ProcId) (ps : List ProcId) : Mem Deques :=
  { m with
    proc := Function.update m.proc p { m.proc p with queue := 0, tick := 0, inq := true }
    queues := Function.update (Function.update m.queues i ps) 0 (m.queues 0 ++ [p]) }

theorem drain_cons {m : Mem Deques} {i : Level} {p : ProcId} {ps : List ProcId} (hi : i ≠ 0)
    (hq : m.queues i = p :: ps) : drain m i = drain (drainOne m i p ps) i := by
  have hi' : (drainOne m i p ps).queues i = ps := by simp [drainOne, hi]
  have h0 : (drainOne m i p ps).queues 0 = m.queues 0 ++ [p] := by simp [drainOne]
  unfold drain
  rw [hi', h0, hq]
  congr 1
  · funext r
    by_cases hr : r = p
    · subst hr
      simp [drainOne]
    · simp [drainOne, hr]
  · funext q
    by_cases hq0 : q = 0
    · subst hq0
      simp
    · by_cases hqi : q = i
      · subst hqi
        simp [hq0]
      · simp [drainOne, hq0, hqi]

/-- A `pop` that finds a process and the `push` that follows. -/
theorem boostLoop_cons {m : Mem Deques} {i : Level} {p : ProcId} {ps : List ProcId} (hi : i ≠ 0)
    (hq : m.queues i = p :: ps) (n : ℕ) :
    boostLoop dequeOps (n + 2) (.loop i) m = boostLoop dequeOps n (.loop i) (drainOne m i p ps) := by
  have hlt : (i : ℕ) < 4 := i.isLt
  have h4 : (i : ℕ) ≠ 4 := by omega
  have hpop : m.boostStep dequeOps (.loop i) = some (.popped i p,
      ({ m with queues := Function.update m.queues i ps }.setProc p
        fun x => { x with inq := false }).resetLevel p) := by
    simp only [boostStep, hlt, dif_pos, Fin.eta, pop_deques, hq]
  have hpush : Mem.push dequeOps (({ m with queues := Function.update m.queues i ps }.setProc p
      fun x => { x with inq := false }).resetLevel p) p 0 true = drainOne m i p ps := by
    simp [Mem.push, resetLevel, Mem.setProc, drainOne, dequeOps, hi.symm]
  rw [boostLoop_step (by simp [h4]) hpop, boostLoop_step (by simp) rfl, hpush]

/-- **A level other than 0 is moved to the end of queue 0, in order.** -/
theorem boostLoop_drain {m : Mem Deques} {i : Level} (hi : i ≠ 0) (n : ℕ) :
    boostLoop dequeOps (n + 1 + 2 * (m.queues i).length) (.loop i) m =
      boostLoop dequeOps n (.loop (i + 1)) (drain m i) := by
  have hlt : (i : ℕ) < 4 := i.isLt
  have h4 : (i : ℕ) ≠ 4 := by omega
  generalize hq : m.queues i = xs
  induction xs generalizing m with
  | nil =>
    have hd : drain m i = m := by
      have hu : Function.update m.queues i [] = m.queues := by rw [← hq, Function.update_eq_self]
      simp [drain, hq, hu]
    have hpop : m.boostStep dequeOps (.loop i) = some (.loop (i + 1), m) := by
      simp only [boostStep, hlt, dif_pos, Fin.eta, pop_deques, hq]
    rw [List.length_nil, Nat.mul_zero, Nat.add_zero, boostLoop_step (by simp [h4]) hpop, hd]
  | cons p ps ih =>
    have hfuel : n + 1 + 2 * (p :: ps).length = n + 1 + 2 * ps.length + 2 := by
      rw [List.length_cons]
      omega
    rw [hfuel, boostLoop_cons hi hq, drain_cons hi hq]
    exact ih (by simp [drainOne, hi])

/-- **The loop does not end if queue 0 is not empty**: what it pops from level 0
goes back to level 0. -/
theorem boostLoop_stuck (n : ℕ) :
    (∀ m : Mem Deques, m.queues 0 ≠ [] → boostLoop dequeOps n (.loop 0) m = none) ∧
    (∀ (m : Mem Deques) p, (m.proc p).inq = false →
      boostLoop dequeOps n (.popped 0 p) m = none) := by
  induction n with
  | zero => exact ⟨fun m _ => rfl, fun m p _ => rfl⟩
  | succ n ih =>
    refine ⟨?_, ?_⟩
    · intro m hm
      obtain ⟨p, ps, hq⟩ := List.exists_cons_of_ne_nil hm
      have hpop : m.boostStep dequeOps (.loop 0) = some (.popped 0 p,
          ({ m with queues := Function.update m.queues 0 ps }.setProc p
            fun x => { x with inq := false }).resetLevel p) := by
        have h0 : (⟨0, by decide⟩ : Level) = 0 := rfl
        simp only [boostStep, show 0 < 4 by decide, dif_pos, h0, pop_deques, hq]
      rw [boostLoop_step (by decide) hpop]
      exact ih.2 _ p (by simp [resetLevel, Mem.setProc])
    · intro m p hp
      rw [boostLoop_step (by simp) rfl]
      refine ih.1 _ ?_
      rw [push_deques m p 0 true hp]
      simp

/-- Where the boost loop leaves the memory when it ends. -/
theorem boostLoop_end {m : Mem Deques} (h0 : m.queues 0 = []) :
    ∃ n, boostLoop dequeOps n (.loop 0) m = some (drain (drain (drain m 1) 2) 3) := by
  refine ⟨0 + 1 + 2 * ((drain (drain m 1) 2).queues 3).length + 1 + 2 * ((drain m 1).queues 2).length
    + 1 + 2 * (m.queues 1).length + 1, ?_⟩
  have hstep : m.boostStep dequeOps (.loop 0) = some (.loop 1, m) := by
    have h0' : (⟨0, by decide⟩ : Level) = 0 := rfl
    simp only [boostStep, show 0 < 4 by decide, dif_pos, h0', pop_deques, h0]
  have h₁ := boostLoop_drain (m := m) (i := 1) (by decide)
  have h₂ := boostLoop_drain (m := drain m 1) (i := 2) (by decide)
  have h₃ := boostLoop_drain (m := drain (drain m 1) 2) (i := 3) (by decide)
  rw [boostLoop_step (by decide) hstep]
  refine (h₁ _).trans ((h₂ _).trans ((h₃ 0).trans ?_))
  rfl

/-! ### The loop on rings -/

/-- What holds between the calls of the loop: the process in hand is at level 0
and in no queue. -/
structure LoopOk (m : Mem Deques) (pc : BoostPc) : Prop where
  queues : QueueOk m
  hand : ∀ i p, pc = .popped i p → (m.proc p).inq = false ∧ (m.proc p).queue = 0

theorem LoopOk.step {m m' : Mem Deques} {pc pc' : BoostPc} (h : LoopOk m pc)
    (hs : m.boostStep dequeOps pc = some (pc', m')) : LoopOk m' pc' := by
  obtain ⟨i, rfl, rfl, hp⟩ | ⟨i, pp, m₁, rfl, rfl, hp, rfl⟩ | ⟨i, pp, rfl, rfl, rfl⟩ :=
    boostStep_cases hs
  · obtain ⟨-, rfl⟩ := pop_none_deques hp
    exact ⟨h.queues, by simp⟩
  · have hin : (m₁.proc pp).inq = false := by
      rw [pop_proc hp, if_pos rfl]
    refine ⟨(h.queues.pop hp).1.setProc hin hin, ?_⟩
    intro j p he
    cases he
    rw [resetLevel_proc, if_pos rfl]
    exact ⟨hin, rfl⟩
  · obtain ⟨hi, hq⟩ := h.hand i pp rfl
    exact ⟨h.queues.push true hi hq, by simp⟩

section Rings

variable {m m' : Mem Rings} {d : Deques} {pc : BoostPc} {n : ℕ}

theorem boostLoop_sim (h : Represents m.queues d) (hk : LoopOk (m.withQueues d) pc)
    (hl : boostLoop ringOps n pc m = some m') :
    ∃ d', boostLoop dequeOps n pc (m.withQueues d) = some (m'.withQueues d') ∧
      Represents m'.queues d' := by
  induction n generalizing m d pc with
  | zero =>
    simp only [boostLoop] at hl
    split at hl
    case isTrue hpc =>
      cases hl
      exact ⟨d, if_pos hpc, h⟩
    case isFalse => cases hl
  | succ n ih =>
    simp only [boostLoop] at hl
    split at hl
    case isTrue hpc =>
      cases hl
      exact ⟨d, if_pos hpc, h⟩
    case isFalse hpc =>
      split at hl
      case h_1 => cases hl
      case h_2 pc' m₁ hs =>
        obtain ⟨d₁, hd₁, h₁⟩ := boostStep_sim h hk.queues hs
        rw [boostLoop_step hpc hd₁]
        exact ih h₁ (hk.step hd₁) hl

/-- The loop on rings does not fault. -/
theorem boostStep_total (h : Represents m.queues d) {pc' : BoostPc} {t : Mem Deques}
    (hs : (m.withQueues d).boostStep dequeOps pc = some (pc', t)) :
    ∃ x, m.boostStep ringOps pc = some x := by
  cases pc with
  | popped i pp => exact ⟨_, rfl⟩
  | loop i =>
    simp only [boostStep] at hs ⊢
    split at hs
    case isFalse => cases hs
    case isTrue hi =>
      obtain ⟨o, r', d', hr, -, -, -⟩ := h.popHead ⟨i, hi⟩
      have hr' : ringOps.popHead m.queues ⟨i, hi⟩ = some (o, r') := hr
      rw [dif_pos hi]
      cases o with
      | none =>
        simp only [Mem.pop, hr']
        exact ⟨_, rfl⟩
      | some p =>
        simp only [Mem.pop, hr']
        exact ⟨_, rfl⟩

theorem boostLoop_total (h : Represents m.queues d) (hk : LoopOk (m.withQueues d) pc)
    {t : Mem Deques} (hl : boostLoop dequeOps n pc (m.withQueues d) = some t) :
    ∃ m', boostLoop ringOps n pc m = some m' := by
  induction n generalizing m d pc with
  | zero =>
    simp only [boostLoop] at hl ⊢
    split at hl
    case isTrue hpc => exact ⟨m, if_pos hpc⟩
    case isFalse => cases hl
  | succ n ih =>
    simp only [boostLoop] at hl
    split at hl
    case isTrue hpc => exact ⟨m, if_pos hpc⟩
    case isFalse hpc =>
      split at hl
      case h_1 => cases hl
      case h_2 pc' t₁ hs =>
        obtain ⟨⟨pc₁, m₁⟩, hm₁⟩ := boostStep_total h hs
        obtain ⟨d₁, hd₁, h₁⟩ := boostStep_sim h hk.queues hm₁
        rw [hs, Option.some_inj, Prod.mk.injEq] at hd₁
        obtain ⟨rfl, rfl⟩ := hd₁
        rw [boostLoop_step hpc hm₁]
        exact ih h₁ (hk.step hs) hl

end Rings

/-- The processes in ring `q`, from `head` on. -/
def Rings.contents (r : Rings) (q : Level) : List ProcId :=
  (List.range (r.len q).toNat).filterMap fun i : ℕ =>
    r.mlfqi (Rings.cell q ((r.head q + i) % NPROC))

theorem Represents.contents {r : Rings} {d : Deques} (h : Represents r d) (q : Level) :
    r.contents q = d q := by
  rw [Rings.contents, (h q).len, Int.toNat_natCast]
  exact (h q).slots.eq_filterMap

/-! ### The loop in the kernel -/

section Kernel

variable {Cpu : Type} [DecidableEq Cpu] {s s' : State Cpu Rings} {c : Cpu} {p : ProcId}

/-- A `yield_mlfq` past the boost block does not enter it again. -/
theorem mlfq_none_of_left {n : ℕ} (hm : s.mlfq = none)
    (hp : s.self p = .queued ∨ s.self p = .ready .yield ∨ s.self p = .off)
    (hr : (kernel Cpu ringOps).runFrom s (List.replicate n (.self c p)) = some s') :
    s'.mlfq = none := by
  induction n generalizing s with
  | zero =>
    cases hr
    exact hm
  | succ n ih =>
    rw [List.replicate_succ, Sys.runFrom_cons] at hr
    obtain ⟨s₁, h₁, h₂⟩ := Option.bind_eq_some_iff.mp hr
    simp only [kernel, step] at h₁
    split at h₁
    case isFalse => cases h₁
    case isTrue =>
      rcases hp with hp | hp | hp
      · simp only [selfStep, hp] at h₁
        cases h₁
        refine ih ?_ ?_ h₂
        · exact hm
        · exact .inr (.inl (by simp [State.setSelf]))
      · simp only [selfStep, hp] at h₁
        cases h₁
        refine ih ?_ ?_ h₂
        · exact hm
        · exact .inr (.inr (by simp [State.setSelf]))
      · simp only [selfStep, hp] at h₁
        cases h₁

theorem boosting_step (hc : onCpu s c p = true) (hp : s.self p = .boosting) :
    (kernel Cpu ringOps).step s (.self c p) = boostBlockStep ringOps s p := by
  simp only [kernel, step, hc, if_true, selfStep, hp]

/-- The booster's own steps are the calls of the loop. -/
theorem boostLoop_of_run {n : ℕ} {pc : BoostPc} (hc : onCpu s c p = true)
    (hp : s.self p = .boosting) (hm : s.mlfq = some (p, pc))
    (hr : (kernel Cpu ringOps).runFrom s (List.replicate n (.self c p)) = some s')
    (hm' : s'.mlfq = some (p, .loop 4)) :
    ∃ k, boostLoop ringOps k pc s.mem = some s'.mem := by
  induction n generalizing s pc with
  | zero =>
    rw [List.replicate_zero, Sys.runFrom_nil, Option.some_inj] at hr
    subst hr
    rw [hm] at hm'
    cases hm'
    exact ⟨0, if_pos rfl⟩
  | succ n ih =>
    rw [List.replicate_succ, Sys.runFrom_cons, boosting_step hc hp] at hr
    obtain ⟨s₁, h₁, h₂⟩ := Option.bind_eq_some_iff.mp hr
    simp only [boostBlockStep, hm, if_true] at h₁
    split at h₁
    case isTrue hpc =>
      -- the block is over: no later state is at the end of the loop
      rw [Option.some_inj] at h₁
      subst h₁
      have hnone := mlfq_none_of_left rfl (.inl (by simp [State.setSelf])) h₂
      rw [hm'] at hnone
      cases hnone
    case isFalse hpc =>
      split at h₁
      case h_1 => cases h₁
      case h_2 pc' m hs =>
        rw [Option.some_inj] at h₁
        subst h₁
        obtain ⟨k, hk⟩ := ih (s := { s with mem := m, mlfq := some (p, pc') }) hc hp rfl h₂
        exact ⟨k + 1, (boostLoop_step hpc hs k).trans hk⟩

theorem run_of_boostLoop {n : ℕ} {pc : BoostPc} {m : Mem Rings} (hc : onCpu s c p = true)
    (hp : s.self p = .boosting) (hm : s.mlfq = some (p, pc))
    (hl : boostLoop ringOps n pc s.mem = some m) :
    ∃ k, (kernel Cpu ringOps).runFrom s (List.replicate k (.self c p)) =
      some { s with mem := m, mlfq := some (p, .loop 4) } := by
  have done : pc = .loop 4 → s.mem = m → ∃ k,
      (kernel Cpu ringOps).runFrom s (List.replicate k (.self c p)) =
        some { s with mem := m, mlfq := some (p, .loop 4) } := by
    rintro rfl rfl
    refine ⟨0, ?_⟩
    rw [List.replicate_zero, Sys.runFrom_nil, ← hm]
  induction n generalizing s pc with
  | zero =>
    simp only [boostLoop] at hl
    split at hl
    case isTrue hpc => exact done hpc (Option.some_inj.mp hl)
    case isFalse => cases hl
  | succ n ih =>
    simp only [boostLoop] at hl
    split at hl
    case isTrue hpc => exact done hpc (Option.some_inj.mp hl)
    case isFalse hpc =>
      split at hl
      case h_1 => cases hl
      case h_2 pc' m₁ hs =>
        have hstep : (kernel Cpu ringOps).step s (.self c p) =
            some { s with mem := m₁, mlfq := some (p, pc') } := by
          rw [boosting_step hc hp]
          simp only [boostBlockStep, hm, if_true, if_neg hpc, hs]
        obtain ⟨k, hk⟩ := ih (s := { s with mem := m₁, mlfq := some (p, pc') }) hc hp rfl hl (by
          rintro rfl rfl
          exact ⟨0, rfl⟩)
        refine ⟨k + 1, ?_⟩
        rw [List.replicate_succ, Sys.runFrom_cons, hstep]
        exact hk

/-- What a boost is for, right after its block: every process in use is at
level 0 with no tick used, the other queues are empty, and queue 0 holds what
was in the queues, in order. -/
structure Boosted (p : ProcId) (m m' : Mem Rings) : Prop where
  level : ∀ r, ((m'.boostEnd p).proc r).state ≠ .UNUSED →
    ((m'.boostEnd p).proc r).queue = 0 ∧ ((m'.boostEnd p).proc r).tick = 0
  empty : ∀ q, q ≠ 0 → (m'.boostEnd p).queues.contents q = []
  order : (m'.boostEnd p).queues.contents 0 = m.queues.contents 0 ++ m.queues.contents 1 ++
    m.queues.contents 2 ++ m.queues.contents 3

/-- The boost block of process `p` on CPU `c`, run from `s`, ends and does what
it is for. -/
def BoostCovers (s : State Cpu Rings) (c : Cpu) (p : ProcId) : Prop :=
  ∃ n s', (kernel Cpu ringOps).runFrom s (List.replicate n (.self c p)) = some s' ∧
    s'.mlfq = some (p, .loop 4) ∧ Boosted p s.mem s'.mem

/-- `yield_mlfq` of process `p` on CPU `c` is about to take `mlfq_lock` and finds
a boost due. -/
structure AtBoost (s : State Cpu Rings) (c : Cpu) (p : ProcId) : Prop where
  onCpu : onCpu s c p = true
  self : s.self p = .locked .yield
  mlfq : s.mlfq = none
  due : s.mem.boostDue = true

instance : Decidable (AtBoost s c p) :=
  decidable_of_iff (Mlfq.onCpu s c p = true ∧ s.self p = .locked .yield ∧ s.mlfq = none ∧
    s.mem.boostDue = true)
    ⟨fun ⟨h₁, h₂, h₃, h₄⟩ => ⟨h₁, h₂, h₃, h₄⟩, fun h => ⟨h.onCpu, h.self, h.mlfq, h.due⟩⟩

theorem AtBoost.covers_iff (h : AtBoost s c p) :
    BoostCovers s c p ↔ ∃ n m', boostLoop ringOps n (.loop 0) s.mem = some m' ∧
      Boosted p s.mem m' := by
  have hstep : (kernel Cpu ringOps).step s (.self c p) =
      some ({ s with mlfq := some (p, .loop 0) }.setSelf p .boosting) := by
    simp only [kernel, step, h.onCpu, if_true, selfStep, h.self, h.mlfq, h.due]
  have hc : Mlfq.onCpu ({ s with mlfq := some (p, .loop 0) }.setSelf p .boosting) c p = true :=
    h.onCpu
  have hp : ({ s with mlfq := some (p, .loop 0) }.setSelf p .boosting).self p = .boosting := by
    simp [State.setSelf]
  constructor
  · rintro ⟨n, s', hr, hm', hP⟩
    cases n with
    | zero =>
      rw [List.replicate_zero, Sys.runFrom_nil, Option.some_inj] at hr
      rw [← hr, h.mlfq] at hm'
      cases hm'
    | succ n =>
      rw [List.replicate_succ, Sys.runFrom_cons, hstep, Option.bind_some] at hr
      obtain ⟨k, hk⟩ := boostLoop_of_run hc hp rfl hr hm'
      exact ⟨k, s'.mem, hk, hP⟩
  · rintro ⟨n, m', hl, hP⟩
    obtain ⟨k, hk⟩ := run_of_boostLoop hc hp rfl hl
    have hrun := hk
    rw [← Option.bind_some (f := fun s' => (kernel Cpu ringOps).runFrom s' _), ← hstep,
      ← Sys.runFrom_cons, ← List.replicate_succ] at hrun
    exact ⟨k + 1, _, hrun, rfl, hP⟩

/-! ### When a boost covers everyone -/

/-- The deques after the whole loop. -/
theorem drain_queues (m : Mem Deques) (h0 : m.queues 0 = []) (q : Level) :
    (drain (drain (drain m 1) 2) 3).queues q =
      if q = 0 then m.queues 0 ++ m.queues 1 ++ m.queues 2 ++ m.queues 3 else [] := by
  fin_cases q <;> simp [drain, h0]

theorem drain_proc (m : Mem Deques) (r : ProcId) :
    (drain (drain (drain m 1) 2) 3).proc r =
      if r ∈ m.queues 1 ∨ r ∈ m.queues 2 ∨ r ∈ m.queues 3 then
        { m.proc r with queue := 0, tick := 0, inq := true }
      else m.proc r := by
  have h₂ : (drain m 1).queues 2 = m.queues 2 := by simp [drain]
  have h₃ : (drain (drain m 1) 2).queues 3 = m.queues 3 := by simp [drain]
  have hd : ∀ (m : Mem Deques) i, (drain m i).proc r = if r ∈ m.queues i then
      { m.proc r with queue := 0, tick := 0, inq := true } else m.proc r := fun _ _ => rfl
  rw [hd, h₃, hd, h₂, hd]
  by_cases h1 : r ∈ m.queues 1 <;> by_cases h2 : r ∈ m.queues 2 <;>
    by_cases h3 : r ∈ m.queues 3 <;> simp [h1, h2, h3]

/-- A boost leaves everyone at level 0 when queue 0 is empty and those it does
not find are there already. -/
theorem boosted_iff {m m' : Mem Rings} {d d' : Deques} (h : Represents m.queues d)
    (hQ : QueueOk (m.withQueues d)) (h' : Represents m'.queues d') (h0 : d 0 = [])
    (hm : m'.withQueues d' = drain (drain (drain (m.withQueues d) 1) 2) 3) :
    Boosted p m m' ↔ ∀ r, r ≠ p → (m.proc r).state ≠ .UNUSED → (m.proc r).inq = false →
      (m.proc r).queue = 0 ∧ (m.proc r).tick = 0 := by
  have hq : ∀ q, d' q = if q = 0 then d 0 ++ d 1 ++ d 2 ++ d 3 else [] := by
    intro q
    have := drain_queues (m.withQueues d) h0 q
    rwa [← hm] at this
  have hp : ∀ r, m'.proc r = if r ∈ d 1 ∨ r ∈ d 2 ∨ r ∈ d 3 then
      { m.proc r with queue := 0, tick := 0, inq := true } else m.proc r := by
    intro r
    have := drain_proc (m.withQueues d) r
    rwa [← hm] at this
  have hmem : ∀ r, (m.proc r).inq = true ↔ r ∈ d 1 ∨ r ∈ d 2 ∨ r ∈ d 3 := by
    intro r
    rw [show (m.proc r).inq = ((m.withQueues d).proc r).inq from rfl, hQ.inq_iff r]
    constructor
    · rintro ⟨q, hr⟩
      have hr : r ∈ d q := hr
      fin_cases q
      · exact absurd hr (by simp [h0])
      · exact .inl hr
      · exact .inr (.inl hr)
      · exact .inr (.inr hr)
    · rintro (hr | hr | hr)
      · exact ⟨1, hr⟩
      · exact ⟨2, hr⟩
      · exact ⟨3, hr⟩
  constructor
  · intro hB r hr hu hi
    -- the loops do not touch a process that is in no queue
    have hout : ¬ (r ∈ d 1 ∨ r ∈ d 2 ∨ r ∈ d 3) := by
      rw [← hmem, hi]
      simp
    have hl := hB.level r
    rw [boostEnd_proc, if_neg hr, hp, if_neg hout] at hl
    exact hl hu
  · intro hc
    refine ⟨?_, ?_, ?_⟩
    · intro r hu
      rw [boostEnd_proc] at hu ⊢
      by_cases hr : r = p
      · simp [hr]
      · rw [if_neg hr, hp] at hu ⊢
        -- a process is the booster, or found in a queue, or by the condition there already
        by_cases hin : r ∈ d 1 ∨ r ∈ d 2 ∨ r ∈ d 3
        · simp [hin]
        · rw [if_neg hin] at hu ⊢
          have hi : (m.proc r).inq = false := by
            rw [← hmem] at hin
            simpa using hin
          exact hc r hr hu hi
    · intro q hne
      show m'.queues.contents q = []
      rw [h'.contents, hq, if_neg hne]
    · show m'.queues.contents 0 = _
      rw [h'.contents, hq, if_pos rfl, h.contents, h.contents, h.contents, h.contents]

/-- A boost that ends has found queue 0 empty. -/
theorem Represents.boost_ends {m m' : Mem Rings} {d : Deques} {n : ℕ} (h : Represents m.queues d)
    (hk : LoopOk (m.withQueues d) (.loop 0)) (hl : boostLoop ringOps n (.loop 0) m = some m') :
    d 0 = [] := by
  obtain ⟨d', hl', -⟩ := boostLoop_sim h hk hl
  by_contra hne
  rw [(boostLoop_stuck n).1 (m.withQueues d) hne] at hl'
  cases hl'

/-- **When a boost covers everyone**: in every state that a run without a head
push at index 0 reaches, a boost that is due leaves every process in use at
level 0, and queue 0 with all that was queued, in order, if and only if queue 0
is empty and every process in use that is in no queue, the booster apart, is at
level 0 with no tick used already.  Otherwise the loop does not end, or such a
process keeps its level. -/
theorem boost_covers_iff (h : ((kernel Cpu ringOps).restrict HeadOk).Reachable s)
    (hb : AtBoost s c p) :
    BoostCovers s c p ↔ s.mem.queues.contents 0 = [] ∧
      ∀ r, r ≠ p → (s.mem.proc r).state ≠ .UNUSED → (s.mem.proc r).inq = false →
        (s.mem.proc r).queue = 0 ∧ (s.mem.proc r).tick = 0 := by
  obtain ⟨d, hd, hI⟩ := refines_reachable h
  have hk : LoopOk (s.mem.withQueues d) (.loop 0) := ⟨hI.places.queues, by simp⟩
  rw [hb.covers_iff, hd.contents]
  constructor
  · rintro ⟨n, m', hl, hB⟩
    obtain ⟨d', hl', h'⟩ := boostLoop_sim hd hk hl
    have h0 : d 0 = [] := hd.boost_ends hk hl
    obtain ⟨k, hk'⟩ := boostLoop_end (m := s.mem.withQueues d) h0
    exact ⟨h0, (boosted_iff hd hI.places.queues h' h0 (boostLoop_unique hl' hk')).mp hB⟩
  · rintro ⟨h0, hc⟩
    obtain ⟨n, hn⟩ := boostLoop_end (m := s.mem.withQueues d) h0
    obtain ⟨m', hl⟩ := boostLoop_total hd hk hn
    obtain ⟨d', hl', h'⟩ := boostLoop_sim hd hk hl
    exact ⟨n, m', hl, (boosted_iff hd hI.places.queues h' h0 (boostLoop_unique hl' hn)).mpr hc⟩

end Kernel

/-! ### Two boosts -/

/-- The first process runs on CPU `c`; `acts` happens, then 48 clock ticks, and it
calls `yield_mlfq`. -/
def boostActs {Cpu : Type} (c : Cpu) (acts : List (Act Cpu)) : List (Act Cpu) :=
  userinitActs c ++ takeActs c firstProc ++ acts ++ List.replicate 48 .tick ++ [.call c firstProc .yield]

/-- A process waits at level 1 and another one sleeps at level 0, with no tick used:
the boost of the first one covers everyone. -/
theorem boost_covers_family : ∃ s : State (Fin 8) Rings,
    ((kernel (Fin 8) ringOps).restrict HeadOk).Reachable s ∧ AtBoost s 0 firstProc ∧
      s.mem.queues.contents 1 = [secondProc] ∧ (s.mem.proc thirdProc).state = .SLEEPING ∧
      BoostCovers s 0 firstProc := by
  obtain ⟨s, hr, hb, hone, hsleep, h₀, hu⟩ := Sys.exists_of_run
    ((kernel (Fin 8) ringOps).restrict HeadOk) (boostActs 0 (familyActs 0)) (s := boot ringOps)
    (p := fun s => AtBoost s 0 firstProc ∧ s.mem.queues.contents 1 = [secondProc] ∧
      (s.mem.proc thirdProc).state = .SLEEPING ∧ s.mem.queues.contents 0 = [] ∧
      ∀ r, r ≠ firstProc → (s.mem.proc r).state ≠ .UNUSED → (s.mem.proc r).inq = false →
        (s.mem.proc r).queue = 0 ∧ (s.mem.proc r).tick = 0) (.init rfl) (by decide +kernel)
  exact ⟨s, hr, hb, hone, hsleep, (boost_covers_iff hr hb).mpr ⟨h₀, hu⟩⟩

/-- The first process forks: its child is in queue 0, and the boost loop does not
end. -/
theorem boost_never_ends : ∃ s : State (Fin 8) Rings,
    ((kernel (Fin 8) ringOps).restrict HeadOk).Reachable s ∧ AtBoost s 0 firstProc ∧
      ¬ BoostCovers s 0 firstProc := by
  have hrun : (((kernel (Fin 8) ringOps).restrict HeadOk).runFrom (boot ringOps)
      (boostActs 0 (forkActs 0 firstProc 1))).map
      (fun s => decide (AtBoost s 0 firstProc ∧ s.mem.queues.contents 0 ≠ [])) = some true := by
    decide +kernel
  obtain ⟨s, hs, hv⟩ := Option.map_eq_some_iff.mp hrun
  obtain ⟨hb, h₀⟩ := of_decide_eq_true hv
  have hr := Sys.reachable_runFrom ((kernel (Fin 8) ringOps).restrict HeadOk) (.init rfl) hs
  refine ⟨s, hr, hb, fun hC => h₀ ?_⟩
  obtain ⟨d, hd, hI⟩ := refines_reachable hr
  obtain ⟨n, m', hl, -⟩ := hb.covers_iff.mp hC
  rw [hd.contents]
  exact hd.boost_ends ⟨hI.places.queues, by simp⟩ hl

end Mlfq
