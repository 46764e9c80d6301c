/-
When `yield_mlfq` gets past its boost loop.

The loop pops the levels in order and pushes what it pops to queue 0.  A level
other than 0 gets shorter at each pass; level 0 gets back what it lost, so its
counter is the same after each pass and is never found to be 0.

* `boostLoop_len_stuck` — whatever the rings hold, the loop does not end if
  `len[0]` is not 0;
* `yield_completes_iff` — exactly when `yield_mlfq` reaches the end of its
  section and releases `mlfq_lock`.
-/
import CshellXv6.Mlfq.Boost

namespace Mlfq

open Mem

/-! ### The counter of queue 0 -/

/-- A `pop` that finds a process takes one off the counter. -/
theorem pop_len {m m' : Mem Rings} {q : Level} {p : ProcId}
    (h : m.pop ringOps q = some (some p, m')) :
    m.queues.len q ≠ 0 ∧ m'.queues.len q = m.queues.len q - 1 ∧ (m'.proc p).inq = false := by
  simp only [Mem.pop, ringOps, Rings.popHead] at h
  by_cases hl : m.queues.len q = 0
  · rw [if_pos hl] at h
    cases h
  · rw [if_neg hl] at h
    cases hs : m.queues.mlfqi (Rings.cell q (m.queues.head q)) with
    | none =>
      rw [hs] at h
      cases h
    | some r =>
      rw [hs] at h
      cases h
      exact ⟨hl, by simp [Mem.setProc], by simp [Mem.setProc]⟩

/-- A `pop` that answers null has found the counter at 0. -/
theorem pop_none_len {m m' : Mem Rings} {q : Level} (h : m.pop ringOps q = some (none, m')) :
    m.queues.len q = 0 := by
  simp only [Mem.pop, ringOps, Rings.popHead] at h
  by_contra hl
  rw [if_neg hl] at h
  cases hs : m.queues.mlfqi (Rings.cell q (m.queues.head q)) with
  | none =>
    rw [hs] at h
    cases h
  | some r =>
    rw [hs] at h
    cases h

theorem push_len {m : Mem Rings} {p : ProcId} {q : Level} (h : (m.proc p).inq = false) :
    (m.push ringOps p q true).queues.len q = m.queues.len q + 1 := by
  simp [Mem.push, h, ringOps, Rings.pushTail, Mem.setProc]

/-- **The loop does not end if `len[0]` is not 0**, whatever the rings hold: a
pass over level 0 leaves the counter as it was. -/
theorem boostLoop_len_stuck (n : ℕ) :
    (∀ m : Mem Rings, m.queues.len 0 ≠ 0 → boostLoop ringOps n (.loop 0) m = none) ∧
    (∀ (m : Mem Rings) p, m.queues.len 0 + 1 ≠ 0 → (m.proc p).inq = false →
      boostLoop ringOps n (.popped 0 p) m = none) := by
  induction n with
  | zero => exact ⟨fun m _ => rfl, fun m p _ _ => rfl⟩
  | succ n ih =>
    obtain ⟨ih_loop, ih_popped⟩ := ih
    refine ⟨?_, ?_⟩
    · intro m hm
      -- at the head of the loop: `pop` finds a process, as the counter is not 0
      rw [boostLoop, if_neg (by decide)]
      cases hs : m.boostStep ringOps (.loop 0) with
      | none => rfl
      | some x =>
        obtain ⟨pc', m'⟩ := x
        obtain ⟨i, hpc, -, hp⟩ | ⟨i, pp, m₁, hpc, rfl, hp, rfl⟩ | ⟨i, pp, hpc, -, -⟩ :=
          boostStep_cases hs
        · cases i using Fin.cases with
          | zero => exact absurd (pop_none_len hp) hm
          | succ j =>
            have : (0 : ℕ) = (j.succ : Level) := by injection hpc
            simp at this
        · cases i using Fin.cases with
          | zero =>
            obtain ⟨-, hlen, hin⟩ := pop_len hp
            refine ih_popped _ pp ?_ ?_
            · show m₁.queues.len 0 + 1 ≠ 0
              rw [hlen]
              omega
            · rw [resetLevel_proc, if_pos rfl]
              exact hin
          | succ j =>
            have : (0 : ℕ) = (j.succ : Level) := by injection hpc
            simp at this
        · cases hpc
    · intro m p hm hp
      -- with the process in hand: the push to queue 0 restores the counter
      rw [boostLoop_step (by simp) rfl]
      refine ih_loop _ ?_
      rw [push_len hp]
      exact hm

/-! ### `yield_mlfq` in the kernel -/

section Kernel

variable {Cpu : Type} [DecidableEq Cpu] {s s' : State Cpu Rings} {c : Cpu} {p : ProcId}

/-- `yield_mlfq` of process `p` on CPU `c` is about to take `mlfq_lock`. -/
structure AtYield (s : State Cpu Rings) (c : Cpu) (p : ProcId) : Prop where
  onCpu : onCpu s c p = true
  self : s.self p = .locked .yield
  mlfq : s.mlfq = none

instance : Decidable (AtYield s c p) :=
  decidable_of_iff (Mlfq.onCpu s c p = true ∧ s.self p = .locked .yield ∧ s.mlfq = none)
    ⟨fun ⟨h₁, h₂, h₃⟩ => ⟨h₁, h₂, h₃⟩, fun h => ⟨h.onCpu, h.self, h.mlfq⟩⟩

/-- The section of `yield_mlfq` under `mlfq_lock`, run by process `p` on CPU `c`
from `s`, gets through its boost loop and its tick accounting and releases the
lock. -/
def YieldCompletes (s : State Cpu Rings) (c : Cpu) (p : ProcId) : Prop :=
  ∃ n s', (kernel Cpu ringOps).runFrom s (List.replicate n (.self c p)) = some s' ∧
    s'.self p = .queued ∧ s'.mlfq = none

/-- A booster whose loop does not end stays in the loop. -/
theorem boosting_of_run {n : ℕ} {pc : BoostPc} (hc : onCpu s c p = true)
    (hp : s.self p = .boosting) (hm : s.mlfq = some (p, pc))
    (hl : ∀ k, boostLoop ringOps k pc s.mem = none)
    (hr : (kernel Cpu ringOps).runFrom s (List.replicate n (.self c p)) = some s') :
    s'.self p = .boosting := by
  induction n generalizing s pc with
  | zero =>
    rw [List.replicate_zero, Sys.runFrom_nil, Option.some_inj] at hr
    rw [← hr]
    exact hp
  | succ n ih =>
    rw [List.replicate_succ, Sys.runFrom_cons, boosting_step hc hp] at hr
    obtain ⟨s₁, h₁, h₂⟩ := Option.bind_eq_some_iff.mp hr
    simp only [boostBlockStep, hm, if_true] at h₁
    split at h₁
    case isTrue hpc =>
      have h0 := hl 0
      rw [boostLoop, if_pos hpc] at h0
      cases h0
    case isFalse hpc =>
      split at h₁
      case h_1 => cases h₁
      case h_2 pc' m hs =>
        rw [Option.some_inj] at h₁
        subst h₁
        refine ih (s := { s with mem := m, mlfq := some (p, pc') }) hc hp rfl ?_ h₂
        intro k
        rw [← boostLoop_step hpc hs k]
        exact hl (k + 1)

/-- The state of a `yield_mlfq` that has found a boost due. -/
def boostStart (s : State Cpu Rings) (p : ProcId) : State Cpu Rings :=
  { s with mlfq := some (p, .loop 0) }.setSelf p .boosting

theorem AtYield.step_due (h : AtYield s c p) (hd : s.mem.boostDue = true) :
    (kernel Cpu ringOps).step s (.self c p) = some (boostStart s p) := by
  simp only [kernel, step, h.onCpu, if_true, selfStep, h.self, h.mlfq, hd, boostStart]

omit [DecidableEq Cpu] in
theorem boostStart_self : (boostStart s p).self p = .boosting := by
  simp [boostStart, State.setSelf]

/-- Without a boost due there is no loop. -/
theorem AtYield.completes_of_not_due (h : AtYield s c p) (hd : s.mem.boostDue = false) :
    YieldCompletes s c p := by
  have hstep : (kernel Cpu ringOps).step s (.self c p) =
      some ({ s with mem := s.mem.account ringOps p }.setSelf p .queued) := by
    simp only [kernel, step, h.onCpu, if_true, selfStep, h.self, h.mlfq, hd]
    rfl
  refine ⟨1, { s with mem := s.mem.account ringOps p }.setSelf p .queued, ?_, ?_, ?_⟩
  · rw [List.replicate_one, Sys.runFrom_cons, hstep]
    rfl
  · simp [State.setSelf]
  · exact h.mlfq

/-- The end of the section: the accounting and the release. -/
theorem boosting_last (hc : onCpu s c p = true) (hp : s.self p = .boosting)
    (hm : s.mlfq = some (p, .loop 4)) :
    (kernel Cpu ringOps).step s (.self c p) = some ({ s with
      mem := (s.mem.boostEnd p).account ringOps p, mlfq := none }.setSelf p .queued) := by
  rw [boosting_step hc hp]
  simp only [boostBlockStep, hm, if_true]

/-- A boost loop that ends is followed by the accounting and the release. -/
theorem AtYield.completes_of_loop {n : ℕ} {m : Mem Rings} (h : AtYield s c p)
    (hd : s.mem.boostDue = true) (hl : boostLoop ringOps n (.loop 0) s.mem = some m) :
    YieldCompletes s c p := by
  have hc : Mlfq.onCpu (boostStart s p) c p = true := h.onCpu
  obtain ⟨k, hk⟩ := run_of_boostLoop hc boostStart_self rfl hl
  obtain ⟨t, ht, hcpu, hself, hlock⟩ : ∃ t,
      (kernel Cpu ringOps).runFrom (boostStart s p) (List.replicate k (.self c p)) = some t ∧
      Mlfq.onCpu t c p = true ∧ t.self p = .boosting ∧ t.mlfq = some (p, .loop 4) :=
    ⟨_, hk, hc, boostStart_self, rfl⟩
  have hrun : (kernel Cpu ringOps).runFrom s (List.replicate (k + 1 + 1) (.self c p)) =
      some ({ t with mem := (t.mem.boostEnd p).account ringOps p, mlfq := none }.setSelf
        p .queued) := by
    rw [List.replicate_succ, Sys.runFrom_cons, h.step_due hd, Option.bind_some,
      List.replicate_succ', Sys.runFrom_append, ht, Option.bind_some, Sys.runFrom_cons,
      boosting_last hcpu hself hlock, Option.bind_some, Sys.runFrom_nil]
  exact ⟨k + 1 + 1, _, hrun, by simp [State.setSelf], rfl⟩

/-- **With a boost due and `len[0]` not 0, `yield_mlfq` never gets past the
loop**, in any state: it keeps `mlfq_lock` for ever, or faults. -/
theorem AtYield.hangs (h : AtYield s c p) (hd : s.mem.boostDue = true)
    (hl : s.mem.queues.len 0 ≠ 0) : ¬ YieldCompletes s c p := by
  rintro ⟨n, s', hr, hq, -⟩
  cases n with
  | zero =>
    rw [List.replicate_zero, Sys.runFrom_nil, Option.some_inj] at hr
    rw [← hr, h.self] at hq
    cases hq
  | succ n =>
    rw [List.replicate_succ, Sys.runFrom_cons, h.step_due hd, Option.bind_some] at hr
    have hc : Mlfq.onCpu (boostStart s p) c p = true := h.onCpu
    have hb := boosting_of_run hc boostStart_self rfl
      (fun k => (boostLoop_len_stuck k).1 s.mem hl) hr
    rw [hb] at hq
    cases hq

/-- **When `yield_mlfq` completes**: in every state that a run without a head push
at index 0 reaches, and for every process about to enter the section, the boost
loop ends and `mlfq_lock` is released if and only if no boost is due or queue 0
is empty. -/
theorem yield_completes_iff (h : ((kernel Cpu ringOps).restrict HeadOk).Reachable s)
    (hy : AtYield s c p) :
    YieldCompletes s c p ↔ (s.mem.boostDue = true → s.mem.queues.len 0 = 0) := by
  constructor
  · intro hC hd
    by_contra hl
    exact hy.hangs hd hl hC
  · intro hcond
    by_cases hd : s.mem.boostDue = true
    · -- the loop ends over the deques, and the rings follow them
      obtain ⟨d, hrep, hI⟩ := refines_reachable h
      have h0 : d 0 = [] := by
        have hlen := (hrep 0).len
        rw [hcond hd] at hlen
        exact List.length_eq_zero_iff.mp (by omega)
      have hk : LoopOk (s.mem.withQueues d) (.loop 0) := ⟨hI.places.queues, by simp⟩
      obtain ⟨n, hn⟩ := boostLoop_end (m := s.mem.withQueues d) h0
      obtain ⟨m', hl⟩ := boostLoop_total hrep hk hn
      exact hy.completes_of_loop hd hl
    · exact hy.completes_of_not_due (by simpa using hd)

/-- A process waits at level 1 and another one sleeps when the boost of the first
one is due: queue 0 is empty and the section is left. -/
theorem yield_completes_family : ∃ s : State (Fin 8) Rings,
    ((kernel (Fin 8) ringOps).restrict HeadOk).Reachable s ∧ AtYield s 0 firstProc ∧
      s.mem.boostDue = true ∧ s.mem.queues.contents 1 = [secondProc] ∧
      YieldCompletes s 0 firstProc := by
  obtain ⟨s, hr, hy, hd, hone, hl⟩ := Sys.exists_of_run ((kernel (Fin 8) ringOps).restrict HeadOk)
    (boostActs 0 (familyActs 0)) (s := boot ringOps) (p := fun s => AtYield s 0 firstProc ∧
      s.mem.boostDue = true ∧ s.mem.queues.contents 1 = [secondProc] ∧ s.mem.queues.len 0 = 0)
    (.init rfl) (by decide +kernel)
  exact ⟨s, hr, hy, hd, hone, (yield_completes_iff hr hy).mpr fun _ => hl⟩

/-- The first process has forked and its child waits in queue 0 when the boost
is due: the section is never left. -/
theorem yield_hangs_with_child : ∃ s : State (Fin 8) Rings,
    (kernel (Fin 8) ringOps).Reachable s ∧ AtYield s 0 firstProc ∧
      ¬ YieldCompletes s 0 firstProc := by
  obtain ⟨s, hr, hy, hd, hl⟩ := Sys.exists_of_run (kernel (Fin 8) ringOps)
    (boostActs 0 (forkActs 0 firstProc 1)) (s := boot ringOps)
    (p := fun s => AtYield s 0 firstProc ∧ s.mem.boostDue = true ∧ s.mem.queues.len 0 ≠ 0)
    (.init rfl) (by decide +kernel)
  exact ⟨s, hr, hy, hy.hangs hd hl⟩

end Kernel

end Mlfq
