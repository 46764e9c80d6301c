/-
What `push`, `pop` and the pieces of `yield_mlfq` do, field by field.

The first part holds for any queues: none of these functions touches the
state of a process, only `boostStep` and `account` touch levels and ticks, and
`inq` moves exactly with the calls that take effect.  The second part is about
the queues as deques: `QueueOk` — the flag `inq`, the field `queue` and the
contents of the four queues agree — is kept by every operation the kernel
performs.
-/
import CshellXv6.Mlfq.Moves
import Mathlib.Data.List.Nodup
import Mathlib.Tactic.FinCases

namespace Mlfq

namespace Mem

variable {Q : Type} {ops : QueueOps Q}

theorem setProc_proc (m : Mem Q) (p r : ProcId) (f : Proc → Proc) :
    (m.setProc p f).proc r = if r = p then f (m.proc p) else m.proc r := by
  simp [setProc, Function.update_apply]

@[simp] theorem setProc_queues (m : Mem Q) (p : ProcId) (f : Proc → Proc) :
    (m.setProc p f).queues = m.queues := rfl

/-! ### Field by field -/

/-- `push` changes no field of a process but `inq`. -/
theorem push_proc (m : Mem Q) (p : ProcId) (q : Level) (t : Bool) (r : ProcId) :
    (m.push ops p q t).proc r =
      if r = p then { m.proc p with inq := true } else m.proc r := by
  unfold push
  split
  case isTrue h =>
    split
    · subst r
      rw [← h]
    · rfl
  case isFalse => exact setProc_proc _ _ _ _

/-- A `push` that takes effect. -/
theorem push_queues (m : Mem Q) (p : ProcId) (q : Level) (t : Bool)
    (h : (m.proc p).inq = false) : (m.push ops p q t).queues =
      if t then ops.pushTail m.queues q p else ops.pushHead m.queues q p := by
  simp [push, h]

/-- A `pop` that yields a process changes no field but the `inq` of that
process. -/
theorem pop_proc {m m' : Mem Q} {q : Level} {p : ProcId}
    (h : m.pop ops q = some (some p, m')) (r : ProcId) :
    m'.proc r = if r = p then { m.proc p with inq := false } else m.proc r := by
  unfold pop at h
  split at h
  · cases h
  · cases h
  · cases h
    exact setProc_proc _ _ _ _

theorem pop_none_proc {m m' : Mem Q} {q : Level} (h : m.pop ops q = some (none, m')) :
    m'.proc = m.proc := by
  unfold pop at h
  split at h
  · cases h
  · cases h
    rfl
  · cases h

theorem resetLevel_proc (m : Mem Q) (p r : ProcId) : (m.resetLevel p).proc r =
    if r = p then { m.proc p with queue := 0, tick := 0 } else m.proc r :=
  setProc_proc _ _ _ _

theorem boostEnd_proc (m : Mem Q) (p r : ProcId) : (m.boostEnd p).proc r =
    if r = p then { m.proc p with queue := 0, tick := 0 } else m.proc r :=
  resetLevel_proc m p r

/-- The level and the tick count `account` leaves behind. -/
def nextLevel (x : Proc) : Level × ℕ :=
  if slice x.queue ≤ x.tick + 1 then (demote x.queue, 0) else (x.queue, x.tick + 1)

/-- A process after it has accounted for one more tick. -/
def ticked (x : Proc) : Proc :=
  { x with queue := (nextLevel x).1, tick := (nextLevel x).2 }

/-- `account` writes the two fields and makes one push: at the tail when the
slice is over, at the head otherwise. -/
theorem account_eq (m : Mem Q) (p : ProcId) : m.account ops p =
    (m.setProc p ticked).push ops p (nextLevel (m.proc p)).1
      (decide (slice (m.proc p).queue ≤ (m.proc p).tick + 1)) := by
  unfold account
  by_cases h : slice (m.proc p).queue ≤ (m.proc p).tick + 1
  · simp [Mem.setProc, ticked, nextLevel, h]
  · simp [Mem.setProc, ticked, nextLevel, h]

theorem account_proc (m : Mem Q) (p r : ProcId) : (m.account ops p).proc r =
    if r = p then
      { m.proc p with queue := (nextLevel (m.proc p)).1, tick := (nextLevel (m.proc p)).2,
                      inq := true }
    else m.proc r := by
  rw [account_eq, push_proc, setProc_proc, setProc_proc]
  split
  · rw [if_pos rfl]
    rfl
  · rfl

/-- The loop of the scheduler ends with one `pop` that yields a process, after
pops that yield none. -/
theorem popFirst_some {m m' : Mem Q} {is : List Level} {p : ProcId}
    (h : m.popFirst ops is = some (some p, m')) :
    ∃ (q : Level) (m₁ : Mem Q), m₁.proc = m.proc ∧ m₁.pop ops q = some (some p, m') := by
  induction is generalizing m with
  | nil => simp [popFirst] at h
  | cons i is ih =>
    simp only [popFirst] at h
    split at h
    case h_1 => cases h
    case h_2 p' m₁ hp =>
      cases h
      exact ⟨i, m, rfl, hp⟩
    case h_3 m₁ hp =>
      obtain ⟨q, m₂, h₂, h₃⟩ := ih h
      exact ⟨q, m₂, h₂.trans (pop_none_proc hp), h₃⟩

theorem popFirst_none_proc {m m' : Mem Q} {is : List Level}
    (h : m.popFirst ops is = some (none, m')) : m'.proc = m.proc := by
  induction is generalizing m with
  | nil =>
    simp only [popFirst, Option.some_inj, Prod.mk.injEq, true_and] at h
    rw [h]
  | cons i is ih =>
    simp only [popFirst] at h
    split at h
    case h_1 => cases h
    case h_2 => cases h
    case h_3 m₁ hp => rw [ih h, pop_none_proc hp]

/-! None of these functions writes a state. -/

@[simp] theorem push_state (m : Mem Q) (p : ProcId) (q : Level) (t : Bool) (r : ProcId) :
    ((m.push ops p q t).proc r).state = (m.proc r).state := by
  rw [push_proc]
  split
  · subst r; rfl
  · rfl

theorem pop_state {m m' : Mem Q} {q : Level} {o : Option ProcId}
    (h : m.pop ops q = some (o, m')) (r : ProcId) :
    (m'.proc r).state = (m.proc r).state := by
  cases o with
  | none => rw [pop_none_proc h]
  | some p =>
    rw [pop_proc h]
    split
    · subst r; rfl
    · rfl

theorem popFirst_state {m m' : Mem Q} {is : List Level} {o : Option ProcId}
    (h : m.popFirst ops is = some (o, m')) (r : ProcId) :
    (m'.proc r).state = (m.proc r).state := by
  cases o with
  | none => rw [popFirst_none_proc h]
  | some p =>
    obtain ⟨q, m₁, h₁, h₂⟩ := popFirst_some h
    rw [pop_state h₂, h₁]

@[simp] theorem resetLevel_state (m : Mem Q) (p r : ProcId) :
    ((m.resetLevel p).proc r).state = (m.proc r).state := by
  rw [resetLevel_proc]
  split
  · subst r; rfl
  · rfl

@[simp] theorem boostEnd_state (m : Mem Q) (p r : ProcId) :
    ((m.boostEnd p).proc r).state = (m.proc r).state :=
  resetLevel_state m p r

@[simp] theorem account_state (m : Mem Q) (p r : ProcId) :
    ((m.account ops p).proc r).state = (m.proc r).state := by
  rw [account_proc]
  split
  · subst r; rfl
  · rfl

/-! What they do to `inq`. -/

theorem push_inq (m : Mem Q) (p : ProcId) (q : Level) (t : Bool) (r : ProcId) :
    ((m.push ops p q t).proc r).inq = if r = p then true else (m.proc r).inq := by
  rw [push_proc]
  split <;> rfl

theorem account_inq (m : Mem Q) (p r : ProcId) :
    ((m.account ops p).proc r).inq = if r = p then true else (m.proc r).inq := by
  rw [account_proc]
  split <;> rfl

theorem boostEnd_inq (m : Mem Q) (p r : ProcId) :
    ((m.boostEnd p).proc r).inq = (m.proc r).inq := by
  rw [boostEnd_proc]
  split
  · subst r; rfl
  · rfl

theorem popFirst_inq {m m' : Mem Q} {is : List Level} {p : ProcId}
    (h : m.popFirst ops is = some (some p, m')) (r : ProcId) :
    (m'.proc r).inq = if r = p then false else (m.proc r).inq := by
  obtain ⟨q, m₁, h₁, h₂⟩ := popFirst_some h
  rw [pop_proc h₂, h₁]
  split <;> rfl

theorem popFirst_queue {m m' : Mem Q} {is : List Level} {o : Option ProcId}
    (h : m.popFirst ops is = some (o, m')) (r : ProcId) :
    (m'.proc r).queue = (m.proc r).queue := by
  cases o with
  | none => rw [popFirst_none_proc h]
  | some p =>
    obtain ⟨q, m₁, h₁, h₂⟩ := popFirst_some h
    rw [pop_proc h₂, h₁]
    split
    · subst r; rfl
    · rfl

@[simp] theorem push_queue (m : Mem Q) (p : ProcId) (q : Level) (t : Bool) (r : ProcId) :
    ((m.push ops p q t).proc r).queue = (m.proc r).queue := by
  rw [push_proc]
  split
  · subst r; rfl
  · rfl

/-- `account` moves only the level of the process that yields. -/
theorem account_queue {m : Mem Q} {p r : ProcId} (h : r ≠ p) :
    ((m.account ops p).proc r).queue = (m.proc r).queue := by
  rw [account_proc, if_neg h]

theorem boostEnd_queue {m : Mem Q} {p r : ProcId} (h : r ≠ p) :
    ((m.boostEnd p).proc r).queue = (m.proc r).queue := by
  rw [boostEnd_proc, if_neg h]

/-- One call of the boost loop: a `pop` that finds the level empty, a `pop`
followed by the reset of the process popped, or a `push`. -/
theorem boostStep_cases {m m' : Mem Q} {pc pc' : BoostPc}
    (h : m.boostStep ops pc = some (pc', m')) :
    (∃ (i : Level), pc = .loop i ∧ pc' = .loop (i + 1) ∧ m.pop ops i = some (none, m')) ∨
    (∃ (i : Level) (pp : ProcId) (m₁ : Mem Q), pc = .loop i ∧ pc' = .popped i pp ∧
      m.pop ops i = some (some pp, m₁) ∧ m' = m₁.resetLevel pp) ∨
    (∃ i pp, pc = .popped i pp ∧ pc' = .loop i ∧ m' = m.push ops pp 0 true) := by
  cases pc with
  | loop i =>
    simp only [boostStep] at h
    split at h
    case isFalse => cases h
    case isTrue hi =>
      split at h
      case h_1 => cases h
      case h_2 m₁ hp =>
        cases h
        exact .inl ⟨⟨i, hi⟩, rfl, rfl, hp⟩
      case h_3 pp m₁ hp =>
        cases h
        exact .inr (.inl ⟨⟨i, hi⟩, pp, m₁, rfl, rfl, hp, rfl⟩)
  | popped i pp =>
    simp only [boostStep, Option.some_inj, Prod.mk.injEq] at h
    exact .inr (.inr ⟨i, pp, rfl, h.1.symm, h.2.symm⟩)

/-- The boost loop only ever lowers a level to 0. -/
theorem boostStep_queue {m m' : Mem Q} {pc pc' : BoostPc}
    (h : m.boostStep ops pc = some (pc', m')) (r : ProcId) (hr : (m.proc r).queue = 0) :
    (m'.proc r).queue = 0 := by
  obtain ⟨i, -, -, hp⟩ | ⟨i, pp, m₁, -, -, hp, rfl⟩ | ⟨i, pp, -, -, rfl⟩ := boostStep_cases h
  · rw [pop_none_proc hp, hr]
  · rw [resetLevel_proc]
    split
    · rfl
    · rename_i hne
      rw [pop_proc hp, if_neg hne, hr]
  · rw [push_queue, hr]

/-- What one call of the boost loop does to `inq`: the process popped leaves
its queue, the one in hand goes back into one. -/
theorem boostStep_inq {m m' : Mem Q} {pc pc' : BoostPc}
    (h : m.boostStep ops pc = some (pc', m')) (r : ProcId) :
    (∃ i, pc = .popped i r ∧ pc' = .loop i ∧ (m'.proc r).inq = true) ∨
    (∃ i, pc = .loop i ∧ pc' = .popped i r ∧ (m'.proc r).inq = false ∧
      (m'.proc r).queue = 0) ∨
    (∀ i, pc ≠ .popped i r) ∧ (∀ i, pc' ≠ .popped i r) ∧
      (m'.proc r).inq = (m.proc r).inq := by
  obtain ⟨i, rfl, rfl, hp⟩ | ⟨i, pp, m₁, rfl, rfl, hp, rfl⟩ | ⟨i, pp, rfl, rfl, rfl⟩ :=
    boostStep_cases h
  · exact .inr (.inr ⟨by simp, by simp, by rw [pop_none_proc hp]⟩)
  · by_cases hr : r = pp
    · subst hr
      refine .inr (.inl ⟨i, rfl, rfl, ?_, ?_⟩)
      · rw [resetLevel_proc, if_pos rfl, pop_proc hp, if_pos rfl]
      · rw [resetLevel_proc, if_pos rfl]
    · refine .inr (.inr ⟨by simp, by simp [Ne.symm hr], ?_⟩)
      rw [resetLevel_proc, if_neg hr, pop_proc hp, if_neg hr]
  · by_cases hr : r = pp
    · subst hr
      exact .inl ⟨i, rfl, rfl, by rw [push_inq, if_pos rfl]⟩
    · exact .inr (.inr ⟨by simp [Ne.symm hr], by simp, by rw [push_inq, if_neg hr]⟩)

theorem boostStep_state {m m' : Mem Q} {pc pc' : BoostPc}
    (h : m.boostStep ops pc = some (pc', m')) (r : ProcId) :
    (m'.proc r).state = (m.proc r).state := by
  obtain ⟨i, -, -, hp⟩ | ⟨i, pp, m₁, -, -, hp, rfl⟩ | ⟨i, pp, -, -, rfl⟩ := boostStep_cases h
  · exact pop_state hp r
  · rw [resetLevel_state, pop_state hp]
  · exact push_state _ _ _ _ r

end Mem

/-! ### The queues as deques -/

open Mem

/-- The flag `inq`, the field `queue` and the contents of the queues agree. -/
structure QueueOk (m : Mem Deques) : Prop where
  inq_iff : ∀ p, (m.proc p).inq = true ↔ ∃ q, p ∈ m.queues q
  level : ∀ p q, p ∈ m.queues q → (m.proc p).queue = q
  nodup : ∀ q, (m.queues q).Nodup

theorem QueueOk.same {m m' : Mem Deques} (h : QueueOk m) (hs : m.Same m') : QueueOk m' := by
  refine ⟨?_, ?_, ?_⟩
  · intro p
    rw [hs.inq, hs.queues]
    exact h.inq_iff p
  · intro p q hp
    rw [hs.queue]
    exact h.level p q (hs.queues ▸ hp)
  · intro q
    rw [hs.queues]
    exact h.nodup q

/-- An entry of a process in no queue can be rewritten. -/
theorem QueueOk.setProc {m : Mem Deques} (h : QueueOk m) {p : ProcId} {f : Proc → Proc}
    (hp : (m.proc p).inq = false) (hf : (f (m.proc p)).inq = false) :
    QueueOk (m.setProc p f) := by
  have hout : ∀ q, p ∉ m.queues q := by
    intro q hq
    have := (h.inq_iff p).mpr ⟨q, hq⟩
    rw [hp] at this
    cases this
  refine ⟨?_, ?_, h.nodup⟩
  · intro r
    rw [setProc_proc]
    split
    case isTrue hr =>
      subst hr
      simp [hf, hout]
    case isFalse => exact h.inq_iff r
  · intro r q hr
    rw [setProc_proc]
    split
    case isTrue hrp =>
      subst hrp
      exact absurd hr (hout q)
    case isFalse => exact h.level r q hr

/-- Rewriting an entry outside `inq` and `queue` changes nothing. -/
theorem QueueOk.setOther {m : Mem Deques} (h : QueueOk m) {p : ProcId} {f : Proc → Proc}
    (hq : (f (m.proc p)).queue = (m.proc p).queue) (hi : (f (m.proc p)).inq = (m.proc p).inq) :
    QueueOk (m.setProc p f) := by
  refine ⟨?_, ?_, h.nodup⟩
  · intro r
    rw [setProc_proc]
    split
    case isTrue hr =>
      subst hr
      rw [hi]
      exact h.inq_iff r
    case isFalse => exact h.inq_iff r
  · intro r q hr
    rw [setProc_proc]
    split
    case isTrue hrp =>
      subst hrp
      rw [hq]
      exact h.level r q hr
    case isFalse => exact h.level r q hr

/-- The queues after a `push` that takes effect. -/
theorem push_deques (m : Mem Deques) (p : ProcId) (q : Level) (t : Bool)
    (hp : (m.proc p).inq = false) (q' : Level) :
    (m.push dequeOps p q t).queues q' =
      if q' = q then (if t then m.queues q ++ [p] else p :: m.queues q) else m.queues q' := by
  rw [push_queues m p q t hp]
  cases t <;> simp [dequeOps, Function.update_apply]

theorem mem_push_deques {m : Mem Deques} {p : ProcId} {q : Level} {t : Bool}
    (hp : (m.proc p).inq = false) {r : ProcId} {q' : Level} :
    r ∈ (m.push dequeOps p q t).queues q' ↔ r ∈ m.queues q' ∨ q' = q ∧ r = p := by
  rw [push_deques m p q t hp]
  by_cases hq : q' = q
  · subst hq
    cases t <;> simp [or_comm]
  · simp [hq]

theorem QueueOk.push {m : Mem Deques} (h : QueueOk m) {p : ProcId} {q : Level} (t : Bool)
    (hp : (m.proc p).inq = false) (hq : (m.proc p).queue = q) :
    QueueOk (m.push dequeOps p q t) := by
  have hout : ∀ q, p ∉ m.queues q := by
    intro q hq
    have := (h.inq_iff p).mpr ⟨q, hq⟩
    rw [hp] at this
    cases this
  refine ⟨?_, ?_, ?_⟩
  · intro r
    simp only [push_proc, mem_push_deques hp]
    by_cases hr : r = p
    · subst hr
      simp
    · simp [hr, h.inq_iff r]
  · intro r q' hr
    rw [push_proc]
    rcases (mem_push_deques hp).mp hr with hr | ⟨rfl, rfl⟩
    · have hne : r ≠ p := fun he => hout q' (he ▸ hr)
      rw [if_neg hne]
      exact h.level r q' hr
    · simpa using hq
  · intro q'
    rw [push_deques m p q t hp]
    have hn := h.nodup q
    have ho := hout q
    split
    · cases t
      · simp [hn, ho]
      · rw [if_pos rfl, List.nodup_append]
        exact ⟨hn, List.nodup_singleton p, fun a ha b hb hab =>
          ho (List.mem_singleton.mp hb ▸ hab ▸ ha)⟩
    · exact h.nodup q'

/-- `pop` on deques. -/
theorem pop_deques {m : Mem Deques} {q : Level} :
    m.pop dequeOps q = match m.queues q with
      | [] => some (none, m)
      | p :: ps => some (some p, { m with queues := Function.update m.queues q ps }.setProc p
          fun x => { x with inq := false }) := by
  simp only [Mem.pop, dequeOps]
  cases m.queues q <;> rfl

/-- A `pop` that yields `p` has taken it from the front of level `q`. -/
theorem pop_some_deques {m m' : Mem Deques} {q : Level} {p : ProcId}
    (h : m.pop dequeOps q = some (some p, m')) :
    ∃ ps, m.queues q = p :: ps ∧ m'.queues = Function.update m.queues q ps := by
  rw [pop_deques] at h
  cases hq : m.queues q with
  | nil => simp [hq] at h
  | cons p' ps =>
    simp only [hq, Option.some_inj, Prod.mk.injEq] at h
    obtain ⟨rfl, rfl⟩ := h
    exact ⟨ps, rfl, rfl⟩

theorem pop_none_deques {m m' : Mem Deques} {q : Level}
    (h : m.pop dequeOps q = some (none, m')) : m.queues q = [] ∧ m' = m := by
  rw [pop_deques] at h
  cases hq : m.queues q with
  | nil =>
    simp only [hq, Option.some_inj, Prod.mk.injEq, true_and] at h
    exact ⟨rfl, h.symm⟩
  | cons p ps => simp [hq] at h

theorem QueueOk.pop {m m' : Mem Deques} (h : QueueOk m) {q : Level} {p : ProcId}
    (hp : m.pop dequeOps q = some (some p, m')) : QueueOk m' ∧ (m.proc p).inq = true := by
  obtain ⟨ps, hq, hq'⟩ := pop_some_deques hp
  have hmem : p ∈ m.queues q := by rw [hq]; exact List.mem_cons_self
  have hin : (m.proc p).inq = true := (h.inq_iff p).mpr ⟨q, hmem⟩
  have hnd : p ∉ ps ∧ ps.Nodup := by
    have := h.nodup q
    rw [hq] at this
    exact List.nodup_cons.mp this
  have hmem' : ∀ r q', r ∈ m'.queues q' ↔ r ∈ m.queues q' ∧ r ≠ p := by
    intro r q'
    rw [hq', Function.update_apply]
    split
    case isTrue he =>
      subst he
      rw [hq]
      constructor
      · intro hr
        exact ⟨List.mem_cons_of_mem _ hr, fun he => hnd.1 (he ▸ hr)⟩
      · rintro ⟨hr, hne⟩
        exact (List.mem_cons.mp hr).resolve_left hne
    case isFalse hne =>
      constructor
      · intro hr
        refine ⟨hr, fun he => hne ?_⟩
        rw [← h.level r q' hr, he, h.level p q hmem]
      · exact fun hr => hr.1
  refine ⟨⟨?_, ?_, ?_⟩, hin⟩
  · intro r
    simp only [pop_proc hp, hmem']
    by_cases hr : r = p
    · simp [hr]
    · simp [hr, h.inq_iff r]
  · intro r q' hr
    obtain ⟨hr, hne⟩ := (hmem' r q').mp hr
    rw [pop_proc hp, if_neg hne]
    exact h.level r q' hr
  · intro q'
    rw [hq', Function.update_apply]
    split
    · exact hnd.2
    · exact h.nodup q'

/-- The loop of the scheduler pops the first process of the first level that
is not empty. -/
theorem popFirst_deques {m m' : Mem Deques} {is : List Level} {p : ProcId}
    (h : m.popFirst dequeOps is = some (some p, m')) :
    ∃ q, m.pop dequeOps q = some (some p, m') := by
  induction is generalizing m with
  | nil => simp [popFirst] at h
  | cons i is ih =>
    simp only [popFirst] at h
    split at h
    case h_1 => cases h
    case h_2 p' m₁ hp =>
      cases h
      exact ⟨i, hp⟩
    case h_3 m₁ hp =>
      obtain ⟨-, rfl⟩ := pop_none_deques hp
      exact ih h

theorem popFirst_none_deques {m m' : Mem Deques} {is : List Level}
    (h : m.popFirst dequeOps is = some (none, m')) : m' = m := by
  induction is generalizing m with
  | nil =>
    simp only [popFirst, Option.some_inj, Prod.mk.injEq, true_and] at h
    exact h.symm
  | cons i is ih =>
    simp only [popFirst] at h
    split at h
    case h_1 => cases h
    case h_2 => cases h
    case h_3 m₁ hp =>
      obtain ⟨-, rfl⟩ := pop_none_deques hp
      exact ih h

theorem QueueOk.account {m : Mem Deques} (h : QueueOk m) {p : ProcId}
    (hp : (m.proc p).inq = false) : QueueOk (m.account dequeOps p) := by
  rw [account_eq]
  refine (h.setProc hp hp).push _ ?_ ?_
  · rw [setProc_proc, if_pos rfl]
    exact hp
  · rw [setProc_proc, if_pos rfl]
    rfl

theorem QueueOk.boostEnd {m : Mem Deques} (h : QueueOk m) {p : ProcId}
    (hp : (m.proc p).inq = false) : QueueOk (m.boostEnd p) := by
  have hr : QueueOk (m.resetLevel p) := h.setProc hp hp
  exact ⟨hr.inq_iff, hr.level, hr.nodup⟩

end Mlfq
