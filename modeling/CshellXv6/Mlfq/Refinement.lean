/-
The kernel on rings refines the kernel on deques, as long as no head push is
made at index 0.

* `sim_step` — a step of the kernel on rings is the same step of the kernel on
  deques, unless it makes such a push;
* `rings_hold_deques` — so in every run without one the rings hold what the same
  run leaves in the deques;
* `head_negative_reachable` — a run of one process that makes one.
-/
import CshellXv6.Mlfq.Rings
import CshellXv6.Mlfq.Invariant

namespace Mlfq

open Mem

/-! ### The pieces of the kernel -/

/-- The same memory with other queues. -/
def Mem.withQueues {Q Q' : Type} (m : Mem Q) (d : Q') : Mem Q' where
  proc := m.proc
  queues := d
  ticks := m.ticks
  boost := m.boost

/-- A process in no queue leaves room in every queue. -/
theorem QueueOk.length_lt {m : Mem Deques} (h : QueueOk m) {p : ProcId}
    (hp : (m.proc p).inq = false) (q : Level) : (m.queues q).length < NPROC := by
  have hout : p ∉ m.queues q := by
    intro hq
    have := (h.inq_iff p).mpr ⟨q, hq⟩
    rw [hp] at this
    cases this
  have hn : (p :: m.queues q).Nodup := List.nodup_cons.mpr ⟨hout, h.nodup q⟩
  have := hn.length_le_card
  rw [Fintype.card_fin] at this
  exact this

section Pieces

variable {m m' : Mem Rings} {d : Deques}

theorem push_sim (h : Represents m.queues d) (hQ : QueueOk (m.withQueues d)) {p : ProcId}
    {q : Level} {t : Bool} (hh : t = false → m.queues.head q ≠ 0) :
    ∃ d', (m.withQueues d).push dequeOps p q t = (m.push ringOps p q t).withQueues d' ∧
      Represents (m.push ringOps p q t).queues d' := by
  unfold Mem.push
  by_cases hi : (m.proc p).inq = true
  · have hi' : ((m.withQueues d).proc p).inq = true := hi
    rw [if_pos hi, if_pos hi']
    exact ⟨d, rfl, h⟩
  · have hi' : ¬ ((m.withQueues d).proc p).inq = true := hi
    rw [if_neg hi, if_neg hi']
    have hlt : (d q).length < NPROC := hQ.length_lt (by simpa using hi') q
    cases t with
    | true => exact ⟨_, rfl, h.pushTail hlt⟩
    | false => exact ⟨_, rfl, h.pushHead hlt (hh rfl)⟩

theorem pop_sim (h : Represents m.queues d) {q : Level} {o : Option ProcId}
    (hp : m.pop ringOps q = some (o, m')) :
    ∃ d', (m.withQueues d).pop dequeOps q = some (o, m'.withQueues d') ∧
      Represents m'.queues d' := by
  obtain ⟨o', r', d', hr, hd, -, h'⟩ := h.popHead q
  have hr' : ringOps.popHead m.queues q = some (o', r') := hr
  have hd' : dequeOps.popHead (m.withQueues d).queues q = some (o', d') := hd
  refine ⟨d', ?_⟩
  unfold Mem.pop at hp ⊢
  rw [hr'] at hp
  rw [hd']
  cases o' with
  | none =>
    cases hp
    exact ⟨rfl, h'⟩
  | some p =>
    cases hp
    exact ⟨rfl, h'⟩

theorem popFirst_sim (h : Represents m.queues d) {is : List Level} {o : Option ProcId}
    (hp : m.popFirst ringOps is = some (o, m')) :
    ∃ d', (m.withQueues d).popFirst dequeOps is = some (o, m'.withQueues d') ∧
      Represents m'.queues d' := by
  induction is generalizing m d with
  | nil =>
    cases hp
    exact ⟨d, rfl, h⟩
  | cons i is ih =>
    simp only [popFirst] at hp ⊢
    split at hp
    case h_1 => cases hp
    case h_2 p m₁ hp₁ =>
      cases hp
      obtain ⟨d₁, hd₁, h₁⟩ := pop_sim h hp₁
      rw [hd₁]
      exact ⟨d₁, rfl, h₁⟩
    case h_3 m₁ hp₁ =>
      obtain ⟨d₁, hd₁, h₁⟩ := pop_sim h hp₁
      rw [hd₁]
      exact ih h₁ hp

theorem boostStep_sim (h : Represents m.queues d) (hQ : QueueOk (m.withQueues d))
    {pc pc' : BoostPc} (hs : m.boostStep ringOps pc = some (pc', m')) :
    ∃ d', (m.withQueues d).boostStep dequeOps pc = some (pc', m'.withQueues d') ∧
      Represents m'.queues d' := by
  obtain ⟨i, rfl, rfl, hp⟩ | ⟨i, pp, m₁, rfl, rfl, hp, rfl⟩ | ⟨i, pp, rfl, rfl, rfl⟩ :=
    boostStep_cases hs
  · obtain ⟨d', hd', h'⟩ := pop_sim h hp
    exact ⟨d', by simp [boostStep, hd'], h'⟩
  · obtain ⟨d', hd', h'⟩ := pop_sim h hp
    refine ⟨d', ?_, h'⟩
    simp only [boostStep, i.isLt, dif_pos, Fin.eta, hd']
    rfl
  · obtain ⟨d', hd', h'⟩ := push_sim h hQ (p := pp) (q := 0) (t := true) (by simp)
    exact ⟨d', by simp [boostStep, hd'], h'⟩

/-- The accounting of a tick makes a head push if the slice is not over. -/
theorem account_sim (h : Represents m.queues d) (hQ : QueueOk (m.withQueues d)) {p : ProcId}
    (hi : (m.proc p).inq = false)
    (hh : (m.proc p).tick + 1 < slice (m.proc p).queue → m.queues.head (m.proc p).queue ≠ 0) :
    ∃ d', (m.withQueues d).account dequeOps p = (m.account ringOps p).withQueues d' ∧
      Represents (m.account ringOps p).queues d' := by
  have hproc : (m.withQueues d).proc p = m.proc p := rfl
  rw [account_eq, account_eq, hproc]
  have hQ' : QueueOk ((m.setProc p ticked).withQueues d) := hQ.setProc hi hi
  refine push_sim (m := m.setProc p ticked) h hQ' ?_
  intro ht
  -- a head push means that the slice is not over, and then the level is kept
  have hs : ¬ slice (m.proc p).queue ≤ (m.proc p).tick + 1 := by simpa using ht
  have hq : (nextLevel (m.proc p)).1 = (m.proc p).queue := by rw [nextLevel, if_neg hs]
  rw [hq]
  exact hh (by omega)

/-! What the calls write into `mlfqi`. -/

theorem push_writes (h : Represents m.queues d) {p : ProcId} {q : Level} {t : Bool}
    (hh : t = false → m.queues.head q ≠ 0) :
    Rings.WritesInRow m.queues (m.push ringOps p q t).queues := by
  unfold Mem.push
  split
  · exact .inl rfl
  · cases t with
    | true =>
      exact .inr ⟨q, m.queues.tail q, p, (h q).tail_range.1, (h q).tail_range.2,
        Function.update_self .., rfl⟩
    | false =>
      -- from index 0 the slot in front would be that of index -1, in another row
      have h₀ := (h q).head_nonneg
      have h₁ := (h q).head_lt
      have hne := hh rfl
      obtain ⟨hslot, -⟩ := headSlot_eq (q := q) (by omega) h₁
      exact .inr ⟨q, m.queues.headSlot q, p, by omega, by omega, Function.update_self .., rfl⟩

theorem account_writes (h : Represents m.queues d) {p : ProcId}
    (hh : (m.proc p).tick + 1 < slice (m.proc p).queue → m.queues.head (m.proc p).queue ≠ 0) :
    Rings.WritesInRow m.queues (m.account ringOps p).queues := by
  rw [account_eq]
  refine push_writes (m := m.setProc p ticked) h ?_
  intro ht
  have hs : ¬ slice (m.proc p).queue ≤ (m.proc p).tick + 1 := by simpa using ht
  rw [show (nextLevel (m.proc p)).1 = (m.proc p).queue by rw [nextLevel, if_neg hs]]
  exact hh (by omega)

theorem pop_mlfqi (h : Represents m.queues d) {q : Level} {o : Option ProcId}
    (hp : m.pop ringOps q = some (o, m')) : m'.queues.mlfqi = m.queues.mlfqi := by
  obtain ⟨o', r', d', hr, -, hw, -⟩ := h.popHead q
  unfold Mem.pop at hp
  rw [show ringOps.popHead m.queues q = some (o', r') from hr] at hp
  cases o' with
  | none =>
    cases hp
    exact hw
  | some p =>
    cases hp
    exact hw

theorem popFirst_mlfqi (h : Represents m.queues d) {is : List Level} {o : Option ProcId}
    (hp : m.popFirst ringOps is = some (o, m')) : m'.queues.mlfqi = m.queues.mlfqi := by
  induction is generalizing m d with
  | nil =>
    cases hp
    rfl
  | cons i is ih =>
    simp only [popFirst] at hp
    split at hp
    case h_1 => cases hp
    case h_2 p m₁ hp₁ =>
      cases hp
      exact pop_mlfqi h hp₁
    case h_3 m₁ hp₁ =>
      obtain ⟨d₁, -, h₁⟩ := pop_sim h hp₁
      exact (ih h₁ hp).trans (pop_mlfqi h hp₁)

end Pieces

/-! ### The kernel -/

/-- The same state with other queues. -/
def State.withQueues {Cpu Q Q' : Type} (s : State Cpu Q) (d : Q') : State Cpu Q' where
  mem := s.mem.withQueues d
  nextpid := s.nextpid
  initproc := s.initproc
  lock := s.lock
  mlfq := s.mlfq
  cpu := s.cpu
  self := s.self
  task := s.task

section Kernel

variable {Cpu : Type}

/-- The level whose head a step pushes to: `yield_mlfq` does so when no boost
is due and the slice of the process is not over. -/
def headPush {Q : Type} (s : State Cpu Q) : Act Cpu → Option Level
  | .self _ p =>
    if s.self p = .locked .yield ∧ s.mem.boostDue = false ∧
        (s.mem.proc p).tick + 1 < slice (s.mem.proc p).queue then
      some (s.mem.proc p).queue
    else none
  | _ => none

/-- The step makes no head push at index 0. -/
def HeadOk (s : State Cpu Rings) (a : Act Cpu) : Prop :=
  ∀ q, headPush s a = some q → s.mem.queues.head q ≠ 0

instance (s : State Cpu Rings) (a : Act Cpu) : Decidable (HeadOk s a) :=
  inferInstanceAs (Decidable (∀ q, headPush s a = some q → s.mem.queues.head q ≠ 0))

/-- The kernel on deques `t` is where the kernel on rings `s` is, and the rings
hold the deques. -/
def Refines (s : State Cpu Rings) (t : State Cpu Deques) : Prop :=
  ∃ d, t = s.withQueues d ∧ Represents s.mem.queues d

/-- A step that gets `s'` from `s` without touching the queues. -/
theorem refines_same {s s' : State Cpu Rings} {d : Deques} (h : Represents s.mem.queues d)
    (hq : s'.mem.queues = s.mem.queues) : Refines s' (s'.withQueues d) :=
  ⟨d, rfl, hq ▸ h⟩

variable {s s' : State Cpu Rings} {d : Deques}

theorem boostBlockStep_sim (h : Represents s.mem.queues d) (hI : Inv (s.withQueues d)) {p : ProcId}
    (hp : s.self p = .boosting) (hs : boostBlockStep ringOps s p = some s') :
    ∃ t', boostBlockStep dequeOps (s.withQueues d) p = some t' ∧ Refines s' t' := by
  have hmlfq : (s.withQueues d).mlfq = s.mlfq := rfl
  have hmem : (s.withQueues d).mem = s.mem.withQueues d := rfl
  unfold boostBlockStep at hs ⊢
  rw [hmlfq]
  split at hs
  case h_1 => cases hs
  case h_2 b pc hm =>
    split at hs
    case isFalse => cases hs
    case isTrue hb =>
      rw [if_pos hb]
      split at hs
      case isTrue hpc =>
        -- the booster itself is back at level 0: its tick ends the slice, a tail push
        cases hs
        have hi : (s.mem.proc p).inq = false :=
          hI.places.inq_false (hI.states.not_toRun_self (w := .yield) (.inr hp))
        have hQ : QueueOk ((s.mem.boostEnd p).withQueues d) := hI.places.queues.boostEnd hi
        have hi' : ((s.mem.boostEnd p).proc p).inq = false := by
          rw [boostEnd_inq]
          exact hi
        obtain ⟨d', hd', h'⟩ := account_sim (m := s.mem.boostEnd p) h hQ hi' fun hlt => by
          simp [boostEnd_proc, slice] at hlt
        have hend : (s.withQueues d).mem.boostEnd p = (s.mem.boostEnd p).withQueues d := rfl
        rw [if_pos hpc, hend, hd']
        exact ⟨_, rfl, d', rfl, h'⟩
      case isFalse hpc =>
        rw [if_neg hpc, hmem]
        split at hs
        case h_1 => cases hs
        case h_2 pc' m hst =>
          cases hs
          obtain ⟨d', hd', h'⟩ := boostStep_sim h hI.places.queues hst
          rw [hd']
          exact ⟨_, rfl, d', rfl, h'⟩

variable [DecidableEq Cpu]

theorem schedStep_sim (h : Represents s.mem.queues d) {c : Cpu}
    (hs : schedStep ringOps s c = some s') :
    ∃ t', schedStep dequeOps (s.withQueues d) c = some t' ∧ Refines s' t' := by
  have hcpu : (s.withQueues d).cpu c = s.cpu c := rfl
  unfold schedStep at hs ⊢
  rw [hcpu]
  cases hc : s.cpu c with
  | idle =>
    -- the one step of the scheduler that changes the queues: its pop
    simp only [hc] at hs ⊢
    split at hs
    case isFalse => cases hs
    case isTrue hm =>
      have hmem : (s.withQueues d).mem = s.mem.withQueues d := rfl
      rw [if_pos (show (s.withQueues d).mlfq = none from hm), hmem]
      split at hs
      case h_1 => cases hs
      case h_2 m hp =>
        cases hs
        obtain ⟨d', hd', h'⟩ := popFirst_sim h hp
        rw [hd']
        exact ⟨_, rfl, d', rfl, h'⟩
      case h_3 p m hp =>
        cases hs
        obtain ⟨d', hd', h'⟩ := popFirst_sim h hp
        rw [hd']
        exact ⟨_, rfl, d', rfl, h'⟩
  | popped p =>
    simp only [hc] at hs ⊢
    split at hs
    case isFalse => cases hs
    case isTrue hl =>
      cases hs
      exact ⟨_, if_pos hl, refines_same h rfl⟩
  | locked p =>
    simp only [hc] at hs ⊢
    split at hs
    case isTrue hr =>
      cases hs
      exact ⟨_, if_pos hr, refines_same h rfl⟩
    case isFalse hr =>
      cases hs
      exact ⟨_, if_neg hr, refines_same h rfl⟩
  | running p => simp [hc] at hs
  | back p =>
    simp only [hc] at hs ⊢
    cases hs
    exact ⟨_, rfl, refines_same h rfl⟩

theorem selfStep_sim (h : Represents s.mem.queues d) (hI : Inv (s.withQueues d)) {c : Cpu}
    {p : ProcId} (hk : HeadOk s (.self c p)) (hs : selfStep ringOps s c p = some s') :
    ∃ t', selfStep dequeOps (s.withQueues d) c p = some t' ∧ Refines s' t' := by
  have hself : (s.withQueues d).self p = s.self p := rfl
  have hmem : (s.withQueues d).mem = s.mem.withQueues d := rfl
  unfold selfStep at hs ⊢
  rw [hself]
  cases hp : s.self p with
  | off => simp [hp] at hs
  | resume =>
    simp only [hp] at hs ⊢
    cases hs
    exact ⟨_, rfl, refines_same h rfl⟩
  | out => simp [hp] at hs
  | locked w =>
    cases w with
    | yield =>
      simp only [hp] at hs ⊢
      split at hs
      case isFalse => cases hs
      case isTrue hm =>
        rw [if_pos (show (s.withQueues d).mlfq = none from hm)]
        split at hs
        case isTrue hb =>
          cases hs
          exact ⟨_, if_pos hb, refines_same h rfl⟩
        case isFalse hb =>
          -- the one place where the head push can be made, and `hk` is needed
          cases hs
          have hi : (s.mem.proc p).inq = false :=
            hI.places.inq_false (hI.states.not_toRun_self (.inl hp))
          obtain ⟨d', hd', h'⟩ := account_sim h hI.places.queues hi fun hlt =>
            hk _ (if_pos ⟨hp, by simpa using hb, hlt⟩)
          rw [if_neg (show ¬ (s.withQueues d).mem.boostDue = true from hb), hmem, hd']
          exact ⟨_, rfl, d', rfl, h'⟩
    | sleep =>
      simp only [hp] at hs ⊢
      split at hs
      case isTrue hc =>
        cases hs
        exact ⟨_, if_pos hc, refines_same h rfl⟩
      case isFalse hc =>
        cases hs
        exact ⟨_, if_neg hc, refines_same h rfl⟩
    | exit =>
      simp only [hp] at hs ⊢
      cases hs
      exact ⟨_, rfl, refines_same h rfl⟩
  | boosting =>
    simp only [hp] at hs ⊢
    exact boostBlockStep_sim h hI hp hs
  | queued =>
    simp only [hp] at hs ⊢
    cases hs
    exact ⟨_, rfl, refines_same h rfl⟩
  | ready w =>
    simp only [hp] at hs ⊢
    cases hs
    exact ⟨_, rfl, refines_same h rfl⟩

theorem taskStep_sim (h : Represents s.mem.queues d) (hI : Inv (s.withQueues d))
    {t : Thread Cpu} {ok : Bool} (hs : taskStep ringOps s t ok = some s') :
    ∃ t', taskStep dequeOps (s.withQueues d) t ok = some t' ∧ Refines s' t' := by
  have htask : (s.withQueues d).task t = s.task t := rfl
  have hmem : (s.withQueues d).mem = s.mem.withQueues d := rfl
  have hmlfq : s.mlfq = none → (s.withQueues d).mlfq = none := id
  unfold taskStep at hs ⊢
  rw [htask]
  cases ht : s.task t with
  | idle => simp [ht] at hs
  | scan g i =>
    simp only [ht] at hs ⊢
    split at hs
    case isFalse hi =>
      cases hs
      exact ⟨_, dif_neg hi, refines_same h rfl⟩
    case isTrue hi =>
      rw [dif_pos hi]
      split at hs
      case isFalse => cases hs
      case isTrue hl =>
        cases hs
        exact ⟨_, if_pos hl, refines_same h rfl⟩
  | scanLocked g p =>
    simp only [ht] at hs ⊢
    split at hs
    case isFalse hg =>
      cases hs
      exact ⟨_, if_neg hg, refines_same h rfl⟩
    case isTrue hg =>
      rw [if_pos (show g.hits ((s.withQueues d).mem.proc p) = true from hg)]
      split at hs
      case isTrue hr =>
        cases hs
        exact ⟨_, if_pos hr, refines_same h rfl⟩
      case isFalse hr =>
        cases hs
        exact ⟨_, if_neg hr, refines_same h rfl⟩
  | scanPush g p =>
    -- `wakeup` and `kkill` push to the tail, so index 0 is no exception here
    simp only [ht] at hs ⊢
    split at hs
    case isFalse => cases hs
    case isTrue hm =>
      cases hs
      obtain ⟨d', hd', h'⟩ := push_sim h hI.places.queues (p := p) (q := (s.mem.proc p).queue)
        (t := true) (by simp)
      have hq : ((s.withQueues d).mem.proc p).queue = (s.mem.proc p).queue := rfl
      rw [if_pos (hmlfq hm), hq, hmem, hd']
      exact ⟨_, rfl, d', rfl, h'⟩
  | scanUnlock g p =>
    simp only [ht] at hs ⊢
    cases hs
    exact ⟨_, rfl, refines_same h rfl⟩
  | alloc i =>
    simp only [ht] at hs ⊢
    split at hs
    case isFalse hi =>
      cases hs
      exact ⟨_, dif_neg hi, refines_same h rfl⟩
    case isTrue hi =>
      rw [dif_pos hi]
      split at hs
      case isFalse => cases hs
      case isTrue hl =>
        cases hs
        exact ⟨_, if_pos hl, refines_same h rfl⟩
  | allocLocked p =>
    simp only [ht] at hs ⊢
    split at hs
    case isTrue hu =>
      cases hs
      exact ⟨_, if_pos hu, refines_same h rfl⟩
    case isFalse hu =>
      cases hs
      exact ⟨_, if_neg hu, refines_same h rfl⟩
  | setup p =>
    simp only [ht] at hs ⊢
    split at hs
    case isTrue hok =>
      -- here `userinit` and `kfork` part: one keeps the lock, the other gives it back
      rw [if_pos hok]
      split at hs
      all_goals
        cases hs
        exact ⟨_, rfl, refines_same h rfl⟩
    case isFalse hok =>
      cases hs
      exact ⟨_, if_neg hok, refines_same h rfl⟩
  | fork p =>
    simp only [ht] at hs ⊢
    split at hs
    case h_1 =>
      split at hs
      case isFalse => cases hs
      case isTrue hl =>
        cases hs
        exact ⟨_, if_pos hl, refines_same h rfl⟩
    case h_2 => cases hs
  | forkLocked p =>
    simp only [ht] at hs ⊢
    cases hs
    exact ⟨_, rfl, refines_same h rfl⟩
  | forkPush p =>
    simp only [ht] at hs ⊢
    split at hs
    case isFalse => cases hs
    case isTrue hm =>
      cases hs
      obtain ⟨d', hd', h'⟩ := push_sim h hI.places.queues (p := p) (q := 0) (t := true) (by simp)
      rw [if_pos (hmlfq hm), hmem, hd']
      exact ⟨_, rfl, d', rfl, h'⟩
  | forkUnlock p =>
    simp only [ht] at hs ⊢
    cases hs
    exact ⟨_, rfl, refines_same h rfl⟩
  | wait i =>
    simp only [ht] at hs ⊢
    split at hs
    case h_1 _ q =>
      split at hs
      case isFalse hi =>
        cases hs
        exact ⟨_, dif_neg hi, refines_same h rfl⟩
      case isTrue hi =>
        rw [dif_pos hi]
        split at hs
        case isFalse hp =>
          cases hs
          exact ⟨_, if_neg hp, refines_same h rfl⟩
        case isTrue hp =>
          rw [if_pos (show ((s.withQueues d).mem.proc ⟨i, hi⟩).parent = some q from hp)]
          split at hs
          case isFalse => cases hs
          case isTrue hl =>
            cases hs
            exact ⟨_, if_pos hl, refines_same h rfl⟩
    case h_2 => cases hs
  | waitLocked p =>
    simp only [ht] at hs ⊢
    split at hs
    case isTrue hz =>
      rw [if_pos (show ((s.withQueues d).mem.proc p).state = .ZOMBIE from hz)]
      split at hs
      case isTrue hok =>
        cases hs
        exact ⟨_, if_pos hok, refines_same h rfl⟩
      case isFalse hok =>
        cases hs
        exact ⟨_, if_neg hok, refines_same h rfl⟩
    case isFalse hz =>
      cases hs
      exact ⟨_, if_neg hz, refines_same h rfl⟩

theorem startStep_sim (h : Represents s.mem.queues d) {c : Cpu} {t : Thread Cpu} {op : Op}
    (hs : startStep s c t op = some s') :
    ∃ t', startStep (s.withQueues d) c t op = some t' ∧ Refines s' t' := by
  unfold startStep at hs ⊢
  split at hs
  case isFalse => cases hs
  case isTrue ht =>
    rw [if_pos (show (s.withQueues d).task t = .idle from ht)]
    split at hs
    case h_5 =>
      split at hs
      case isFalse => cases hs
      case isTrue hi =>
        cases hs
        exact ⟨_, if_pos hi, refines_same h rfl⟩
    case h_6 =>
      split at hs
      case isFalse => cases hs
      case isTrue hi =>
        cases hs
        exact ⟨_, if_pos hi, refines_same h rfl⟩
    case h_7 => cases hs
    all_goals
      cases hs
      exact ⟨_, rfl, refines_same h rfl⟩

/-- A step on rings that makes no head push at index 0 is the same step on
deques. -/
theorem sim_step (h : Represents s.mem.queues d) (hI : Inv (s.withQueues d)) {a : Act Cpu}
    (hk : HeadOk s a) (hs : step ringOps s a = some s') :
    ∃ t', step dequeOps (s.withQueues d) a = some t' ∧ Refines s' t' := by
  cases a with
  | sched c =>
    simp only [step] at hs ⊢
    split at hs
    case isFalse => cases hs
    case isTrue hc =>
      rw [if_pos (show (s.withQueues d).task (.intr c) = .idle from hc)]
      exact schedStep_sim h hs
  | self c p =>
    simp only [step] at hs ⊢
    split at hs
    case isFalse => cases hs
    case isTrue hc =>
      rw [if_pos (show onCpu (s.withQueues d) c p = true from hc)]
      exact selfStep_sim h hI hk hs
  | call c p w =>
    simp only [step] at hs ⊢
    split at hs
    case isFalse => cases hs
    case isTrue hc =>
      split at hs
      case isFalse => cases hs
      case isTrue hw =>
        cases hs
        exact ⟨_, (if_pos hc).trans (if_pos hw), refines_same h rfl⟩
  | sleepPrepare c p chan =>
    simp only [step] at hs ⊢
    split at hs
    case isFalse => cases hs
    case isTrue hc =>
      cases hs
      exact ⟨_, if_pos hc, refines_same h rfl⟩
  | reparent c p =>
    simp only [step] at hs ⊢
    split at hs
    case isFalse => cases hs
    case isTrue hc =>
      cases hs
      exact ⟨_, if_pos hc, refines_same h rfl⟩
  | start c t op =>
    simp only [step] at hs ⊢
    split at hs
    case isFalse => cases hs
    case isTrue hc =>
      rw [if_pos (show executes (s.withQueues d) c t = true from hc)]
      exact startStep_sim h hs
  | task c t ok =>
    simp only [step] at hs ⊢
    split at hs
    case isFalse => cases hs
    case isTrue hc =>
      rw [if_pos (show executes (s.withQueues d) c t = true from hc)]
      exact taskStep_sim h hI hs
  | tick =>
    cases hs
    exact ⟨_, rfl, refines_same h rfl⟩

/-- The two kernels take the same steps, as long as no head push is made at
index 0. -/
theorem refines_run {acts : List (Act Cpu)}
    (hr : ((kernel Cpu ringOps).restrict HeadOk).runFrom (boot ringOps) acts = some s) :
    ∃ t, (kernel Cpu dequeOps).runFrom (boot dequeOps) acts = some t ∧ Refines s t := by
  refine Sys.simulation _ (R := Refines) ?_ ⟨fun _ => [], rfl, represents_zero⟩ (.init rfl) hr
  -- `Inv` comes from the run of the deques, so nothing has to be known of the rings
  rintro s t a s' ⟨d, rfl, h⟩ ht hs
  obtain ⟨hk, hs⟩ := (Sys.restrict_step _).mp hs
  exact sim_step h (inv_reachable ht) hk hs

/-! ### Runs -/

/-- In runs without a head push at index 0 the rings hold deques, and the
invariants of the kernel on deques hold. -/
theorem refines_reachable (h : ((kernel Cpu ringOps).restrict HeadOk).Reachable s) :
    ∃ d, Represents s.mem.queues d ∧ Inv (s.withQueues d) := by
  obtain ⟨s₀, acts, hi, hr⟩ := h.exists_run
  have hi : s₀ = boot ringOps := hi
  subst hi
  obtain ⟨t, ht, d, rfl, hd⟩ := refines_run hr
  exact ⟨d, hd, inv_reachable (Sys.reachable_runFrom _ (.init rfl) ht)⟩

theorem step_writes (h : Represents s.mem.queues d) {a : Act Cpu} (hk : HeadOk s a)
    (hs : step ringOps s a = some s') : Rings.WritesInRow s.mem.queues s'.mem.queues := by
  obtain ⟨es, hm⟩ : ∃ es, Move ringOps s a es s' := ⟨_, step_move hs⟩
  clear hs
  cases hm with
  | quiet hs => exact .inl (congrArg _ hs.queues)
  | popNone _ hp => exact .inl (popFirst_mlfqi h hp)
  | pop _ _ hp => exact .inl (popFirst_mlfqi h hp)
  | taskUnlock _ _ hs => exact .inl (congrArg _ hs.queues)
  | wake _ _ hs => exact .inl (congrArg _ hs.queues)
  | forkAcquire _ _ hs => exact .inl (congrArg _ hs.queues)
  | reap _ _ hs => exact .inl (congrArg _ hs.queues)
  | wakePush => exact push_writes h (by simp)
  | forkPush => exact push_writes h (by simp)
  | account ha hp _ hb =>
    subst ha
    exact account_writes h fun hlt => hk _ (if_pos ⟨hp, hb, hlt⟩)
  | boostCall _ _ _ hst =>
    -- the queue is empty, a process is taken from it, or that process is pushed to queue 0
    obtain ⟨i, -, -, hp⟩ | ⟨i, pp, m₁, -, -, hp, rfl⟩ | ⟨i, pp, -, -, rfl⟩ := boostStep_cases hst
    · exact .inl (pop_mlfqi h hp)
    · have hw := pop_mlfqi h hp
      exact .inl hw
    · exact push_writes h (by simp)
  | @boostEnd _ p =>
    -- at level 0 one tick is the whole slice, so the push is to the tail
    refine account_writes (m := s.mem.boostEnd p) h ?_
    intro hlt
    simp [boostEnd_proc, slice] at hlt
  | _ => exact .inl rfl

/-- **The ring invariant**: in every run whose steps make no head push at index
0, after every call the indices of every ring are in range, `tail` is `head`
plus `len` modulo `NPROC`, and the slots from `head` on hold, in order, what the
same calls leave in a queue that is appended to, prepended to and taken from at
the front; and the next call writes no slot outside the row of its queue. -/
theorem rings_hold_deques {acts : List (Act Cpu)}
    (hr : ((kernel Cpu ringOps).restrict HeadOk).runFrom (boot ringOps) acts = some s) :
    (∃ t, (kernel Cpu dequeOps).runFrom (boot dequeOps) acts = some t ∧ ∀ q,
      (0 ≤ s.mem.queues.head q ∧ s.mem.queues.head q < NPROC) ∧
      (0 ≤ s.mem.queues.tail q ∧ s.mem.queues.tail q < NPROC) ∧
      (0 ≤ s.mem.queues.len q ∧ s.mem.queues.len q ≤ NPROC) ∧
      s.mem.queues.tail q = (s.mem.queues.head q + s.mem.queues.len q) % NPROC ∧
      s.mem.queues.len q = (t.mem.queues q).length ∧
      ∀ i < (t.mem.queues q).length,
        s.mem.queues.mlfqi (Rings.cell q ((s.mem.queues.head q + i) % NPROC)) =
          (t.mem.queues q)[i]?) ∧
    ∀ a s', ((kernel Cpu ringOps).restrict HeadOk).step s a = some s' →
      Rings.WritesInRow s.mem.queues s'.mem.queues := by
  obtain ⟨t, ht, d, rfl, h⟩ := refines_run hr
  refine ⟨⟨_, ht, fun q => ⟨⟨(h q).head_nonneg, (h q).head_lt⟩, (h q).tail_range, ?_, (h q).tail,
    (h q).len, (h q).slots⟩⟩, fun a s' hs => ?_⟩
  · have := (h q).len_le
    have := (h q).len
    omega
  · obtain ⟨hk, hs⟩ := (Sys.restrict_step _).mp hs
    exact step_writes h hk hs

/-- The first process has been taken from ring 1, has used up one of its four ticks
there and is back at the front, ahead of its child. -/
def pushedBackActs {Cpu : Type} (c : Cpu) : List (Act Cpu) :=
  userinitActs c ++ takeActs c firstProc ++ familyActs c ++ yieldActs c firstProc

/-- Ring 1 holds the two in this order, from index 0 on. -/
theorem rings_hold_deques_pushedBack :
    ∃ (s : State (Fin 8) Rings) (t : State (Fin 8) Deques),
      ((kernel (Fin 8) ringOps).restrict HeadOk).runFrom (boot ringOps) (pushedBackActs 0) = some s ∧
      (kernel (Fin 8) dequeOps).runFrom (boot dequeOps) (pushedBackActs 0) = some t ∧
      t.mem.queues 1 = [firstProc, secondProc] ∧ s.mem.queues.head 1 = 0 ∧
      s.mem.queues.mlfqi (Rings.cell 1 0) = some firstProc ∧
      s.mem.queues.mlfqi (Rings.cell 1 1) = some secondProc := by
  have hrun : (((kernel (Fin 8) ringOps).restrict HeadOk).runFrom (boot ringOps)
      (pushedBackActs 0)).map (fun s => s.mem.queues.head 1) = some 0 := by decide +kernel
  obtain ⟨s, hs, hhead⟩ := Option.map_eq_some_iff.mp hrun
  obtain ⟨⟨t, ht, hq⟩, -⟩ := rings_hold_deques hs
  have htwo : ((kernel (Fin 8) dequeOps).runFrom (boot dequeOps) (pushedBackActs 0)).map
      (fun t => t.mem.queues 1) = some [firstProc, secondProc] := by decide +kernel
  rw [ht, Option.map_some, Option.some_inj] at htwo
  obtain ⟨-, -, -, -, -, hslots⟩ := hq 1
  rw [htwo, hhead] at hslots
  exact ⟨s, t, hs, ht, htwo, hhead, hslots 0 (by decide), hslots 1 (by decide)⟩

end Kernel

/-! ### A head push at index 0

One process at level 1 that sleeps and is woken by a device interrupt, over and
over, moves `head[1]` and `tail[1]` on by one each time round.  After 63 rounds it
is popped from slot 63, which leaves `head[1]` at 0, and then uses up a tick: the
`push(p,1,0)` of its `yield_mlfq` moves `head[1]` to -1. -/

section Solo

variable {Cpu : Type} [DecidableEq Cpu]

/-- A state in which only the first process and CPU `c` are in use. -/
def solo (c : Cpu) (x : Proc) (r : Rings) (l : Option (Owner Cpu)) (pc : CpuPc) (sp : SelfPc)
    (k : Task) : State Cpu Rings where
  mem := { proc := Function.update (fun _ => {}) firstProc x, queues := r, ticks := 0, boost := 0 }
  nextpid := 2
  initproc := some firstProc
  lock := Function.update (fun _ => none) firstProc l
  mlfq := none
  cpu := Function.update (fun _ => .idle) c pc
  self := Function.update (fun _ => .off) firstProc sp
  task := Function.update (fun _ => .idle) (.intr c) k

/-- Rings that only level 1 still uses. -/
def ring1 (f : ℤ → Option ProcId) (h t n : ℤ) : Rings where
  mlfqi := f
  head := Function.update (Function.update (fun _ => 0) 0 1) 1 h
  tail := Function.update (Function.update (fun _ => 0) 0 1) 1 t
  len := Function.update (fun _ => 0) 1 n

variable {c : Cpu} {x : Proc} {r : Rings} {l l' : Option (Owner Cpu)} {pc pc' : CpuPc}
  {sp sp' : SelfPc} {k k' : Task}

@[simp] theorem solo_setLock : (solo c x r l pc sp k).setLock firstProc l' =
    solo c x r l' pc sp k := by
  simp [solo, State.setLock]

@[simp] theorem solo_setCpu : (solo c x r l pc sp k).setCpu c pc' = solo c x r l pc' sp k := by
  simp [solo, State.setCpu]

@[simp] theorem solo_setSelf : (solo c x r l pc sp k).setSelf firstProc sp' =
    solo c x r l pc sp' k := by
  simp [solo, State.setSelf]

@[simp] theorem solo_setTask : (solo c x r l pc sp k).setTask (.intr c) k' =
    solo c x r l pc sp k' := by
  simp [solo, State.setTask]

@[simp] theorem solo_setProc {f : Proc → Proc} : (solo c x r l pc sp k).setProc firstProc f =
    solo c (f x) r l pc sp k := by
  simp [solo, State.setProc, Mem.setProc]

@[simp] theorem solo_setState {st : ProcState} : (solo c x r l pc sp k).setState firstProc st =
    solo c { x with state := st } r l pc sp k := solo_setProc

@[simp] theorem solo_proc : (solo c x r l pc sp k).mem.proc firstProc = x := by simp [solo]

@[simp] theorem solo_lock : (solo c x r l pc sp k).lock firstProc = l := by simp [solo]

@[simp] theorem solo_mlfq : (solo c x r l pc sp k).mlfq = none := rfl

@[simp] theorem solo_cpu : (solo c x r l pc sp k).cpu c = pc := by simp [solo]

@[simp] theorem solo_self : (solo c x r l pc sp k).self firstProc = sp := by simp [solo]

@[simp] theorem solo_task : (solo c x r l pc sp k).task (.intr c) = k := by simp [solo]

@[simp] theorem solo_taskProc : (solo c x r l pc sp k).task (.proc firstProc) = .idle := by
  simp [solo]

/-- The process at rest: in ring 1, with no tick used. -/
def resting : Proc := { state := .RUNNABLE, pid := 1, queue := 1, inq := true }

/-- `head[1] = h`, the process in slot `h`, every CPU idle. -/
def parked (c : Cpu) (f : ℤ → Option ProcId) (h : ℤ) : State Cpu Rings :=
  solo c resting (ring1 f h ((h + 1).tmod NPROC) 1) none .idle .off .idle

/-- The process running outside the kernel calls. -/
def awake (c : Cpu) (f : ℤ → Option ProcId) (h : ℤ) : State Cpu Rings :=
  solo c { resting with state := .RUNNING, inq := false } (ring1 f h h 0) none
    (.running firstProc) .out .idle

theorem parked_pop {f : ℤ → Option ProcId} {h : ℤ} (hf : f (64 + h) = some firstProc) :
    step ringOps (parked c f h) (.sched c) = some (solo c { resting with inq := false }
      (ring1 f ((h + 1).tmod NPROC) ((h + 1).tmod NPROC) 0) none (.popped firstProc) .off .idle) := by
  have hf' : f (Rings.cell 1 h) = some firstProc := by
    rw [← hf]
    rfl
  simp [step, schedStep, parked, popFirst, pop, ringOps, Rings.popHead, solo, ring1, hf',
    State.setCpu, Mem.setProc]

theorem parked_run {f : ℤ → Option ProcId} {h : ℤ} (hf : f (64 + h) = some firstProc) :
    (kernel Cpu ringOps).runFrom (parked c f h) [.sched c, .sched c, .sched c, .self c firstProc] =
      some (awake c f ((h + 1).tmod NPROC)) := by
  have hstep : (kernel Cpu ringOps).step = step ringOps := rfl
  rw [Sys.runFrom_cons, hstep, parked_pop hf]
  simp [kernel, step, schedStep, selfStep, onCpu, awake, resting]

/-- The process sleeps on channel 1 and the CPU goes idle. -/
theorem awake_sleep {f : ℤ → Option ProcId} {h : ℤ} :
    (kernel Cpu ringOps).runFrom (awake c f h) [.sleepPrepare c firstProc 1,
        .call c firstProc .sleep, .self c firstProc, .self c firstProc, .sched c] =
      some (solo c { resting with state := .SLEEPING, chan := 1, inq := false } (ring1 f h h 0) none
        .idle .off .idle) := by
  simp [kernel, step, schedStep, selfStep, onCpu, awake, Task.holds]

/-- A device interrupt finds it: `wakeup(1)` as far as the push. -/
theorem asleep_found {r : Rings} :
    (kernel Cpu ringOps).runFrom
        (solo c { resting with state := .SLEEPING, chan := 1, inq := false } r none .idle .off .idle)
        [.start c (.intr c) (.wakeup 1), .task c (.intr c) true, .task c (.intr c) true] =
      some (solo c { resting with inq := false } r (some (.thread (.intr c))) .idle .off
        (.scanPush (.wakeup 1) firstProc)) := by
  have h₀ : (0 : ℕ) < NPROC := by decide
  have h₁ : (⟨0, h₀⟩ : ProcId) = firstProc := rfl
  simp [kernel, step, startStep, taskStep, executes, intrOn, Goal.hits, Goal.mark, h₀, h₁, resting]

theorem found_push {f : ℤ → Option ProcId} {h t : ℤ} {g : Goal} :
    step ringOps (solo c { resting with inq := false } (ring1 f h t 0) l pc sp
        (.scanPush g firstProc)) (.task c (.intr c) true) =
      some (solo c resting (ring1 (Function.update f (64 + t) (some firstProc)) h
        ((t + 1).tmod NPROC) 1) l pc sp (.scanUnlock g firstProc)) := by
  have hc : Rings.cell 1 t = 64 + t := rfl
  simp [step, taskStep, executes, solo, Mem.push, Mem.setProc, ringOps, Rings.pushTail, ring1,
    State.setTask, resting, hc]

theorem found_run {f : ℤ → Option ProcId} {h t : ℤ} {o : Owner Cpu} :
    (kernel Cpu ringOps).runFrom
        (solo c { resting with inq := false } (ring1 f h t 0) (some o) .idle .off
          (.scanPush (.wakeup 1) firstProc))
        (List.replicate 2 (.task c (.intr c) true)) =
      some (solo c resting (ring1 (Function.update f (64 + t) (some firstProc)) h
        ((t + 1).tmod NPROC) 1) none .idle .off (.scan (.wakeup 1) 1)) := by
  have hstep : (kernel Cpu ringOps).step = step ringOps := rfl
  have hp : (firstProc : ℕ) = 0 := rfl
  simp only [List.replicate, Sys.runFrom_cons, hstep, found_push, Option.bind_some, Sys.runFrom_nil]
  simp [step, executes, taskStep, Goal.next, hp]

/-- A scan that finds nothing to wake goes to the end of the table. -/
theorem scan_misses {s : State Cpu Rings} {g : Goal} (hl : ∀ p, s.lock p = none) {i : ℕ}
    (hi : i ≤ NPROC) (hg : ∀ p : ProcId, i ≤ p → g.hits (s.mem.proc p) = false)
    (h : (kernel Cpu ringOps).Reachable (s.setTask (.intr c) (.scan g i))) :
    (kernel Cpu ringOps).Reachable (s.setTask (.intr c) .idle) := by
  -- from the end of the table down: an entry without a hit is locked and unlocked
  induction hi using Nat.decreasingInduction with
  | self => exact .step (a := .task c (.intr c) true) h (by
      simp [kernel, step, executes, taskStep, State.setTask])
  | of_succ i hi ih =>
    have hmiss := hg ⟨i, hi⟩ le_rfl
    have hlock : Function.update s.lock ⟨i, hi⟩ none = s.lock := by
      rw [← hl ⟨i, hi⟩, Function.update_eq_self]
    have hrun : (kernel Cpu ringOps).runFrom (s.setTask (.intr c) (.scan g i))
        (List.replicate 2 (.task c (.intr c) true)) =
          some (s.setTask (.intr c) (.scan g (i + 1))) := by
      simp [List.replicate, kernel, step, executes, taskStep, State.setTask, State.setLock, hi, hl,
        hmiss, hlock]
    exact ih (fun p hp => hg p (by omega)) (Sys.reachable_runFrom _ h hrun)

/-- One round moves `head[1]` on by one. -/
theorem parked_round {f : ℤ → Option ProcId} {h : ℤ} (hf : f (64 + h) = some firstProc)
    (hr : (kernel Cpu ringOps).Reachable (parked c f h)) :
    (kernel Cpu ringOps).Reachable (parked c
      (Function.update f (64 + (h + 1).tmod NPROC) (some firstProc)) ((h + 1).tmod NPROC)) := by
  have h₁ := Sys.reachable_runFrom _ hr (parked_run hf)
  have h₂ := Sys.reachable_runFrom _ h₁ awake_sleep
  have h₃ := Sys.reachable_runFrom _ h₂ asleep_found
  have h₄ := Sys.reachable_runFrom _ h₃ found_run
  -- the other entries are unused, and the scan passes them
  have hmiss : ∀ p : ProcId, 1 ≤ (p : ℕ) → (Goal.wakeup 1).hits
      (Function.update (fun _ : ProcId => ({} : Proc)) firstProc resting p) = false := by
    intro p hp
    have hne : p ≠ firstProc := by
      rintro rfl
      simp [firstProc] at hp
    simp [Goal.hits, hne]
  rw [← solo_setTask (k := .idle)] at h₄
  have h₅ := scan_misses (by intro p; simp [solo]) (by decide) hmiss h₄
  rw [solo_setTask] at h₅
  exact h₅

theorem reachable_step {s s' : State Cpu Rings} {a : Act Cpu}
    (h : (kernel Cpu ringOps).Reachable s) (hs : step ringOps s a = some s') :
    (kernel Cpu ringOps).Reachable s' :=
  .step h hs

/-- The accounting of a tick by the one process. -/
theorem solo_yield (hx : x.inq = false) :
    step ringOps (solo c x r l (.running firstProc) (.locked .yield) .idle) (.self c firstProc) =
      some (solo c { ticked x with inq := true }
        (if slice x.queue ≤ x.tick + 1 then r.pushTail (nextLevel x).1 firstProc
          else r.pushHead (nextLevel x).1 firstProc) l (.running firstProc) .queued .idle) := by
  have hb : (solo c x r l (.running firstProc) (.locked .yield) .idle).mem.boostDue = false := by
    show decide ((48 : UInt32) ≤ 0 - 0) = false
    decide
  have hon : onCpu (solo c x r l (.running firstProc) (.locked .yield) .idle) c firstProc = true := by
    simp [onCpu]
  rw [step, if_pos hon, selfStep, solo_self]
  simp only [solo_mlfq, if_true, hb, account_eq, solo_proc]
  by_cases hs : slice x.queue ≤ x.tick + 1
  · simp [hs, solo, Mem.push, Mem.setProc, ticked, hx, ringOps, State.setSelf]
  · simp [hs, solo, Mem.push, Mem.setProc, ticked, hx, ringOps, State.setSelf]

/-- The way out of `yield_mlfq`. -/
theorem solo_leave : (kernel Cpu ringOps).runFrom
      (solo c x r (some .self) (.running firstProc) .queued .idle)
      [.self c firstProc, .self c firstProc, .sched c] =
    some (solo c { x with state := .RUNNABLE } r none .idle .off .idle) := by
  simp [kernel, step, schedStep, selfStep, onCpu]

theorem booted_solo (c : Cpu) : booted ringOps = solo c
    { state := .RUNNABLE, pid := 1, inq := true } (Rings.zero.pushTail 0 firstProc) none .idle .off
      .idle := by
  simp [booted, boot, solo, ringOps]

/-- The first `yield_mlfq` of the process takes it to level 1. -/
theorem parked_first (c : Cpu) : ∃ f, f (64 + 0) = some firstProc ∧
    (kernel Cpu ringOps).Reachable (parked c f 0) := by
  have hb := booted_reachable ringOps c
  rw [booted_solo c] at hb
  have hu : Function.update (Function.update (fun _ : Level => (0 : ℤ)) 0 1) 1 0 =
      Function.update (fun _ => 0) 0 1 := by
    funext q
    fin_cases q <;> rfl
  have ht : Int.tmod 1 NPROC = 1 := rfl
  have hpop : step ringOps (solo c { state := .RUNNABLE, pid := 1, inq := true }
      (Rings.zero.pushTail 0 firstProc) none .idle .off .idle) (.sched c) = some
      (solo c { state := .RUNNABLE, pid := 1 } (ring1 (Function.update (fun _ => none) 0
        (some firstProc)) 0 0 0) none (.popped firstProc) .off .idle) := by
    simp [step, schedStep, popFirst, pop, ringOps, Rings.popHead, Rings.pushTail, Rings.zero, solo,
      ring1, Rings.cell, State.setCpu, Mem.setProc, hu, ht]
  have hcall : (kernel Cpu ringOps).runFrom
      (solo c { state := .RUNNABLE, pid := 1 } (ring1 (Function.update (fun _ => none) 0
        (some firstProc)) 0 0 0) none (.popped firstProc) .off .idle)
      [.sched c, .sched c, .self c firstProc, .call c firstProc .yield] =
      some (solo c { state := .RUNNING, pid := 1 } (ring1 (Function.update (fun _ => none) 0
        (some firstProc)) 0 0 0) (some .self) (.running firstProc) (.locked .yield) .idle) := by
    simp [kernel, step, schedStep, selfStep, onCpu, Task.holds]
  have h₁ := Sys.reachable_runFrom _ (reachable_step hb hpop) hcall
  have h₂ := reachable_step h₁ (solo_yield rfl)
  have h₃ := Sys.reachable_runFrom _ h₂ solo_leave
  have hring : (ring1 (Function.update (fun _ => none) 0 (some firstProc)) 0 0 0).pushTail 1
      firstProc = ring1 (Function.update (Function.update (fun _ => none) 0 (some firstProc)) 64
        (some firstProc)) 0 1 1 := by
    simp [ring1, Rings.pushTail, Rings.cell, NPROC]
  exact ⟨_, Function.update_self .., hring ▸ h₃⟩

/-- After `n` rounds. -/
theorem parked_rounds (c : Cpu) (n : ℕ) : ∃ f, f (64 + ((n % 64 : ℕ) : ℤ)) = some firstProc ∧
    (kernel Cpu ringOps).Reachable (parked c f ((n % 64 : ℕ) : ℤ)) := by
  induction n with
  | zero => exact parked_first c
  | succ n ih =>
    obtain ⟨f, hf, hr⟩ := ih
    have hm : (((n % 64 : ℕ) : ℤ) + 1).tmod NPROC = (((n + 1) % 64 : ℕ) : ℤ) := by
      have hn : ((NPROC : ℕ) : ℤ) = 64 := rfl
      rw [Int.tmod_eq_emod_of_nonneg (by omega), hn]
      omega
    have := parked_round hf hr
    rw [hm] at this
    exact ⟨_, Function.update_self .., this⟩

/-- The run reaches a state in which `head[1]` is -1, with the process in slot
63 of row 0 although queue 0 is empty. -/
theorem head_negative_reachable : ∃ s : State (Fin 8) Rings,
    (kernel (Fin 8) ringOps).Reachable s ∧ s.mem.queues.head 1 = -1 ∧
      s.mem.queues.mlfqi (Rings.cell 0 63) = some firstProc ∧ s.mem.queues.len 0 = 0 := by
  obtain ⟨f, hf, hr⟩ := parked_rounds (0 : Fin 8) 63
  have h₁ := Sys.reachable_runFrom _ hr (parked_run hf)
  have h₂ := reachable_step h₁ (a := .call 0 firstProc .yield) (by
    simp [step, awake, onCpu, Task.holds]
    rfl)
  have h₃ := reachable_step h₂ (solo_yield rfl)
  exact ⟨_, h₃, rfl, rfl, rfl⟩

end Solo

end Mlfq
