/-
Who is selected.

`scheduler_mlfq` pops the first process of the first level that is not empty,
and looks at nothing else.  What this means for the processes:

* strict priority — nobody who could run is at a smaller level than the
  process that is popped;
* first come, first served — of two processes that wait in one queue, both
  pushed at its tail, the one pushed first is popped first, as long as no boost
  moves them.

`queueEvents` is what a step does to the queues.  The queues of a reachable
state are the replay of these events (`queues_replay`), so that the second part
is a fact about logs of queues.
-/
import CshellXv6.Lib.QueueLog
import CshellXv6.Mlfq.Invariant

namespace Mlfq

open Mem QueueLog

/-- Who pops. -/
inductive Taker
  | scheduler
  | boost
  deriving DecidableEq, Repr

/-- What happens to the four queues. -/
abbrev QueueEvent := QueueLog.Event Level ProcId Taker

section Events

variable {Cpu Q : Type} [DecidableEq Cpu] (ops : QueueOps Q)

/-- `push(p,q,t)`: a process whose `inq` is set is not pushed. -/
def Mem.pushEvents (m : Mem Q) (p : ProcId) (q : Level) (t : Bool) : List QueueEvent :=
  if (m.proc p).inq then [] else [if t then .append q p else .prepend q p]

/-- The push at the end of `yield_mlfq`. -/
def Mem.accountEvents (m : Mem Q) (p : ProcId) : List QueueEvent :=
  m.pushEvents p (nextLevel (m.proc p)).1 (decide (slice (m.proc p).queue ≤ (m.proc p).tick + 1))

/-- What a step does to the queues. -/
def queueEvents (s : State Cpu Q) : Act Cpu → List QueueEvent
  | .sched c =>
    match s.cpu c with
    | .idle =>
      match s.mem.popFirst ops [0, 1, 2, 3] with
      | some (some p, _) => [.take (s.mem.proc p).queue p .scheduler]
      | _ => []
    | _ => []
  | .self _ p =>
    match s.self p with
    | .locked .yield => if s.mem.boostDue then [] else s.mem.accountEvents p
    | .boosting =>
      match s.mlfq with
      | none => []
      | some (_, .popped _ pp) => s.mem.pushEvents pp 0 true
      | some (_, .loop i) =>
        if i = 4 then (s.mem.boostEnd p).accountEvents p
        else match s.mem.boostStep ops (.loop i) with
          | some (.popped _ pp, _) => [.take (s.mem.proc pp).queue pp .boost]
          | _ => []
    | _ => []
  | .task _ t _ =>
    match s.task t with
    | .scanPush _ p => s.mem.pushEvents p (s.mem.proc p).queue true
    | .forkPush p => s.mem.pushEvents p 0 true
    | _ => []
  | _ => []

variable (Cpu) in
/-- The kernel with the log of what happens to its queues. -/
def queueLog : Sys (State Cpu Q × List QueueEvent) (Act Cpu) :=
  (kernel Cpu ops).logged (queueEvents ops)

end Events

/-! ### The queues are the replay of the log -/

section Replay

/-- The queues `d'` come from `d` by the events `es`, each of which could
happen. -/
def Yields (d : Deques) : List QueueEvent → Deques → Prop
  | [], d' => d' = d
  | e :: es, d' => ∃ d₁, Yields d es d₁ ∧ e.Enabled d₁ ∧ d' = e.apply d₁

theorem yields_single {d d' : Deques} {e : QueueEvent} (he : e.Enabled d) (hd : d' = e.apply d) :
    Yields d [e] d' :=
  ⟨d, rfl, he, hd⟩

theorem yields_replay {d d' : Deques} {es l : List QueueEvent} (h : Yields d es d')
    (hd : d = replay l) (hv : Valid l) : d' = replay (es ++ l) ∧ Valid (es ++ l) := by
  induction es generalizing d' with
  | nil =>
    have hd' : d' = d := h
    exact ⟨hd'.trans hd, hv⟩
  | cons e es ih =>
    obtain ⟨d₁, h₁, he, rfl⟩ := h
    obtain ⟨rfl, hv'⟩ := ih h₁
    exact ⟨rfl, he, hv'⟩

variable {m m' : Mem Deques}

theorem QueueOk.not_mem (h : QueueOk m) {p : ProcId} (hp : (m.proc p).inq = false) (q : Level) :
    p ∉ m.queues q := by
  intro hq
  have := (h.inq_iff p).mpr ⟨q, hq⟩
  rw [hp] at this
  cases this

theorem QueueOk.push_yields (h : QueueOk m) (p : ProcId) (q : Level) (t : Bool) :
    Yields m.queues (m.pushEvents p q t) (m.push dequeOps p q t).queues := by
  unfold Mem.pushEvents
  split
  case isTrue hi =>
    simp only [Mem.push, hi, if_true]
    rfl
  case isFalse hi =>
    have hi : (m.proc p).inq = false := by simpa using hi
    refine yields_single ?_ ?_
    · cases t <;> exact h.not_mem hi
    · rw [push_queues m p q t hi]
      cases t <;> rfl

theorem QueueOk.account_yields (h : QueueOk m) {p : ProcId} (hp : (m.proc p).inq = false) :
    Yields m.queues (m.accountEvents p) (m.account dequeOps p).queues := by
  have hset : QueueOk (m.setProc p ticked) := h.setProc hp hp
  have hi : ((m.setProc p ticked).proc p).inq = false := by
    rw [setProc_proc, if_pos rfl]
    exact hp
  have hy := hset.push_yields p (nextLevel (m.proc p)).1
    (decide (slice (m.proc p).queue ≤ (m.proc p).tick + 1))
  rw [account_eq]
  rwa [Mem.pushEvents, hi, ← hp, ← Mem.pushEvents] at hy

theorem QueueOk.pop_yields (h : QueueOk m) {q : Level} {p : ProcId} (w : Taker)
    (hp : m.pop dequeOps q = some (some p, m')) :
    Yields m.queues [.take (m.proc p).queue p w] m'.queues := by
  obtain ⟨ps, hq, hq'⟩ := pop_some_deques hp
  have hl : (m.proc p).queue = q := h.level p q (by rw [hq]; exact List.mem_cons_self)
  rw [hl]
  refine yields_single ?_ ?_
  · show (m.queues q).head? = some p
    rw [hq]
    rfl
  · show m'.queues = Function.update m.queues q (m.queues q).tail
    rw [hq', hq]
    rfl

end Replay

section Steps

variable {Cpu : Type} {s s' : State Cpu Deques}

theorem boostBlockStep_yields (hI : Inv s) {c : Cpu} {p : ProcId} (hp : s.self p = .boosting)
    (h : boostBlockStep dequeOps s p = some s') :
    Yields s.mem.queues (queueEvents dequeOps s (.self c p)) s'.mem.queues := by
  have hQ := hI.places.queues
  have hi : (s.mem.proc p).inq = false :=
    hI.places.inq_false (hI.states.not_toRun_self (w := .yield) (.inr hp))
  simp only [boostBlockStep] at h
  split at h
  case h_1 => cases h
  case h_2 b pc hm =>
    split at h
    case isFalse => cases h
    case isTrue =>
      split at h
      case isTrue hpc =>
        cases h
        simp only [queueEvents, hp, hm, hpc, if_true]
        refine (hQ.boostEnd hi).account_yields ?_
        rw [boostEnd_inq]
        exact hi
      case isFalse hpc =>
        split at h
        case h_1 => cases h
        case h_2 pc' m hst =>
          cases h
          obtain ⟨i, rfl, rfl, hpop⟩ | ⟨i, pp, m₁, rfl, rfl, hpop, rfl⟩ | ⟨i, pp, rfl, rfl, rfl⟩ :=
            boostStep_cases hst
          · have hi4 : (i : ℕ) ≠ 4 := fun he => hpc (by rw [he])
            simp only [queueEvents, hp, hm, if_neg hi4, hst]
            rw [(pop_none_deques hpop).2]
            rfl
          · have hi4 : (i : ℕ) ≠ 4 := fun he => hpc (by rw [he])
            simp only [queueEvents, hp, hm, if_neg hi4, hst]
            exact (hQ.pop_yields .boost hpop : Yields _ _ m₁.queues)
          · simp only [queueEvents, hp, hm]
            exact hQ.push_yields pp 0 true

variable [DecidableEq Cpu]

theorem schedStep_yields (hI : Inv s) {c : Cpu} (h : schedStep dequeOps s c = some s') :
    Yields s.mem.queues (queueEvents dequeOps s (.sched c)) s'.mem.queues := by
  have hQ := hI.places.queues
  cases hc : s.cpu c with
  | idle =>
    simp only [schedStep, queueEvents, hc] at h ⊢
    split at h
    case isFalse => cases h
    case isTrue =>
      split at h
      case h_1 => cases h
      case h_2 m hp =>
        cases h
        rw [hp, popFirst_none_deques hp]
        rfl
      case h_3 p m hp =>
        cases h
        obtain ⟨q, hq⟩ := popFirst_deques hp
        rw [hp]
        exact hQ.pop_yields .scheduler hq
  | popped p =>
    simp only [schedStep, queueEvents, hc] at h ⊢
    split at h <;> cases h
    rfl
  | locked p =>
    simp only [schedStep, queueEvents, hc] at h ⊢
    split at h <;> cases h <;> rfl
  | running p => simp [schedStep, hc] at h
  | back p =>
    simp only [schedStep, queueEvents, hc] at h ⊢
    cases h
    rfl

theorem selfStep_yields (hI : Inv s) {c : Cpu} {p : ProcId}
    (h : selfStep dequeOps s c p = some s') :
    Yields s.mem.queues (queueEvents dequeOps s (.self c p)) s'.mem.queues := by
  cases hp : s.self p with
  | boosting =>
    simp only [selfStep, hp] at h
    exact boostBlockStep_yields hI hp h
  | locked w =>
    cases w with
    | yield =>
      simp only [selfStep, queueEvents, hp] at h ⊢
      split at h
      case isFalse => cases h
      case isTrue =>
        split at h
        case isTrue hd =>
          cases h
          rw [if_pos hd]
          rfl
        case isFalse hd =>
          cases h
          rw [if_neg hd]
          exact hI.places.queues.account_yields
            (hI.places.inq_false (hI.states.not_toRun_self (.inl hp)))
    | sleep =>
      simp only [selfStep, queueEvents, hp] at h ⊢
      split at h <;> cases h <;> rfl
    | exit =>
      simp only [selfStep, queueEvents, hp] at h ⊢
      cases h
      rfl
  | off => simp [selfStep, hp] at h
  | out => simp [selfStep, hp] at h
  | resume | queued | ready w =>
    simp only [selfStep, queueEvents, hp] at h ⊢
    cases h
    rfl

/-- A thread that is not about to push leaves the queues alone. -/
theorem taskStep_queues {t : Thread Cpu} {ok : Bool} (ht : (s.task t).pushing = none)
    (h : taskStep dequeOps s t ok = some s') : s'.mem.queues = s.mem.queues := by
  simp only [taskStep] at h
  split at h
  case h_4 hk => simp [hk, Task.pushing] at ht
  case h_11 hk => simp [hk, Task.pushing] at ht
  all_goals
    (repeat' split at h) <;> cases h <;> rfl

theorem taskStep_yields (hI : Inv s) {c : Cpu} {t : Thread Cpu} {ok : Bool}
    (h : taskStep dequeOps s t ok = some s') :
    Yields s.mem.queues (queueEvents dequeOps s (.task c t ok)) s'.mem.queues := by
  have hQ := hI.places.queues
  cases ht : (s.task t).pushing with
  | none =>
    have hev : queueEvents dequeOps s (.task c t ok) = [] := by
      cases hk : s.task t <;> simp_all [queueEvents, Task.pushing]
    rw [hev]
    exact taskStep_queues ht h
  | some p =>
    cases hk : s.task t with
    | scanPush g p =>
      simp only [taskStep, queueEvents, hk] at h ⊢
      split at h <;> cases h
      exact hQ.push_yields p _ true
    | forkPush p =>
      simp only [taskStep, queueEvents, hk] at h ⊢
      split at h <;> cases h
      exact hQ.push_yields p 0 true
    | _ => simp [hk, Task.pushing] at ht

/-- **What a step does to the queues is what its queue events say.** -/
theorem step_yields (hI : Inv s) {a : Act Cpu} (h : step dequeOps s a = some s') :
    Yields s.mem.queues (queueEvents dequeOps s a) s'.mem.queues := by
  cases a with
  | sched c =>
    simp only [step] at h
    split at h
    · exact schedStep_yields hI h
    · cases h
  | self c p =>
    simp only [step] at h
    split at h
    · exact selfStep_yields hI h
    · cases h
  | task c t ok =>
    simp only [step] at h
    split at h
    · exact taskStep_yields hI h
    · cases h
  | start c t op =>
    simp only [step, startStep] at h
    (repeat' split at h) <;> cases h <;> rfl
  | call c p w | sleepPrepare c p chan | reparent c p =>
    simp only [step] at h
    (repeat' split at h) <;> cases h
    rfl
  | tick =>
    cases h
    rfl

/-- **The queues are the replay of the log.** -/
theorem queues_replay {x : State Cpu Deques × List QueueEvent}
    (h : (queueLog Cpu dequeOps).Reachable x) : x.1.mem.queues = replay x.2 ∧ Valid x.2 := by
  refine Sys.logged_invariant _ (I := fun s l => s.mem.queues = replay l ∧ Valid l) ?_ ?_ h
  · rintro s rfl
    exact ⟨rfl, trivial⟩
  · intro s l a s' hr hI hs
    exact yields_replay (step_yields (inv_reachable hr) hs) hI.1 hI.2

end Steps

/-! ### Strict priority -/

/-- The scheduler pops from the first level that is not empty. -/
theorem popFirst_split {m m' : Mem Deques} {is : List Level} {p : ProcId}
    (h : m.popFirst dequeOps is = some (some p, m')) :
    ∃ is₁ q is₂, is = is₁ ++ q :: is₂ ∧ (∀ i ∈ is₁, m.queues i = []) ∧ p ∈ m.queues q := by
  induction is with
  | nil => simp [popFirst] at h
  | cons i is ih =>
    simp only [popFirst] at h
    split at h
    case h_1 => cases h
    case h_2 p' m₁ hp =>
      cases h
      obtain ⟨ps, hq, -⟩ := pop_some_deques hp
      exact ⟨[], i, is, rfl, by simp, by rw [hq]; exact List.mem_cons_self⟩
    case h_3 m₁ hp =>
      obtain ⟨he, rfl⟩ := pop_none_deques hp
      obtain ⟨is₁, q, is₂, rfl, hb, hq⟩ := ih h
      exact ⟨i :: is₁, q, is₂, rfl, List.forall_mem_cons.mpr ⟨he, hb⟩, hq⟩

theorem popFirst_least {m m' : Mem Deques} {p : ProcId}
    (h : m.popFirst dequeOps [0, 1, 2, 3] = some (some p, m')) {q' : Level}
    (hq' : m.queues q' ≠ []) : ∃ q ≤ q', p ∈ m.queues q := by
  obtain ⟨is₁, q, is₂, his, hb, hp⟩ := popFirst_split h
  refine ⟨q, ?_, hp⟩
  have hall : ∀ i : Level, i ∈ [0, 1, 2, 3] := by decide
  have hmem : q' ∈ is₁ ++ q :: is₂ := his ▸ hall q'
  have hsort : (is₁ ++ q :: is₂).Pairwise (· < ·) := by
    rw [← his]
    decide
  rcases List.mem_append.mp hmem with hin | hin
  · exact absurd (hb q' hin) hq'
  · rcases List.mem_cons.mp hin with rfl | hin
    · exact le_refl q'
    · have hpw := (List.pairwise_append.mp hsort).2.1
      exact le_of_lt ((List.pairwise_cons.mp hpw).1 q' hin)

section Selected

variable {Cpu : Type}

/-- Nobody who could run is at a smaller level than the process popped. -/
theorem Inv.priority {s : State Cpu Deques} (hI : Inv s) (hm : s.mlfq = none) {p r : ProcId}
    {m : Mem Deques} (hp : s.mem.popFirst dequeOps [0, 1, 2, 3] = some (some p, m))
    (hr : (s.mem.proc r).state = .RUNNABLE) (hl : s.lock r = none)
    (hc : ∀ c, s.cpu c ≠ .popped r) : (s.mem.proc p).queue ≤ (s.mem.proc r).queue := by
  obtain ⟨q', hq'⟩ := hI.in_queue hm hr hl hc
  obtain ⟨q, hle, hq⟩ := popFirst_least hp (List.ne_nil_of_mem hq')
  rw [hI.places.queues.level p q hq, hI.places.queues.level r q' hq']
  exact hle

variable [DecidableEq Cpu]

/-- What a scheduler that goes on to `popped p` has done. -/
theorem step_pop {Q : Type} {ops : QueueOps Q} {s s' : State Cpu Q} {c : Cpu} {p : ProcId}
    (hs : step ops s (.sched c) = some s') (hc : s.cpu c = .idle) (hp : s'.cpu c = .popped p) :
    s.mlfq = none ∧ ∃ m, s.mem.popFirst ops [0, 1, 2, 3] = some (some p, m) := by
  simp only [step, schedStep, hc] at hs
  split at hs
  case isFalse => cases hs
  case isTrue =>
    split at hs
    case isFalse => cases hs
    case isTrue hm =>
      split at hs
      case h_1 => cases hs
      case h_2 m hpop =>
        cases hs
        rw [hc] at hp
        cases hp
      case h_3 p' m hpop =>
        cases hs
        simp only [State.setCpu, Function.update_self, CpuPc.popped.injEq] at hp
        exact ⟨hm, m, hp ▸ hpop⟩

/-- Of two processes in order in a queue, the first is popped first, as long as no
boost moves them. -/
theorem taken_in_order {x : State Cpu Deques × List QueueEvent}
    (h : (queueLog Cpu dequeOps).Reachable x) {q : Level} {p r : ProcId}
    (hord : [p, r].Sublist (x.1.mem.queues q)) {acts : List (Act Cpu)} {s' : State Cpu Deques}
    {l : List QueueEvent} (hrun : (queueLog Cpu dequeOps).runFrom x acts = some (s', l ++ x.2))
    (hno : ∀ q' p', .take q' p' .boost ∉ l) : TakenFirst .scheduler p r l := by
  intro l₁ l₂ q' hl
  rw [(queues_replay h).1] at hord
  have hv := (queues_replay (Sys.reachable_runFrom _ h hrun)).2
  obtain ⟨q'', w, hw⟩ := hv.fifo hord hl
  cases w with
  | scheduler => exact ⟨q'', hw⟩
  | boost => exact absurd (by rw [hl]; simp [hw]) (hno q'' p)

/-- **Strict priority and first come, first served**: in every reachable state,
with the log of what has happened to its queues,

* a process that a scheduler pops is at a level no larger than that of any
  process that is `RUNNABLE`, whose lock is free and which no scheduler has
  popped;
* if two processes wait in one queue, both appended to it, then in every
  continuation without a boost the one appended first is popped first. -/
theorem priority_and_fifo {x : State Cpu Deques × List QueueEvent}
    (h : (queueLog Cpu dequeOps).Reachable x) :
    (∀ c s' p, step dequeOps x.1 (.sched c) = some s' → x.1.cpu c = .idle →
      s'.cpu c = .popped p → ∀ r, (x.1.mem.proc r).state = .RUNNABLE → x.1.lock r = none →
      (∀ c', x.1.cpu c' ≠ .popped r) → ¬ (x.1.mem.proc r).queue < (x.1.mem.proc p).queue) ∧
    (∀ q p r, p ≠ r → p ∈ x.1.mem.queues q → r ∈ x.1.mem.queues q → AppendedBefore q p r x.2 →
      ∀ acts s' l, (queueLog Cpu dequeOps).runFrom x acts = some (s', l ++ x.2) →
        (∀ q' p', .take q' p' .boost ∉ l) → TakenFirst .scheduler p r l) := by
  obtain ⟨hq, hv⟩ := queues_replay h
  constructor
  · intro c s' p hs hc hp r hr hl hc'
    obtain ⟨hm, m, hpop⟩ := step_pop hs hc hp
    have hI : Inv x.1 := inv_reachable ((kernel Cpu dequeOps).reachable_of_logged h)
    exact not_lt.mpr (hI.priority hm hpop hr hl hc')
  · intro q p r hne hp hr hb acts s' l hrun hno
    rw [hq] at hp hr
    have hord := hb.before hv hne hp hr
    rw [← hq] at hord
    exact taken_in_order h hord hrun hno

end Selected

/-- The first process runs on CPU `c` and forks two children. -/
def twoForksActs {Cpu : Type} (c : Cpu) : List (Act Cpu) :=
  userinitActs c ++ takeActs c firstProc ++ forkActs c firstProc 1 ++ forkActs c firstProc 2

/-- The two children wait in queue 0; the one forked first is popped first, by
whatever CPU. -/
theorem priority_and_fifo_twoForks : ∃ x : State (Fin 8) Deques × List QueueEvent,
    (queueLog (Fin 8) dequeOps).Reachable x ∧ x.1.mem.queues 0 = [secondProc, thirdProc] ∧
      (∀ s', step dequeOps x.1 (.sched 1) = some s' → s'.cpu 1 = .popped secondProc →
        ¬ (x.1.mem.proc thirdProc).queue < (x.1.mem.proc secondProc).queue) ∧
      ∀ acts s' l, (queueLog (Fin 8) dequeOps).runFrom x acts = some (s', l ++ x.2) →
        (∀ q' p', .take q' p' .boost ∉ l) → TakenFirst .scheduler secondProc thirdProc l := by
  have hrun : ((queueLog (Fin 8) dequeOps).runFrom (boot dequeOps, []) (twoForksActs 0)).map
      (fun x => (x.2, decide (x.1.mem.queues 0 = [secondProc, thirdProc] ∧ x.1.cpu 1 = .idle ∧
        (x.1.mem.proc thirdProc).state = .RUNNABLE ∧ x.1.lock thirdProc = none ∧
        ∀ c, x.1.cpu c ≠ .popped thirdProc))) =
      some ([.append 0 thirdProc, .append 0 secondProc, .take 0 firstProc .scheduler,
        .append 0 firstProc], true) := by
    decide +kernel
  obtain ⟨x, hx, hy⟩ := Option.map_eq_some_iff.mp hrun
  obtain ⟨hlog, hv⟩ := Prod.ext_iff.mp hy
  obtain ⟨hq, hc, hst, hl, hpop⟩ := of_decide_eq_true hv
  have h₀ : (queueLog (Fin 8) dequeOps).Reachable (boot dequeOps, []) := .init ⟨rfl, rfl⟩
  have hr := Sys.reachable_runFrom _ h₀ hx
  have hb : AppendedBefore 0 secondProc thirdProc x.2 :=
    ⟨[], [], [.take 0 firstProc .scheduler, .append 0 firstProc], hlog,
      by simp [NotPushed], by simp [NotPushed]⟩
  obtain ⟨hprio, hfifo⟩ := priority_and_fifo hr
  exact ⟨x, hr, hq, fun s' hs hp => hprio 1 s' secondProc hs hc hp thirdProc hst hl hpop,
    hfifo 0 secondProc thirdProc (by decide) (by rw [hq]; decide) (by rw [hq]; decide) hb⟩

end Mlfq
