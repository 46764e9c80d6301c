/-
Where a woken process goes.

`wakeup` and `kkill` push a sleeper at the tail of the queue of its level.  It
keeps the level and the ticks it had when it blocked (`level_while_asleep`), but
it is at the head of the queue only if nobody else is in it, and whoever was
there is selected before it (`woken_after_queued`).
-/
import CshellXv6.Mlfq.Boost
import CshellXv6.Mlfq.Levels
import CshellXv6.Mlfq.Selection

namespace Mlfq

open Mem QueueLog

/-! ### The level of a sleeper -/

section Asleep

variable {Cpu Q : Type}

/-- A process that blocks in `sleep`, with its level and its tick count. -/
structure Block where
  proc : ProcId
  queue : Level
  tick : ℕ
  deriving DecidableEq, Repr

/-- The process that blocks in a step. -/
def blocks (s : State Cpu Q) : Act Cpu → List Block
  | .self _ p =>
    if s.self p = .locked .sleep ∧ (s.mem.proc p).chan ≠ 0 then
      [⟨p, (s.mem.proc p).queue, (s.mem.proc p).tick⟩]
    else []
  | _ => []

/-- Process `p` is asleep, or set `RUNNABLE` by a `wakeup` or `kkill` that has not
pushed it yet. -/
def Asleep (s : State Cpu Q) (p : ProcId) : Prop :=
  (s.mem.proc p).state = .SLEEPING ∨ ∃ t g, s.task t = .scanPush g p

/-- The last time `p` blocked. -/
def lastBlock (p : ProcId) (l : List Block) : Option Block := l.find? (·.proc = p)

theorem lastBlock_eq {p : ProcId} {b : Block} {l₁ l₂ : List Block} (hb : b.proc = p)
    (h : ∀ b' ∈ l₁, b'.proc ≠ p) : lastBlock p (l₁ ++ b :: l₂) = some b := by
  have h₁ : l₁.find? (·.proc = p) = none := by
    rw [List.find?_eq_none]
    intro b' hb'
    simpa using h b' hb'
  rw [lastBlock, List.find?_append, h₁, List.find?_cons_of_pos (by simpa using hb)]
  rfl

variable {s s' : State Cpu Deques} {a : Act Cpu}

theorem Asleep.not_toRun (hI : Inv s) {p : ProcId} (h : Asleep s p) : ¬ ToRun s p := by
  rcases h with hs | ⟨t, g, ht⟩
  · refine Mlfq.not_toRun ?_ (by rw [hs]; simp)
    intro hq
    have := hI.states.self p
    rw [hq, hs] at this
    cases this
  · exact hI.states.not_toRun_pushing (by rw [ht]; rfl)

theorem Asleep.not_making (hI : Inv s) {p : ProcId} (h : Asleep s p) (t : Thread Cpu) :
    (s.task t).making ≠ some p := by
  intro hm
  have hu := hI.states.making t p hm
  rcases h with hs | ⟨t', g, ht'⟩
  · rw [hu] at hs
    cases hs
  · rw [hI.states.pushing t' p (by rw [ht']; rfl)] at hu
    cases hu

/-- The other blocks do not matter. -/
theorem lastBlock_blocks {l : List Block} {p : ProcId}
    (h : blocks s a ≠ [⟨p, (s.mem.proc p).queue, (s.mem.proc p).tick⟩]) :
    lastBlock p (blocks s a ++ l) = lastBlock p l := by
  cases a with
  | self c r =>
    simp only [blocks] at h ⊢
    split at h
    case isFalse hc => rw [if_neg hc, List.nil_append]
    case isTrue hc =>
      have hne : r ≠ p := by
        rintro rfl
        exact h rfl
      rw [if_pos hc, lastBlock, List.singleton_append, List.find?_cons_of_neg (by simpa using hne)]
      rfl
  | _ => rfl

variable [DecidableEq Cpu]

/-- A sleeper was asleep before the step, or falls asleep in it. -/
theorem Move.asleep {es : List Event} (hm : Move dequeOps s a es s') {p : ProcId}
    (h : Asleep s' p) : Asleep s p ∨ s.self p = .locked .sleep ∧ s'.self p = .ready .sleep := by
  simp only [Asleep] at h ⊢
  cases hm <;>
    simp only [State.setLock, State.setCpu, State.setSelf, State.setTask, State.setProc,
      State.setState, freeproc, setProc_proc, Function.update_apply] at h ⊢ <;>
    grind [Task.pushing, Task.Free, Task.Holding, Mem.Same, popFirst_state, boostStep_state,
      account_state, push_state, boostEnd_state]

/-- Nobody writes the level or the tick count of a sleeper. -/
theorem Move.asleep_level {es : List Event} (hm : Move dequeOps s a es s') (hI' : Inv s')
    {p : ProcId} (h : Asleep s' p) : (s'.mem.proc p).level = (s.mem.proc p).level := by
  have hrun := h.not_toRun hI'
  have hmaking := h.not_making hI'
  cases hm with
  | quiet hs => exact hs.level p
  | popNone _ hp => exact popFirst_level hp p
  | pop _ _ hp => exact popFirst_level hp p
  | dispatch => exact setState_level _ _ p
  | block => exact setState_level _ _ p
  | runnable => exact setState_level _ _ p
  | taskUnlock _ _ hs => exact hs.level p
  | wake _ _ hs => exact (setState_level _ _ p).trans (hs.level p)
  | wakePush => exact push_level _ _ _ p
  | giveUp => exact free_level _ p
  | forkAcquire _ _ hs => exact hs.level p
  | forkRunnable => exact setState_level _ _ p
  | forkPush => exact push_level _ _ _ p
  | reap _ _ hs => exact (free_level _ p).trans (hs.level p)
  -- the pieces of code that write levels do so for a process that is back in the queues,
  -- in the hand of the boost loop or in the making
  | @account c r =>
    have hne : r ≠ p := by
      rintro rfl
      exact hrun (.inl (by simp [State.setSelf]))
    exact (account_level r p).trans (if_neg hne)
  | @boostEnd c r =>
    have hne : r ≠ p := by
      rintro rfl
      exact hrun (.inl (by simp [State.setSelf]))
    exact (account_level r p).trans ((if_neg hne).trans
      ((resetLevel_level (m := s.mem) r p).trans (if_neg hne)))
  | @boostCall c r pc pc' m _ _ _ hst =>
    obtain ⟨i, -, -, hp⟩ | ⟨i, pp, m₁, -, rfl, hp, rfl⟩ | ⟨i, pp, -, -, rfl⟩ := boostStep_cases hst
    · exact pop_level hp p
    · have hne : pp ≠ p := by
        rintro rfl
        exact hrun ((hI'.places.placed pp).mp (.inr (.inr ⟨r, i, rfl⟩)))
      exact (resetLevel_level pp p).trans ((if_neg hne).trans (pop_level hp p))
    · exact push_level _ _ _ p
  | @take c t r =>
    have hne : p ≠ r := by
      rintro rfl
      exact hmaking t (by simp [State.setTask, Task.making])
    simp only [State.setTask, State.setProc, setProc_proc, if_neg hne]
  | _ => rfl

/-- Another thread of control can only give `p` the CPU or let it into a call. -/
theorem step_self (hs : step dequeOps s a = some s') {p : ProcId} (ha : ∀ c, a ≠ .self c p) :
    s'.self p = s.self p ∨ s'.self p = .resume ∨ ∃ w, s'.self p = .locked w := by
  cases a with
  | self c r =>
    have hne : p ≠ r := fun he => ha c (by rw [he])
    simp only [step, selfStep, boostBlockStep] at hs
    (repeat' split at hs) <;> cases hs <;>
      simp [State.setSelf, State.setLock, State.setCpu, State.setState, State.setProc, hne]
  | sched c =>
    simp only [step, schedStep] at hs
    (repeat' split at hs) <;> cases hs <;>
      simp only [State.setSelf, State.setLock, State.setCpu, State.setState, State.setProc,
        Function.update_apply, true_or]
    split
    · exact .inr (.inl rfl)
    · exact .inl rfl
  | call c r w =>
    simp only [step] at hs
    (repeat' split at hs) <;> cases hs
    simp only [State.setSelf, State.setLock, Function.update_apply]
    split
    · exact .inr (.inr ⟨w, rfl⟩)
    · exact .inl rfl
  | sleepPrepare c r chan | reparent c r =>
    simp only [step] at hs
    split at hs <;> cases hs
    exact .inl rfl
  | start c t op =>
    simp only [step, startStep] at hs
    (repeat' split at hs) <;> cases hs <;> exact .inl rfl
  | task c t ok =>
    simp only [step, taskStep] at hs
    (repeat' split at hs) <;> cases hs <;> exact .inl rfl
  | tick =>
    cases hs
    exact .inl rfl

/-- A process that falls asleep is the one that blocks. -/
theorem blocks_eq (hs : step dequeOps s a = some s') {p : ProcId} (hp : s.self p = .locked .sleep)
    (hp' : s'.self p = .ready .sleep) :
    blocks s a = [⟨p, (s.mem.proc p).queue, (s.mem.proc p).tick⟩] := by
  by_cases ha : ∃ c, a = .self c p
  · obtain ⟨c, rfl⟩ := ha
    simp only [step] at hs
    split at hs
    case isFalse => cases hs
    case isTrue =>
      simp only [selfStep, hp] at hs
      split at hs
      case isTrue =>
        cases hs
        simp [State.setSelf] at hp'
      case isFalse hc => exact if_pos ⟨hp, hc⟩
  · push Not at ha
    have hself := step_self hs ha
    rw [hp', hp] at hself
    simp at hself

/-- What is known of the sleepers from the blocks so far. -/
def AsleepInv (s : State Cpu Q) (l : List Block) : Prop :=
  ∀ p, Asleep s p → lastBlock p l = some ⟨p, (s.mem.proc p).queue, (s.mem.proc p).tick⟩

theorem AsleepInv.step {l : List Block} (hI : Inv s) (h : AsleepInv s l)
    (hs : step dequeOps s a = some s') : AsleepInv s' (blocks s a ++ l) := by
  intro p hp
  have hm := step_move hs
  have hlev := hm.asleep_level (hI.move hm) hp
  simp only [Proc.level, Prod.mk.injEq] at hlev
  rw [hlev.1, hlev.2]
  by_cases hb : blocks s a = [⟨p, (s.mem.proc p).queue, (s.mem.proc p).tick⟩]
  · rw [hb]
    show lastBlock p ([] ++ ⟨p, (s.mem.proc p).queue, (s.mem.proc p).tick⟩ :: l) = _
    exact lastBlock_eq rfl (by simp)
  · rcases hm.asleep hp with hp | ⟨hsl, hr⟩
    · rw [lastBlock_blocks hb]
      exact h p hp
    · exact absurd (blocks_eq hs hsl hr) hb

end Asleep

/-- What the push of `wakeup` and `kkill` does to the memory. -/
theorem wakePush_mem {Cpu Q : Type} [DecidableEq Cpu] {ops : QueueOps Q} {s s' : State Cpu Q}
    {c : Cpu} {t : Thread Cpu} {ok : Bool} {g : Goal} {p : ProcId}
    (ht : s.task t = .scanPush g p) (hs : step ops s (.task c t ok) = some s') :
    s'.mem = s.mem.push ops p (s.mem.proc p).queue true := by
  simp only [step, taskStep, ht] at hs
  (repeat' split at hs) <;> cases hs
  rfl

/-- Whoever is in the queue a woken process is pushed to is selected before it, as
long as no boost moves them. -/
theorem woken_after_queued {Cpu : Type} [DecidableEq Cpu] {x x' : State Cpu Deques × List QueueEvent}
    (h : (queueLog Cpu dequeOps).Reachable x) {c : Cpu} {t : Thread Cpu} {ok : Bool} {g : Goal}
    {p r : ProcId} (ht : x.1.task t = .scanPush g p)
    (hs : (queueLog Cpu dequeOps).step x (.task c t ok) = some x')
    (hr : r ∈ x.1.mem.queues (x.1.mem.proc p).queue) {acts : List (Act Cpu)}
    {s' : State Cpu Deques} {l : List QueueEvent}
    (hrun : (queueLog Cpu dequeOps).runFrom x' acts = some (s', l ++ x'.2))
    (hno : ∀ q' p', .take q' p' .boost ∉ l) : TakenFirst .scheduler r p l := by
  have hI : Inv x.1 := inv_reachable ((kernel Cpu dequeOps).reachable_of_logged h)
  have hin : (x.1.mem.proc p).inq = false :=
    hI.places.inq_false (hI.states.not_toRun_pushing (by rw [ht]; rfl))
  have hpush := wakePush_mem ht ((Sys.logged_step _).mp hs).1
  have hord : [r, p].Sublist (x'.1.mem.queues (x.1.mem.proc p).queue) := by
    rw [hpush, push_deques _ _ _ _ hin, if_pos rfl, if_pos rfl]
    exact (List.singleton_sublist.mpr hr).append (List.Sublist.refl [p])
  exact taken_in_order (.step h hs) hord hrun hno

/-! ### In the rings -/

section Rings

variable (Cpu : Type) [DecidableEq Cpu]

/-- The runs of the code that make no head push at index 0, with the log of the
processes that block. -/
def blockLog : Sys (State Cpu Rings × List Block) (Act Cpu) :=
  ((kernel Cpu ringOps).restrict HeadOk).logged blocks

variable {Cpu} {x : State Cpu Rings × List Block}

theorem asleep_reachable (h : (blockLog Cpu).Reachable x) :
    ∃ d, Represents x.1.mem.queues d ∧ Inv (x.1.withQueues d) ∧ AsleepInv x.1 x.2 := by
  induction h with
  | @init x hi =>
    obtain ⟨hs, hl⟩ := hi
    have hs : x.1 = boot ringOps := hs
    rw [hs, hl]
    refine ⟨fun _ => [], represents_zero, inv_boot, ?_⟩
    rintro p (hp | ⟨t, g, ht⟩)
    · cases hp
    · cases ht
  | @step x x' a _ hs ih =>
    obtain ⟨d, hd, hI, hA⟩ := ih
    obtain ⟨hs, hl⟩ := (Sys.logged_step _).mp hs
    obtain ⟨hk, hs⟩ := (Sys.restrict_step _).mp hs
    obtain ⟨t', ht', d', rfl, hd'⟩ := sim_step hd hI hk hs
    refine ⟨d', hd', hI.move (step_move ht'), ?_⟩
    have hb : blocks (x.1.withQueues d) a = blocks x.1 a := by cases a <;> rfl
    have hA' : AsleepInv (x.1.withQueues d) x.2 := hA
    rw [hl, ← hb]
    exact hA'.step hI ht'

/-- The push of `wakeup` and `kkill` adds the process at the end of the queue of
its level. -/
theorem wakePush_contents {s s' : State Cpu Rings} {d : Deques} (hd : Represents s.mem.queues d)
    (hI : Inv (s.withQueues d)) {c : Cpu} {t : Thread Cpu} {ok : Bool} {g : Goal} {p : ProcId}
    (ht : s.task t = .scanPush g p) (hs : step ringOps s (.task c t ok) = some s') :
    s'.mem.queues.contents (s.mem.proc p).queue =
      s.mem.queues.contents (s.mem.proc p).queue ++ [p] ∧
    (s'.mem.proc p).level = (s.mem.proc p).level ∧
    p ∉ s.mem.queues.contents (s.mem.proc p).queue := by
  have hpush := wakePush_mem ht hs
  have hin : ((s.withQueues d).mem.proc p).inq = false :=
    hI.places.inq_false (hI.states.not_toRun_pushing (t := t) (by
      show (s.task t).pushing = some p
      rw [ht]
      rfl))
  obtain ⟨d', hd', hr⟩ : ∃ d', (s.mem.withQueues d).push dequeOps p (s.mem.proc p).queue true =
      (s.mem.push ringOps p (s.mem.proc p).queue true).withQueues d' ∧
      Represents (s.mem.push ringOps p (s.mem.proc p).queue true).queues d' :=
    push_sim hd hI.places.queues (by simp)
  have hq : d' (s.mem.proc p).queue = d (s.mem.proc p).queue ++ [p] := by
    have := push_deques (s.mem.withQueues d) p (s.mem.proc p).queue true hin (s.mem.proc p).queue
    rwa [if_pos rfl, if_pos rfl, hd'] at this
  rw [hpush, hr.contents, hd.contents, hq]
  exact ⟨rfl, push_level _ _ _ p, hI.places.queues.not_mem hin _⟩

/-- Process `p`, pushed in the step from `s` to `s'`, has kept its place: it has
level `q` and `n` ticks, is at the head of queue `q`, and nobody who was in the
queue is selected before it. -/
structure KeepsPlace (s s' : State Cpu Rings) (p : ProcId) (q : Level) (n : ℕ) : Prop where
  queue : (s'.mem.proc p).queue = q
  tick : (s'.mem.proc p).tick = n
  head : s'.mem.queues.contents q = p :: s.mem.queues.contents q
  first : ∀ r ∈ s.mem.queues.contents q, ∀ acts y,
    (queueLog Cpu ringOps).runFrom (s', []) acts = some y → TakenFirst .scheduler p r y.2

/-- **When a woken process keeps its place**: in every run without a head push
at index 0, a process that last blocked at level `q` with `n` ticks used and is
now pushed by `wakeup` or `kkill` keeps its level, its ticks and its place
exactly if queue `q` is empty. -/
theorem wake_keeps_place_iff (h : (blockLog Cpu).Reachable x) {c : Cpu} {t : Thread Cpu} {ok : Bool}
    {g : Goal} {p : ProcId} {s' : State Cpu Rings} (ht : x.1.task t = .scanPush g p)
    (hs : step ringOps x.1 (.task c t ok) = some s') {q : Level} {n : ℕ} {l₁ l₂ : List Block}
    (hl : x.2 = l₁ ++ ⟨p, q, n⟩ :: l₂) (hn : ∀ b ∈ l₁, b.proc ≠ p) :
    KeepsPlace x.1 s' p q n ↔ x.1.mem.queues.contents q = [] := by
  obtain ⟨d, hd, hI, hA⟩ := asleep_reachable h
  obtain ⟨hc, hlev, hout⟩ := wakePush_contents hd hI ht hs
  -- the level and the ticks are those of the last block
  have hblock := hA p (.inr ⟨t, g, ht⟩)
  rw [hl, lastBlock_eq (b := ⟨p, q, n⟩) rfl hn, Option.some_inj, Block.mk.injEq] at hblock
  obtain ⟨-, rfl, rfl⟩ := hblock
  simp only [Proc.level, Prod.mk.injEq] at hlev
  constructor
  · intro hk
    have hhead := hk.head
    rw [hc] at hhead
    by_contra hne
    obtain ⟨r, rs, hrs⟩ := List.exists_cons_of_ne_nil hne
    rw [hrs, List.cons_append, List.cons.injEq] at hhead
    exact hout (by rw [hrs, hhead.1]; exact List.mem_cons_self)
  · intro he
    refine ⟨hlev.1, hlev.2, ?_, ?_⟩
    · rw [hc, he]
      rfl
    · intro r hr
      rw [he] at hr
      cases hr

end Rings

/-- The third process slept at level 0 with no tick used; a device interrupt wakes it
while another one waits at level 1, and it keeps its place. -/
theorem wake_keeps_place_family :
    ∃ (x : State (Fin 8) Rings × List Block) (s' : State (Fin 8) Rings),
    (blockLog (Fin 8)).Reachable x ∧ x.1.task (.intr 0) = .scanPush (.wakeup 3) thirdProc ∧
      x.1.mem.queues.contents 1 = [secondProc] ∧
      step ringOps x.1 (.task 0 (.intr 0) true) = some s' ∧ KeepsPlace x.1 s' thirdProc 0 0 := by
  have hrun : ((blockLog (Fin 8)).runFrom (boot ringOps, [])
      (userinitActs 0 ++ takeActs 0 firstProc ++ familyActs 0 ++
        .start 0 (.intr 0) (.wakeup 3) :: List.replicate 6 (.task 0 (.intr 0) true))).map (fun x =>
      (x.2, decide (x.1.task (.intr 0) = .scanPush (.wakeup 3) thirdProc ∧
        x.1.mem.queues.contents 0 = [] ∧ x.1.mem.queues.contents 1 = [secondProc]),
        (step ringOps x.1 (.task 0 (.intr 0) true)).isSome)) =
      some ([⟨thirdProc, 0, 0⟩], true, true) := by decide +kernel
  obtain ⟨x, hx, hy⟩ := Option.map_eq_some_iff.mp hrun
  obtain ⟨hl, hv, hs⟩ : _ ∧ _ ∧ _ := by simpa only [Prod.mk.injEq] using hy
  obtain ⟨ht, h₀, hone⟩ := of_decide_eq_true hv
  obtain ⟨s', hs⟩ := Option.isSome_iff_exists.mp hs
  have hi : (blockLog (Fin 8)).Reachable (boot ringOps, []) := .init ⟨rfl, rfl⟩
  have hr := Sys.reachable_runFrom _ hi hx
  have hl : x.2 = [] ++ ⟨thirdProc, 0, 0⟩ :: [] := hl
  exact ⟨x, s', hr, ht, hone, hs, (wake_keeps_place_iff hr ht hs hl (by simp)).mpr h₀⟩

/-- The first process runs on CPU `c`, forks and sleeps on channel 1, and a device
interrupt calls `wakeup(1)`, as far as the push. -/
def forkAndSleepActs {Cpu : Type} (c : Cpu) : List (Act Cpu) :=
  userinitActs c ++ takeActs c firstProc ++ forkActs c firstProc 1 ++ blockActs c firstProc 1 ++
    .start c (.intr c) (.wakeup 1) :: List.replicate 2 (.task c (.intr c) true)

/-- The process has forked before it sleeps: it is pushed behind its child. -/
theorem woken_behind_child : ∃ (x : State (Fin 8) Rings × List Block) (s' : State (Fin 8) Rings),
    (blockLog (Fin 8)).Reachable x ∧ x.1.task (.intr 0) = .scanPush (.wakeup 1) firstProc ∧
      step ringOps x.1 (.task 0 (.intr 0) true) = some s' ∧ x.2 = [⟨firstProc, 0, 0⟩] ∧
      ¬ KeepsPlace x.1 s' firstProc 0 0 := by
  have hrun : ((blockLog (Fin 8)).runFrom (boot ringOps, []) (forkAndSleepActs 0)).map
      (fun x => (x.2, decide (x.1.task (.intr 0) = .scanPush (.wakeup 1) firstProc),
        (step ringOps x.1 (.task 0 (.intr 0) true)).map fun s' => s'.mem.queues.contents 0)) =
      some ([⟨firstProc, 0, 0⟩], true, some [secondProc, firstProc]) := by decide +kernel
  obtain ⟨x, hx, hy⟩ := Option.map_eq_some_iff.mp hrun
  obtain ⟨hl, ht, hs⟩ : _ ∧ _ ∧ _ := by simpa only [Prod.mk.injEq] using hy
  obtain ⟨s', hs, hc⟩ := Option.map_eq_some_iff.mp hs
  have hi : (blockLog (Fin 8)).Reachable (boot ringOps, []) := .init ⟨rfl, rfl⟩
  refine ⟨x, s', Sys.reachable_runFrom _ hi hx, of_decide_eq_true ht, hs, hl, ?_⟩
  intro hk
  have hhead := hk.head
  rw [hc, List.cons.injEq] at hhead
  exact absurd hhead.1 (by decide)

end Mlfq
