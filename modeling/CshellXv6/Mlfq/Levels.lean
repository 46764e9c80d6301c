/-
The level of a process is a function of the ticks it has accounted for.

`yieldsSince p log` counts, in the log of a run, the `yield_mlfq` calls of `p`
after it was last allocated or reset by a boost.  The level and the tick count
of `p` are `levelOf` of that number (`level_eq_levelOf`): four slices of 1, 4,
8 and 16 ticks, then 16 ticks over and over at the bottom.  Nothing else writes
the two fields, so a process that blocks before its slice ends keeps what it
has used.

The argument does not look at the queues: it holds for the rings of the code
as for the deques, and after any corruption of the rings.
-/
import CshellXv6.Mlfq.QueueFacts

namespace Mlfq

open Mem

/-- The `yield_mlfq` calls of `p` in a log (latest first) since the last entry
that restarts it. -/
def yieldsSince (p : ProcId) : List Event → ℕ
  | [] => 0
  | .restart q :: es => if q = p then 0 else yieldsSince p es
  | .yield q :: es => if q = p then yieldsSince p es + 1 else yieldsSince p es

/-- The level and the tick count of a process that has accounted for `n`
ticks. -/
def levelOf (n : ℕ) : Level × ℕ :=
  if n = 0 then (0, 0)
  else if n < 5 then (1, n - 1)
  else if n < 13 then (2, n - 5)
  else (3, (n - 13) % 16)

/-- The level and the tick count of a process. -/
def Proc.level (x : Proc) : Level × ℕ := (x.queue, x.tick)

/-- One more tick. -/
theorem nextLevel_levelOf {x : Proc} {n : ℕ} (h : x.level = levelOf n) :
    nextLevel x = levelOf (n + 1) := by
  obtain ⟨hq, ht⟩ := Prod.ext_iff.mp h
  simp only [Proc.level] at hq ht
  simp only [nextLevel, hq, ht, levelOf]
  by_cases h0 : n = 0
  · subst h0
    decide
  by_cases h5 : n < 5
  · have hn : n = 1 ∨ n = 2 ∨ n = 3 ∨ n = 4 := by omega
    rcases hn with rfl | rfl | rfl | rfl <;> decide
  by_cases h13 : n < 13
  · have hn : n = 5 ∨ n = 6 ∨ n = 7 ∨ n = 8 ∨ n = 9 ∨ n = 10 ∨ n = 11 ∨ n = 12 := by omega
    rcases hn with rfl | rfl | rfl | rfl | rfl | rfl | rfl | rfl <;> decide
  -- the bottom level: the count wraps after 16 ticks, and there is nowhere to be demoted to
  have hs : slice 3 = 16 := by decide
  have hd : demote 3 = 3 := by decide
  have h5' : ¬ n + 1 < 5 := by omega
  have h13' : ¬ n + 1 < 13 := by omega
  simp only [h0, h5, h13, if_false, Nat.add_eq_zero_iff, one_ne_zero, and_false, h5', h13', hs, hd]
  split
  · rw [Prod.mk.injEq]
    refine ⟨rfl, ?_⟩
    omega
  · rw [Prod.mk.injEq]
    refine ⟨rfl, ?_⟩
    omega

theorem levelOf_tick_lt (n : ℕ) : (levelOf n).2 < slice (levelOf n).1 := by
  unfold levelOf
  split
  · decide
  · split
    · show n - 1 < 4
      omega
    · split
      · show n - 5 < 8
        omega
      · show (n - 13) % 16 < 16
        omega

/-! ### What the pieces of code do to levels -/

section Pieces

variable {Q : Type} {ops : QueueOps Q} {m m' : Mem Q}

theorem Mem.Same.level (h : m.Same m') (r : ProcId) :
    (m'.proc r).level = (m.proc r).level := by
  simp only [Proc.level, h.queue r, h.tick r]

theorem setProc_level {p : ProcId} {f : Proc → Proc} (hf : (f (m.proc p)).level = (m.proc p).level)
    (r : ProcId) : ((m.setProc p f).proc r).level = (m.proc r).level := by
  rw [setProc_proc]
  split
  · subst r
    exact hf
  · rfl

theorem setState_level (p : ProcId) (st : ProcState) (r : ProcId) :
    ((m.setProc p fun x => { x with state := st }).proc r).level = (m.proc r).level :=
  setProc_level rfl r

theorem free_level (p r : ProcId) :
    ((m.setProc p fun x =>
      { x with pid := 0, chan := 0, killed := false, state := .UNUSED }).proc r).level =
      (m.proc r).level :=
  setProc_level rfl r

theorem push_level (p : ProcId) (q : Level) (t : Bool) (r : ProcId) :
    ((m.push ops p q t).proc r).level = (m.proc r).level := by
  rw [push_proc]
  split
  · subst r
    rfl
  · rfl

theorem pop_level {q : Level} {o : Option ProcId} (h : m.pop ops q = some (o, m'))
    (r : ProcId) : (m'.proc r).level = (m.proc r).level := by
  cases o with
  | none => rw [pop_none_proc h]
  | some p =>
    rw [pop_proc h]
    split
    · subst r
      rfl
    · rfl

theorem popFirst_level {is : List Level} {o : Option ProcId}
    (h : m.popFirst ops is = some (o, m')) (r : ProcId) :
    (m'.proc r).level = (m.proc r).level := by
  cases o with
  | none => rw [popFirst_none_proc h]
  | some p =>
    obtain ⟨q, m₁, h₁, h₂⟩ := popFirst_some h
    rw [pop_level h₂, h₁]

theorem resetLevel_level (p r : ProcId) :
    ((m.resetLevel p).proc r).level = if p = r then (0, 0) else (m.proc r).level := by
  rw [resetLevel_proc]
  by_cases h : r = p
  · subst h
    simp [Proc.level]
  · simp [h, Ne.symm h]

theorem account_level (p r : ProcId) : ((m.account ops p).proc r).level =
    if p = r then nextLevel (m.proc p) else (m.proc r).level := by
  rw [account_proc]
  by_cases h : r = p
  · subst h
    simp [Proc.level]
  · simp [h, Ne.symm h]

end Pieces

/-! ### Runs -/

section Runs

variable {Cpu Q : Type} [DecidableEq Cpu] {ops : QueueOps Q} {s s' : State Cpu Q}

/-- What one step does to the level of a process is what its events say. -/
theorem Move.level {a : Act Cpu} {es : List Event} (hm : Move ops s a es s') (r : ProcId)
    {log : List Event} (h : (s.mem.proc r).level = levelOf (yieldsSince r log)) :
    (s'.mem.proc r).level = levelOf (yieldsSince r (es ++ log)) := by
  -- the moves without events leave every level alone
  have keep : ∀ {m : Mem Q}, (m.proc r).level = (s.mem.proc r).level →
      (m.proc r).level = levelOf (yieldsSince r ([] ++ log)) := fun hk => hk.trans h
  cases hm with
  | quiet hs => exact keep (hs.level r)
  | popNone _ hp => exact keep (popFirst_level hp r)
  | pop _ _ hp => exact keep (popFirst_level hp r)
  | dispatch => exact keep (setState_level _ _ r)
  | block => exact keep (setState_level _ _ r)
  | runnable => exact keep (setState_level _ _ r)
  | taskUnlock _ _ hs => exact keep (hs.level r)
  | wake _ _ hs => exact keep ((setState_level _ _ r).trans (hs.level r))
  | wakePush => exact keep (push_level _ _ _ r)
  | giveUp => exact keep (free_level _ r)
  | forkAcquire _ _ hs => exact keep (hs.level r)
  | forkRunnable => exact keep (setState_level _ _ r)
  | forkPush => exact keep (push_level _ _ _ r)
  | reap _ _ hs => exact keep ((free_level _ r).trans (hs.level r))
  | @account c p =>
    simp only [State.setSelf, account_level, List.singleton_append, yieldsSince]
    split
    case isTrue hp =>
      subst hp
      exact nextLevel_levelOf h
    case isFalse => exact h
  | @boostCall c p pc pc' m _ _ _ hst =>
    obtain ⟨i, -, rfl, hp⟩ | ⟨i, pp, m₁, -, rfl, hp, rfl⟩ | ⟨i, pp, -, rfl, rfl⟩ :=
      boostStep_cases hst
    · exact keep (pop_level hp r)
    · simp only [BoostPc.resets, resetLevel_level, List.singleton_append, yieldsSince]
      split
      case isTrue => rfl
      case isFalse => exact (pop_level hp r).trans h
    · exact keep (push_level _ _ _ r)
  | @boostEnd c p =>
    have hb : ((s.mem.boostEnd p).proc r).level = if p = r then (0, 0) else (s.mem.proc r).level :=
      resetLevel_level p r
    simp only [State.setSelf, account_level, List.cons_append, List.nil_append, yieldsSince]
    split
    case isTrue hp =>
      subst hp
      exact nextLevel_levelOf (n := 0) (hb.trans (if_pos rfl))
    case isFalse hp => exact (hb.trans (if_neg hp)).trans h
  | @take c t p =>
    simp only [State.setTask, State.setProc, setProc_proc, List.singleton_append, yieldsSince]
    by_cases hp : r = p
    · subst hp
      simp [Proc.level, levelOf]
    · simpa [hp, Ne.symm hp] using h
  | _ => exact h

theorem level_eq_levelOf_reachable {x : State Cpu Q × List Event}
    (h : ((kernel Cpu ops).logged (events ops)).Reachable x) (p : ProcId) :
    (x.1.mem.proc p).level = levelOf (yieldsSince p x.2) := by
  refine Sys.logged_invariant _ (I := fun s l =>
    (s.mem.proc p).level = levelOf (yieldsSince p l)) ?_ ?_ h
  · rintro s rfl
    rfl
  · intro s l a s' _ hI hs
    exact (step_move hs).level p hI

/-- **The level of a process depends only on the ticks it has consumed**: in
every run of the kernel with the code's own queues, the level and the tick
count of a process are `levelOf` of the number of `yield_mlfq` calls it has
made since it was allocated or last reset by a boost, and the tick count is
below the slice of the level. -/
theorem level_of_ticks {x : State Cpu Rings × List Event}
    (h : ((kernel Cpu ringOps).logged (events ringOps)).Reachable x) (p : ProcId) :
    ((x.1.mem.proc p).queue, (x.1.mem.proc p).tick) = levelOf (yieldsSince p x.2) ∧
      (x.1.mem.proc p).tick < slice (x.1.mem.proc p).queue := by
  have hl := level_eq_levelOf_reachable h p
  refine ⟨hl, ?_⟩
  have hlt := levelOf_tick_lt (yieldsSince p x.2)
  rw [← hl] at hlt
  exact hlt

end Runs

/-- The first process runs on CPU `c` and makes one `yield_mlfq` call. -/
def firstYieldActs {Cpu : Type} (c : Cpu) : List (Act Cpu) :=
  userinitActs c ++ [.sched c, .sched c, .sched c, .self c firstProc, .call c firstProc .yield,
    .self c firstProc]

theorem level_of_ticks_firstYield : ∃ x : State (Fin 8) Rings × List Event,
    ((kernel (Fin 8) ringOps).logged (events ringOps)).Reachable x ∧
      yieldsSince firstProc x.2 = 1 ∧
      ((x.1.mem.proc firstProc).queue, (x.1.mem.proc firstProc).tick) = levelOf 1 := by
  have hrun : (((kernel (Fin 8) ringOps).logged (events ringOps)).runFrom (boot ringOps, [])
      (firstYieldActs 0)).map (fun x => yieldsSince firstProc x.2) = some 1 := by decide +kernel
  obtain ⟨x, hx, hy⟩ := Option.map_eq_some_iff.mp hrun
  have h₀ : ((kernel (Fin 8) ringOps).logged (events ringOps)).Reachable (boot ringOps, []) :=
    .init ⟨rfl, rfl⟩
  have hr := Sys.reachable_runFrom _ h₀ hx
  have hl := (level_of_ticks hr firstProc).1
  rw [hy] at hl
  exact ⟨x, hr, hy, hl⟩

end Mlfq
