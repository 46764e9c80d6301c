/-
Waiting for the log.

* `Log.sleepers_wait_commit` — whenever the lock is free, a process that sleeps in
  `begin_op` has no room for its operation or a commit in front of it, one that
  sleeps in `sys_sync` has not yet seen the commit it waits for; and there is
  another process, in an operation or in `commit`, that will wake it;
* `Log.no_panic` — if an operation that calls `log_write` has logged fewer than
  `MAXOPBLOCKS` blocks so far, also when it logs one of them again, none of the
  panics of log.c is ever reached.

`ncommit` is an `int`: what is said of `sys_sync` is said of the runs in which
`ncommit + 1` does not overflow.
-/
import CshellXv6.Lib.Counter
import CshellXv6.Xv6.LogInvariant
import Mathlib.Algebra.BigOperators.Ring.Finset

namespace Xv6.Log

open Monitor (Out St Registered NoLoss sum_move le_sum eq_zero_of_sum)

variable {α T : Type} {d d' : Log α} {l l' : Loc}

/-- Why a process waits on `&log`. -/
def reason (d : Log α) : Loc → Prop
  | .begin => d.committing = true ∨ LOGBLOCKS < d.lh.length + (d.outstanding + 1) * MAXOPBLOCKS
  | .syncing n => d.ncommit < n
  | _ => False

/-- A longer transaction, more operations or a commit keep the reasons. -/
theorem reason_mono (h : reason d l) (hc : d.committing = true → d'.committing = true)
    (hl : d'.committing = true ∨ d.lh.length ≤ d'.lh.length ∧ d.outstanding ≤ d'.outstanding)
    (hn : d'.ncommit = d.ncommit) : reason d' l := by
  cases l with
  | begin =>
    obtain h | h := h
    · exact .inl (hc h)
    · obtain hl | ⟨hlen, hout⟩ := hl
      · exact .inl hl
      · refine .inr (lt_of_lt_of_le h ?_)
        have := Nat.mul_le_mul_right MAXOPBLOCKS (Nat.succ_le_succ hout)
        exact Nat.add_le_add hlen this
  | syncing n =>
    show d'.ncommit < n
    rw [hn]
    exact h
  | _ => exact h

/-- What the holder's step leaves of the reasons; behind a wakeup nobody has
one. -/
theorem Does.keeps {k : Loc} {o : Out (Log α) Loc Unit} (h : Does d k o) (hr : reason d l) :
    reason o.shared l ∨ ∃ d' k', o = .wake () d' k' := by
  cases h with
  | began _ _ => exact .inl (reason_mono hr id (.inr ⟨le_rfl, Nat.le_succ _⟩) rfl)
  | logged _ _ _ => exact .inl (reason_mono hr id (.inr ⟨by simp [Out.shared], le_rfl⟩) rfl)
  | endPanic hc => exact .inl (reason_mono hr id (.inl hc) rfl)
  | endLast _ _ => exact .inl (reason_mono hr (fun _ => rfl) (.inl rfl) rfl)
  | endMore _ _ => exact .inr ⟨_, _, rfl⟩
  | committed => exact .inr ⟨_, _, rfl⟩
  | _ => exact .inl hr

/-- The process that goes to sleep has its reason. -/
theorem Does.waits {k : Loc} (h : Does d k (.wait () d' l')) : reason d' l' := by
  cases h with
  | beginWait h => exact h
  | syncWait h => exact h

variable [Fintype T] [DecidableEq T] {f : T → Loc} {t : T}

/-- Without the lock only a commit shortens the transaction. -/
theorem Goes.keeps {k k' : Loc} {i : Input α} (h : Goes d k i d' k')
    (hc : k.phase = true → d.committing = true) (hr : reason d l) : reason d' l := by
  cases h with
  | installed _ => exact reason_mono hr id (.inl (hc rfl)) rfl
  | _ => exact reason_mono hr id (.inr ⟨le_rfl, le_rfl⟩) rfl

/-- No wakeup on `&log` is lost. -/
theorem noLoss {procs : List T} (hall : ∀ t, t ∈ procs) :
    NoLoss (monitor (α := α) procs) (fun d l _ => reason d l) (fun _ d l _ => reason d l) where
  all := hall
  acquire _ h := h
  outside {s t i k d k' u l c} hr hk ho _ _ := by
    have hkeep : reason s.shared l → reason d l := by
      refine (outside_goes ho).keeps fun hp => ?_
      refine (invariant hr).control.flag.mpr ⟨t, ?_⟩
      simpa [St.locs, hk, Monitor.Pc.loc] using hp
    exact ⟨hkeep, fun _ => hkeep⟩
  inside {s t i k o u l c} _ _ ho _ _ h := by
    have hkeep := (inside_does ho).keeps h
    cases o with
    | work d' k' => exact hkeep.resolve_right (by simp)
    | wake c₀ d' k' => exact fun hne => absurd rfl hne
    | leave d' k' => exact hkeep.resolve_right (by simp)
    | wait c₀ d' k' => exact hkeep.resolve_right (by simp)
  waits _ _ ho := (inside_does ho).waits

/-! ### Somebody is there to wake the sleepers -/

/-- Where `ncommit + 1` is computed, it is an `int`. -/
def counted : Loc → Log α → Input α → Bool
  | .committed, d, _ | .sync, d, _ => d.ncommit != Int32.maxValue
  | _, _, _ => true

/-- What keeps a sleeper from being alone: outside a transaction the log is
empty, and a process waits in `sys_sync` for the next commit, which is sure to
come. -/
structure Busy (d : Log α) (f : T → Loc) : Prop where
  empty : d.committing = false → d.outstanding = 0 → d.lh = []
  sync : ∀ t n, f t = .syncing n → d.ncommit < n →
    n = d.ncommit + 1 ∧ (d.committing = true ∨ 0 < d.outstanding)

omit [Fintype T] in
theorem Busy.move (h : Busy d f) (he : d'.committing = false → d'.outstanding = 0 → d'.lh = [])
    (hn : d'.ncommit = d.ncommit ∧
        (d.committing = true ∨ 0 < d.outstanding → d'.committing = true ∨ 0 < d'.outstanding) ∨
      d'.ncommit = d.ncommit + 1 ∧ d.ncommit ≠ Int32.maxValue)
    (hs : ∀ n, l' = .syncing n → d'.ncommit < n →
      n = d'.ncommit + 1 ∧ (d'.committing = true ∨ 0 < d'.outstanding)) :
    Busy d' (Function.update f t l') := by
  refine ⟨he, fun u n hu hlt => ?_⟩
  by_cases hut : u = t
  · subst hut
    rw [Function.update_self] at hu
    exact hs n hu hlt
  · rw [Function.update_of_ne hut] at hu
    obtain ⟨heq, hkeep⟩ | ⟨heq, hmax⟩ := hn
    · rw [heq] at hlt ⊢
      obtain ⟨hnext, hbusy⟩ := h.sync u n hu hlt
      exact ⟨hnext, hkeep hbusy⟩
    · -- the commit that was waited for is this one
      rw [heq] at hlt
      have hold : d.ncommit < n := (Counter.add_one_le_iff hmax).mp (Int32.le_of_lt hlt)
      rw [(h.sync u n hu hold).1] at hlt
      exact absurd hlt Int32.lt_irrefl

theorem Busy.does (h : Busy d f) (hI : Inv d f) {o : Out (Log α) Loc Unit} (hd : Does d (f t) o)
    {i : Input α} (hg : counted (f t) d i = true) :
    Busy o.shared (Function.update f t o.loc) := by
  generalize hl : f t = l at hd hg
  cases hd with
  | began _ _ =>
    refine h.move (fun _ h0 => ?_) (.inl ⟨rfl, fun _ => .inr (Nat.succ_pos _)⟩) (by simp [Out.loc])
    cases h0
  | logged _ hout _ =>
    refine h.move (fun _ h0 => ?_) (.inl ⟨rfl, id⟩) (by simp [Out.loc])
    exact absurd h0 hout.ne'
  | endPanic hc =>
    refine h.move (fun hc' => ?_) (.inl ⟨rfl, fun _ => .inl hc⟩) (by simp [Out.loc])
    have hc' : d.committing = false := hc'
    rw [hc] at hc'
    cases hc'
  | endLast _ _ =>
    refine h.move (fun hc => ?_) (.inl ⟨rfl, fun _ => .inl rfl⟩) (by simp [Out.loc])
    cases hc
  | endMore hc hout =>
    refine h.move (fun _ h0 => ?_) (.inl ⟨rfl, fun _ => .inr (Nat.pos_of_ne_zero hout)⟩)
      (by simp [Out.loc])
    exact absurd h0 hout
  | committed =>
    have hst := hI.contents.stage t
    rw [hl] at hst
    exact h.move (fun _ _ => hst.2) (.inr ⟨rfl, by simpa [counted] using hg⟩) (by simp [Out.loc])
  | syncBusy hbusy =>
    refine h.move h.empty (.inl ⟨rfl, id⟩) fun n hn _ => ?_
    cases hn
    exact ⟨rfl, hbusy⟩
  | syncWait hlt =>
    refine h.move h.empty (.inl ⟨rfl, id⟩) fun n hn => ?_
    cases hn
    exact h.sync t _ hl
  | _ => exact h.move h.empty (.inl ⟨rfl, id⟩) (by simp [Out.loc])

omit [Fintype T] in
theorem Busy.goes (h : Busy d f) {i : Input α} (hg : Goes d (f t) i d' l') :
    Busy d' (Function.update f t l') := by
  generalize hl : f t = l at hg
  cases hg with
  | installed _ => exact h.move (fun _ _ => rfl) (.inl ⟨rfl, id⟩) (by simp)
  | recycle _ =>
    refine h.move h.empty (.inl ⟨rfl, id⟩) fun n hn => ?_
    exact h.sync t n (hl.trans hn)
  | _ => exact h.move h.empty (.inl ⟨rfl, id⟩) (by simp)

variable {procs : List T} {s : St T Loc (Log α) Unit}

theorem busy (h : ((monitor procs).limit counted).sys.Reachable s) : Busy s.shared s.locs := by
  have hJ : Inv s.shared s.locs ∧ Busy s.shared s.locs := by
    refine Monitor.view_invariant (.none ((monitor procs).limit counted))
      (J := fun d f => Inv d f ∧ Busy d f) ?_ ?_ ?_ h
    · rintro d f ⟨hhead, hfresh, hidle⟩
      rw [hfresh]
      exact ⟨inv_fresh hhead hidle, fun _ _ => rfl, fun t n ht => by simp [hidle] at ht⟩
    · rintro d f t i d' l' ⟨hI, hB⟩ ho
      exact ⟨hI.goes (outside_goes ho), hB.goes (outside_goes ho)⟩
    · rintro d f t i o ⟨hI, hB⟩ _ ho
      obtain ⟨hg, ho⟩ := Monitor.limit_inside.mp ho
      exact ⟨hI.does (inside_does ho), hB.does hI (inside_does ho) hg⟩
  exact hJ.2

/-- **Nobody waits for the log in vain.**  In every interleaving in which
`ncommit + 1` does not overflow: whenever `log.lock` is free, a process that
sleeps on `&log`, or is about to, has its reason to: in `begin_op` a commit or
the reservations of the operations under way, in `sys_sync` a commit that is
not over.  And another process is in an operation or in `commit`, at whose end
it will be woken. -/
theorem sleepers_wait_commit (hall : ∀ t, t ∈ procs)
    (h : ((monitor procs).limit counted).sys.Reachable s) (hlock : s.lock = none) {t : T}
    (hw : (s.pc t).waits = true) (hc : (s.chan t).isSome = true) :
    reason s.shared (s.locs t) ∧
      ∃ u, u ≠ t ∧ ((s.locs u).inOp = 1 ∨ (s.locs u).phase = true) := by
  obtain ⟨c, hc⟩ := Option.isSome_iff_exists.mp hc
  have hrun := Monitor.reachable_of_limit h
  have hr : reason s.shared (s.locs t) :=
    (noLoss hall).reason_of_registered hrun hlock ⟨hw, rfl, hc⟩
  have hI := invariant hrun
  have hB := busy h
  have hsome : s.shared.committing = true ∨ 0 < s.shared.outstanding := by
    cases hl : s.locs t with
    | begin =>
      rw [hl] at hr
      obtain hr | hr := hr
      · exact .inl hr
      · by_contra hno
        rw [not_or, Bool.not_eq_true, Nat.pos_iff_ne_zero, not_not] at hno
        -- nobody there: the log would be empty, with room for an operation
        rw [hB.empty hno.1 hno.2, hno.2] at hr
        exact absurd hr (by decide)
    | syncing n =>
      rw [hl] at hr
      exact (hB.sync t n hl hr).2
    | _ => rw [hl] at hr; exact hr.elim
  have hplain : (s.locs t).plain = true := by
    cases hl : s.locs t with
    | begin => rfl
    | syncing n => rfl
    | _ => rw [hl] at hr; exact hr.elim
  obtain ⟨hin, hp, -⟩ := Loc.plain_spec hplain
  refine ⟨hr, ?_⟩
  obtain hcom | hout := hsome
  · obtain ⟨u, hu⟩ := hI.control.flag.mp hcom
    refine ⟨u, ?_, .inr hu⟩
    rintro rfl
    rw [hu] at hp
    cases hp
  · rw [hI.control.count] at hout
    obtain ⟨u, -, hu⟩ := Finset.exists_ne_zero_of_sum_ne_zero hout.ne'
    refine ⟨u, ?_, .inl ?_⟩
    · rintro rfl
      exact hu hin
    · have hle : ∀ l : Loc, l.inOp ≤ 1 := by
        intro l
        induction l with
        | panicked l ih => exact ih
        | _ => simp [Loc.inOp]
      have := hle (s.locs u)
      omega

theorem sleepers_wait_oneOp : ∃ s : St Bool Loc (Log ℕ) Unit,
    ((monitor [false, true]).limit counted).sys.Reachable s ∧ (s.pc false).waits = true ∧
    reason s.shared (s.locs false) ∧
    ∃ u, u ≠ false ∧ ((s.locs u).inOp = 1 ∨ (s.locs u).phase = true) := by
  obtain ⟨s, hs, hlock, hw, hc⟩ := Sys.exists_of_run ((monitor [false, true]).limit counted).sys
    (oneOp ++ [.outside false .beginOp, .acquire false, .inside false .go, .release false,
      .sleep false])
    (p := fun s => s.lock = none ∧ (s.pc false).waits = true ∧ (s.chan false).isSome = true)
    (.init start_init) (by decide)
  exact ⟨s, hs, hw, sleepers_wait_commit (by decide) hs hlock hw hc⟩

/-! ### The reservations are enough -/

/-- The blocks an operation has logged. -/
def Loc.mine : Loc → List ℕ
  | op mine _ _ | logWrite _ mine _ _ => mine
  | _ => []

/-- The blocks an operation may still log. -/
def Loc.budget : Loc → ℕ
  | op mine _ _ | logWrite _ mine _ _ => MAXOPBLOCKS - mine.length
  | _ => 0

theorem budget_le (l : Loc) : l.budget ≤ l.inOp * MAXOPBLOCKS := by
  cases l with
  | op mine bufs dirty => simp [Loc.budget, Loc.inOp]
  | logWrite b mine bufs dirty => simp [Loc.budget, Loc.inOp]
  | _ => exact Nat.zero_le _

/-- An operation that is about to log a block, be it one that it has logged
before, has logged fewer than `MAXOPBLOCKS` so far. -/
def frugal : Loc → Log α → Input α → Bool
  | .logWrite _ mine _ _, _, _ => decide (mine.length < MAXOPBLOCKS)
  | _, _, _ => true

/-- The transaction and what the operations may still log fit in the log. -/
structure Budget (d : Log α) (f : T → Loc) : Prop where
  room : d.lh.length + ∑ t, (f t).budget ≤ LOGBLOCKS
  mine : ∀ t, ∀ b ∈ (f t).mine, b ∈ d.lh
  calm : ∀ t l, f t ≠ .panicked l

theorem Budget.move (h : Budget d f) (hb : d'.lh.length + l'.budget ≤ d.lh.length + (f t).budget)
    (hlh : ∀ b ∈ d.lh, b ∈ d'.lh) (hm : ∀ b ∈ l'.mine, b ∈ d'.lh) (hl : ∀ l, l' ≠ .panicked l) :
    Budget d' (Function.update f t l') := by
  refine ⟨?_, fun u b hu => ?_, fun u l => ?_⟩
  · have hsum := sum_move Loc.budget f t l'
    have hroom := h.room
    omega
  · by_cases hut : u = t
    · subst hut
      rw [Function.update_self] at hu
      exact hm b hu
    · rw [Function.update_of_ne hut] at hu
      exact hlh b (h.mine u b hu)
  · by_cases hut : u = t
    · subst hut
      rw [Function.update_self]
      exact hl l
    · rw [Function.update_of_ne hut]
      exact h.calm u l

omit [DecidableEq T] in
/-- A `log_write` has its room reserved. -/
theorem Budget.reserved (h : Budget d f) {b : ℕ} {mine bufs dirty : List ℕ}
    (hl : f t = .logWrite b mine bufs dirty) (hm : mine.length < MAXOPBLOCKS) :
    d.lh.length < LOGBLOCKS := by
  have hle := le_sum Loc.budget f t
  have hroom := h.room
  rw [hl] at hle
  have hb : (Loc.logWrite b mine bufs dirty).budget = MAXOPBLOCKS - mine.length := rfl
  omega

theorem Budget.does (h : Budget d f) (hI : Inv d f) {o : Out (Log α) Loc Unit}
    (hd : Does d (f t) o)
    (hg : ∀ b mine bufs dirty, f t = .logWrite b mine bufs dirty → mine.length < MAXOPBLOCKS) :
    Budget o.shared (Function.update f t o.loc) := by
  generalize hl : f t = l at hd
  cases hd with
  | began hc hroom =>
    refine ⟨?_, fun u b hu => ?_, fun u l => ?_⟩
    · have hsum := sum_move Loc.budget f t (.op [] [] [])
      -- the open operations have reserved `MAXOPBLOCKS` each, and one more fits
      have hle : ∑ u, (f u).budget ≤ d.outstanding * MAXOPBLOCKS := by
        rw [hI.control.count, Finset.sum_mul]
        exact Finset.sum_le_sum fun u _ => budget_le (f u)
      have hop : (Loc.op [] [] []).budget = MAXOPBLOCKS := rfl
      show d.lh.length + ∑ u, (Function.update f t (.op [] [] []) u).budget ≤ LOGBLOCKS
      rw [Nat.add_mul, Nat.one_mul] at hroom
      omega
    · by_cases hut : u = t
      · subst hut
        simp [Out.loc, Loc.mine] at hu
      · simp only [Function.update_of_ne hut] at hu
        exact h.mine u b hu
    · by_cases hut : u = t
      · subst hut
        simp [Out.loc]
      · simp only [Function.update_of_ne hut]
        exact h.calm u l
  | @panic b mine bufs dirty hp =>
    -- this operation has a block to spare, so the log is not full
    have hlen := h.reserved hl (hg b mine bufs dirty hl)
    have hout := le_sum Loc.inOp f t
    rw [← hI.control.count, hl] at hout
    have hone : (Loc.logWrite b mine bufs dirty).inOp = 1 := rfl
    omega
  | @absorbed b mine bufs dirty hout hb =>
    -- the log does not grow; the block may be new for this operation
    refine h.move ?_ (fun c hc => hc) (fun c hc => ?_) (by simp [Out.loc])
    · rw [hl]
      simp only [Out.shared, Out.loc, Loc.budget]
      split
      · exact le_rfl
      · simp
        omega
    · have hmine := h.mine t c
      rw [hl] at hmine
      simp only [Out.loc, Loc.mine] at hc hmine
      split at hc
      · exact hmine hc
      · obtain rfl | hc := List.mem_cons.mp hc
        · exact hb
        · exact hmine hc
  | @logged b mine bufs dirty hlen hout hb =>
    -- one block more in the log, one less to spare
    have hmine : ∀ c ∈ mine, c ∈ d.lh := by
      have := h.mine t
      rwa [hl] at this
    have hnew : b ∉ mine := fun hm => hb (hmine b hm)
    have hlt := hg b mine bufs dirty hl
    refine h.move ?_ (fun c hc => List.mem_append_left _ hc) (fun c hc => ?_) (by simp [Out.loc])
    · rw [hl]
      simp only [Out.shared, Out.loc, Loc.budget, List.contains_eq_mem, decide_eq_true_eq,
        if_neg hnew, List.length_append, List.length_cons, List.length_nil]
      omega
    · simp only [Out.loc, Loc.mine, List.contains_eq_mem, decide_eq_true_eq, if_neg hnew] at hc
      obtain rfl | hc := List.mem_cons.mp hc
      · exact List.mem_append_right _ (List.mem_singleton_self c)
      · exact List.mem_append_left _ (hmine c hc)
  | endPanic hc =>
    have := hI.control.no_commit (t := t) (by rw [hl]; rfl)
    rw [hc] at this
    cases this
  | _ =>
    refine h.move ?_ (fun c hc => hc) (by simp [Out.loc, Loc.mine]) (by simp [Out.loc])
    rw [hl]
    exact le_rfl

theorem mine_of_not_inOp {l : Loc} (h : l.inOp = 0) : l.mine = [] := by
  cases l with
  | op mine bufs dirty => cases h
  | logWrite b mine bufs dirty => cases h
  | _ => rfl

theorem Budget.goes (h : Budget d f) (hI : Inv d f) {i : Input α} (hg : Goes d (f t) i d' l') :
    Budget d' (Function.update f t l') := by
  generalize hl : f t = l at hg
  have hmine := h.mine t
  rw [hl] at hmine
  cases hg with
  | installed _ =>
    -- during a commit nobody is in an operation
    have hzero := hI.control.quiet (hI.control.flag.mpr ⟨t, by rw [hl]; rfl⟩)
    rw [hI.control.count] at hzero
    refine ⟨?_, fun u b hu => ?_, fun u l => ?_⟩
    · have hsum := sum_move Loc.budget f t .clear
      have hroom := h.room
      have hclear : Loc.clear.budget = 0 := rfl
      show 0 + ∑ u, (Function.update f t .clear u).budget ≤ LOGBLOCKS
      omega
    · by_cases hut : u = t
      · subst hut
        simp [Loc.mine] at hu
      · rw [Function.update_of_ne hut, mine_of_not_inOp (eq_zero_of_sum hzero u)] at hu
        cases hu
    · by_cases hut : u = t
      · subst hut
        simp
      · rw [Function.update_of_ne hut]
        exact h.calm u l
  | recycle _ =>
    rw [← hl, Function.update_eq_self]
    exact ⟨h.room, h.mine, h.calm⟩
  | bread _ => exact h.move (by rw [hl]; exact le_rfl) (fun c hc => hc) hmine (by simp)
  | write _ => exact h.move (by rw [hl]; exact le_rfl) (fun c hc => hc) hmine (by simp)
  | logWrite _ => exact h.move (by rw [hl]; exact le_rfl) (fun c hc => hc) hmine (by simp)
  | brelse _ _ => exact h.move (by rw [hl]; exact le_rfl) (fun c hc => hc) hmine (by simp)
  | _ =>
    exact h.move (Nat.add_le_add_left (Nat.zero_le _) _) (fun c hc => hc) (by simp [Loc.mine])
      (by simp)

theorem budget (h : ((monitor procs).limit frugal).sys.Reachable s) : Budget s.shared s.locs := by
  have hJ : Inv s.shared s.locs ∧ Budget s.shared s.locs := by
    refine Monitor.view_invariant (.none ((monitor procs).limit frugal))
      (J := fun d f => Inv d f ∧ Budget d f) ?_ ?_ ?_ h
    · rintro d f ⟨hhead, hfresh, hidle⟩
      rw [hfresh]
      refine ⟨inv_fresh hhead hidle, ?_, fun t b hb => ?_, fun t l => ?_⟩
      · simp [fresh, hidle, Loc.budget]
      · simp [hidle, Loc.mine] at hb
      · simp [hidle]
    · rintro d f t i d' l' ⟨hI, hB⟩ ho
      exact ⟨hI.goes (outside_goes ho), hB.goes hI (outside_goes ho)⟩
    · rintro d f t i o ⟨hI, hB⟩ _ ho
      obtain ⟨hg, ho⟩ := Monitor.limit_inside.mp ho
      refine ⟨hI.does (inside_does ho), hB.does hI (inside_does ho) fun b mine bufs dirty hl => ?_⟩
      rw [hl] at hg
      exact of_decide_eq_true hg
  exact hJ.2

/-- **The reservations of `begin_op` are enough.**  In every interleaving in
which each operation has logged fewer than `MAXOPBLOCKS` blocks before each of
its `log_write`s, so that none comes behind the block that fills its
reservation, the log never overflows, and no process reaches a panic of
log.c. -/
theorem no_panic (h : ((monitor procs).limit frugal).sys.Reachable s) :
    s.shared.lh.length + ∑ t, (s.locs t).budget ≤ LOGBLOCKS ∧ ∀ t l, s.locs t ≠ .panicked l :=
  ⟨(budget h).room, (budget h).calm⟩

theorem no_panic_oneOp : ∃ s : St Bool Loc (Log ℕ) Unit,
    ((monitor [false, true]).limit frugal).sys.Reachable s ∧ s.shared.lh = [3] ∧
    s.shared.lh.length + ∑ t, (s.locs t).budget ≤ LOGBLOCKS ∧ ∀ t l, s.locs t ≠ .panicked l := by
  obtain ⟨s, hs, hlh⟩ := Sys.exists_of_run ((monitor [false, true]).limit frugal).sys oneOp
    (p := fun s => s.shared.lh = [3]) (.init start_init) (by decide)
  exact ⟨s, hs, hlh, no_panic hs⟩

end Xv6.Log
