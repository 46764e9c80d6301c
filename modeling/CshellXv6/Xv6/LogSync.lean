/-
`sys_sync`.

* `Log.sync_saved` — when a process has returned from `sys_sync`, everything
  that any process had written before the call is on the disk, or in a
  committed transaction: no write of the log is older than the call and newer
  than every commit.
-/
import CshellXv6.Xv6.LogWaits

namespace Xv6.Log

open Monitor (Out St eq_zero_of_sum)

variable {α T : Type}

/-- What a log of writes, commits and calls of `sys_sync` records. -/
inductive Note (T : Type) where
  | write
  | commit
  | sync (t : T)
  deriving DecidableEq

/-- The notes of one step of process `t`. -/
def notes (t : T) (l : Loc) (_ : Log α) (i : Input α) : List (Note T) :=
  match l, i with
  | .op _ _ _, .write _ _ => [.write]
  | .writeHead, .go => [.commit]
  | .idle, .sysSync | .synced, .sysSync => [.sync t]
  | _, _ => []

/-- A write is not committed yet; the log has the latest note first. -/
def Unsaved : List (Note T) → Prop
  | [] => False
  | .write :: _ => True
  | .commit :: _ => False
  | .sync _ :: e => Unsaved e

variable [DecidableEq T]

/-- Everything written before the last `sys_sync` of process `t` has been
committed. -/
def Saved (t : T) : List (Note T) → Prop
  | [] => True
  | .write :: e => Saved t e
  | .commit :: _ => True
  | .sync u :: e => if u = t then ¬ Unsaved e else Saved t e

theorem Saved.of_all {t : T} {e : List (Note T)} (h : ¬ Unsaved e) : Saved t e := by
  induction e with
  | nil => trivial
  | cons n e ih =>
    cases n with
    | write => exact absurd trivial h
    | commit => trivial
    | sync u =>
      unfold Saved
      split
      · exact h
      · exact ih h

/-- The places behind the commit point. -/
def Loc.past : Loc → Bool
  | install _ | clear | committed => true
  | _ => false

theorem Loc.phase_of_past {l : Loc} (h : l.past = true) : l.phase = true := by
  cases l <;> first | rfl | cases h

variable {d d' : Log α} {f : T → Loc} {t : T} {l' : Loc} {e : List (Note T)}

/-- What the log says about the processes that sync. -/
structure Synced (d : Log α) (f : T → Loc) (e : List (Note T)) : Prop where
  unsaved : Unsaved e → (∃ t, (f t).dirty ≠ []) ∨ d.lh ≠ [] ∧ ∀ t, (f t).past = false
  waiting : ∀ t n, f t = .syncing n → n ≤ d.ncommit ∨ (∃ u, (f u).past = true) → Saved t e
  done : ∀ t, f t = .synced → Saved t e

theorem Synced.of_all (h : ¬ Unsaved e) (d : Log α) (f : T → Loc) : Synced d f e :=
  ⟨fun hu => absurd hu h, fun _ _ _ _ => .of_all h, fun _ _ => .of_all h⟩

/-- Steps that write nothing and commit nothing. -/
theorem Synced.move (h : Synced d f e) (hl : d'.lh = d.lh) (hn : d'.ncommit = d.ncommit)
    (hd : l'.dirty = (f t).dirty) (hp : l'.past = (f t).past)
    (hw : ∀ n, l' = .syncing n → n ≤ d.ncommit ∨ (∃ u, (f u).past = true) → Saved t e)
    (hs : l' = .synced → Saved t e) : Synced d' (Function.update f t l') e := by
  have hdirty : ∀ u, (Function.update f t l' u).dirty = (f u).dirty := by
    intro u
    by_cases hu : u = t
    · subst hu
      simpa using hd
    · simp [hu]
  have hpast : ∀ u, (Function.update f t l' u).past = (f u).past := by
    intro u
    by_cases hu : u = t
    · subst hu
      simpa using hp
    · simp [hu]
  refine ⟨fun hu => ?_, fun u n hu => ?_, fun u hu => ?_⟩
  · simp only [hdirty, hpast, hl]
    exact h.unsaved hu
  · simp only [hpast, hn]
    by_cases hut : u = t
    · subst hut
      rw [Function.update_self] at hu
      exact hw n hu
    · rw [Function.update_of_ne hut] at hu
      exact h.waiting u n hu
  · by_cases hut : u = t
    · subst hut
      rw [Function.update_self] at hu
      exact hs hu
    · rw [Function.update_of_ne hut] at hu
      exact h.done u hu

/-- A process that takes a dirty block into the transaction. -/
theorem Synced.take (h : Synced d f e) (hnone : ∀ u, (f u).phase = false) (hl : d'.lh ≠ [])
    (hn : d'.ncommit = d.ncommit) (hp : l'.phase = false) (hw : ∀ n, l' ≠ .syncing n)
    (hs : l' ≠ .synced) : Synced d' (Function.update f t l') e := by
  have hpast : ∀ u, (Function.update f t l' u).past = false := by
    intro u
    by_contra hu
    have hphase := Loc.phase_of_past (by simpa using hu)
    rw [phase_stay (hp.trans (hnone t).symm), hnone u] at hphase
    cases hphase
  refine ⟨fun _ => .inr ⟨hl, hpast⟩, fun u n hu => ?_, fun u hu => ?_⟩
  · simp only [hpast, hn]
    by_cases hut : u = t
    · subst hut
      rw [Function.update_self] at hu
      exact absurd hu (hw n)
    · rw [Function.update_of_ne hut] at hu
      exact fun hor => h.waiting u n hu (.inl (hor.resolve_right (by simp)))
  · by_cases hut : u = t
    · subst hut
      rw [Function.update_self] at hu
      exact absurd hu hs
    · rw [Function.update_of_ne hut] at hu
      exact h.done u hu

variable [Fintype T]

/-- Behind the commit point, and in an empty log, nothing is left to commit. -/
theorem Synced.none_unsaved (h : Synced d f e) (hzero : d.outstanding = 0) (hI : Inv d f)
    (hp : d.lh = [] ∨ (∃ t, (f t).past = true)) : ¬ Unsaved e := by
  intro hu
  rw [hI.control.count] at hzero
  obtain ⟨u, hd⟩ | ⟨hne, hpast⟩ := h.unsaved hu
  · exact hd (dirty_of_not_inOp (eq_zero_of_sum hzero u))
  · obtain hnil | ⟨u, hu⟩ := hp
    · exact hne hnil
    · rw [hpast u] at hu
      cases hu

theorem Synced.does (h : Synced d f e) (hI : Inv d f) (hB : Busy d f) {o : Out (Log α) Loc Unit}
    (hd : Does d (f t) o) {i : Input α} (hg : counted (f t) d i = true) :
    Synced o.shared (Function.update f t o.loc) e := by
  generalize hl : f t = l at hd hg
  have hpast : l.past = true → d.outstanding = 0 := fun hp =>
    hI.control.quiet (hI.control.flag.mpr ⟨t, by rw [hl]; exact Loc.phase_of_past hp⟩)
  cases hd with
  | absorbed _ hb =>
    have hc := hI.control.no_commit (t := t) (by rw [hl]; rfl)
    exact h.take (hI.control.no_phase hc) (List.ne_nil_of_mem hb) rfl rfl (by simp [Out.loc])
      (by simp [Out.loc])
  | logged _ _ _ =>
    have hc := hI.control.no_commit (t := t) (by rw [hl]; rfl)
    exact h.take (hI.control.no_phase hc) (by simp [Out.shared]) rfl rfl (by simp [Out.loc])
      (by simp [Out.loc])
  | committed =>
    exact .of_all (h.none_unsaved (hpast rfl) hI (.inr ⟨t, by rw [hl]; rfl⟩)) _ _
  | syncBusy _ =>
    refine h.move rfl rfl (by rw [hl]; rfl) (by rw [hl]; rfl) (fun n hn hor => ?_) (by simp [Out.loc])
    cases hn
    obtain hle | ⟨u, hu⟩ := hor
    · have hlt := (Counter.add_one_le_iff (by simpa [counted] using hg)).mp hle
      exact absurd hlt Int32.lt_irrefl
    · have hzero := hI.control.quiet (hI.control.flag.mpr ⟨u, Loc.phase_of_past hu⟩)
      exact .of_all (h.none_unsaved hzero hI (.inr ⟨u, hu⟩))
  | syncIdle hc hzero =>
    exact .of_all (h.none_unsaved hzero hI (.inl (hB.empty hc hzero))) _ _
  | syncWait _ =>
    refine h.move rfl rfl (by rw [hl]; rfl) (by rw [hl]; rfl) (fun n hn => ?_) (by simp [Out.loc])
    cases hn
    exact h.waiting t _ hl
  | syncDone hle =>
    exact h.move rfl rfl (by rw [hl]; rfl) (by rw [hl]; rfl) (by simp [Out.loc])
      fun _ => h.waiting t _ hl (.inl hle)
  | _ =>
    exact h.move rfl rfl (by rw [hl]; rfl) (by rw [hl]; rfl) (by simp [Out.loc])
      (by simp [Out.loc])

omit [Fintype T] in
/-- A write: it is younger than every call. -/
theorem Synced.write (h : Synced d f e) {b : ℕ} {v : α} {mine bufs dirty : List ℕ}
    (hl : f t = .op mine bufs dirty) :
    Synced { d with cache := Function.update d.cache b v }
      (Function.update f t (.op mine bufs (b :: dirty))) (.write :: e) := by
  refine ⟨fun _ => .inl ⟨t, by simp [Loc.dirty]⟩, fun u n hu hor => ?_, fun u hu => ?_⟩
  · have hut : u ≠ t := by
      rintro rfl
      simp at hu
    rw [Function.update_of_ne hut] at hu
    refine h.waiting u n hu (hor.imp id fun hpast => ?_)
    obtain ⟨w, hw⟩ := hpast
    refine ⟨w, ?_⟩
    by_cases hwt : w = t
    · subst hwt
      simp [Loc.past] at hw
    · rwa [Function.update_of_ne hwt] at hw
  · have hut : u ≠ t := by
      rintro rfl
      simp at hu
    rw [Function.update_of_ne hut] at hu
    exact h.done u hu

omit [Fintype T] in
/-- A call: it is noted, and the process is on its way. -/
theorem Synced.call (h : Synced d f e) (hl : f t = .idle ∨ f t = .synced) :
    Synced d (Function.update f t .sync) (.sync t :: e) := by
  have hsame : ∀ w, (Function.update f t .sync w).dirty = (f w).dirty ∧
      (Function.update f t .sync w).past = (f w).past := by
    intro w
    by_cases hw : w = t
    · subst hw
      obtain hl | hl := hl <;> simp [hl, Loc.dirty, Loc.past]
    · simp [hw]
  have hsaved : ∀ u, u ≠ t → Saved u e → Saved u (.sync t :: e) := by
    intro u hut hs
    unfold Saved
    rw [if_neg (Ne.symm hut)]
    exact hs
  refine ⟨fun hu => ?_, fun u n hu hor => ?_, fun u hu => ?_⟩
  · simp only [hsame]
    exact h.unsaved hu
  · have hut : u ≠ t := by
      rintro rfl
      simp at hu
    rw [Function.update_of_ne hut] at hu
    simp only [hsame] at hor
    exact hsaved u hut (h.waiting u n hu hor)
  · have hut : u ≠ t := by
      rintro rfl
      simp at hu
    rw [Function.update_of_ne hut] at hu
    exact hsaved u hut (h.done u hu)

theorem Synced.goes (h : Synced d f e) (hI : Inv d f) {i : Input α} (hg : Goes d (f t) i d' l') :
    Synced d' (Function.update f t l') (notes t (f t) d i ++ e) := by
  generalize hl : f t = l at hg
  have hzero : l.phase = true → d.outstanding = 0 := fun hp =>
    hI.control.quiet (hI.control.flag.mpr ⟨t, by rw [hl]; exact hp⟩)
  have hpast : l.past = true → ¬ Unsaved e := fun hp =>
    h.none_unsaved (hzero (Loc.phase_of_past hp)) hI (.inr ⟨t, by rw [hl]; exact hp⟩)
  cases hg with
  | write _ => exact h.write hl
  | beginOp hidle =>
    obtain rfl | rfl := hidle
    · exact h.move rfl rfl (by rw [hl]; rfl) (by rw [hl]; rfl) (by simp) (by simp)
    · exact h.move rfl rfl (by rw [hl]; rfl) (by rw [hl]; rfl) (by simp) (by simp)
  | sysSync hidle =>
    have hn : notes t l d (.sysSync : Input α) = [.sync t] := by obtain rfl | rfl := hidle <;> rfl
    rw [hn]
    exact h.call (by rw [hl]; exact hidle)
  | recycle _ =>
    have hn : ∀ b, notes t l' d (.recycle b : Input α) = [] := by intro b; cases l' <;> rfl
    rw [hn]
    exact h.move rfl rfl (by rw [hl]) (by rw [hl])
      (fun n hn => h.waiting t n (hl.trans hn)) fun hs => h.done t (hl.trans hs)
  | nothing hnil => exact .of_all (h.none_unsaved (hzero rfl) hI (.inl hnil)) _ _
  | writeHead => exact .of_all (show ¬ Unsaved (.commit :: e) from not_false) _ _
  | install _ => exact .of_all (hpast rfl) _ _
  | installed _ => exact .of_all (hpast rfl) _ _
  | clear => exact .of_all (hpast rfl) _ _
  | _ => exact h.move rfl rfl (by rw [hl]; rfl) (by rw [hl]; rfl) (by simp) (by simp)

omit [DecidableEq T] [Fintype T] in
/-- The notes are those of steps without the lock. -/
theorem notes_inside {o : Out (Log α) Loc Unit} {l : Loc} {i : Input α} (h : inside l d = some o) :
    notes t l d i = [] := by
  cases inside_does h <;> cases i <;> rfl

variable {procs : List T}

/-- **`sys_sync` keeps its promise.**  In every interleaving in which
`ncommit + 1` does not overflow: when a process has returned from `sys_sync`,
every write that was made before its call, by any process, has been committed
to the disk. -/
theorem sync_saved {x : St T Loc (Log α) Unit × List (Note T)}
    (h : (((monitor procs).limit counted).sys.logged (Monitor.events notes)).Reachable x) {t : T}
    (ht : x.1.locs t = .synced) : Saved t x.2 := by
  have hJ : Inv x.1.shared x.1.locs ∧ Busy x.1.shared x.1.locs ∧ Synced x.1.shared x.1.locs x.2 := by
    refine Monitor.logged_view_invariant (.none ((monitor procs).limit counted))
      (J := fun d f e => Inv d f ∧ Busy d f ∧ Synced d f e) ?_ ?_ ?_ h
    · rintro d f ⟨hhead, hfresh, hidle⟩
      rw [hfresh]
      exact ⟨inv_fresh hhead hidle, ⟨fun _ _ => rfl, fun t n ht => by simp [hidle] at ht⟩,
        .of_all (show ¬ Unsaved ([] : List (Note T)) from not_false) _ _⟩
    · rintro d f e t i d' l' ⟨hI, hB, hS⟩ ho
      exact ⟨hI.goes (outside_goes ho), hB.goes (outside_goes ho), hS.goes hI (outside_goes ho)⟩
    · rintro d f e t i o ⟨hI, hB, hS⟩ _ ho
      obtain ⟨hg, ho⟩ := Monitor.limit_inside.mp ho
      rw [notes_inside (l := f t) (d := d) ho]
      exact ⟨hI.does (inside_does ho), hB.does hI (inside_does ho) hg,
        hS.does hI hB (inside_does ho) hg⟩
  exact hJ.2.2.done t ht

/-- A process syncs while another one is in an operation, and sleeps until
that one has committed. -/
def syncDuring : List (Monitor.Act Bool (Input ℕ)) :=
  oneOp.take 9 ++
    [.outside false .sysSync, .acquire false, .inside false .go, .inside false .go, .release false,
    .sleep false] ++ oneOp.drop 9 ++ List.replicate 7 (.outside true .go) ++
    [.acquire true, .inside true .go, .scan true, .scan true, .scan true, .inside true .go,
    .acquire false, .inside false .go]

theorem sync_saved_during : ∃ x : St Bool Loc (Log ℕ) Unit × List (Note Bool),
    (((monitor [false, true]).limit counted).sys.logged (Monitor.events notes)).Reachable x ∧
    x.2 = [.commit, .sync false, .write] ∧ Saved false x.2 := by
  obtain ⟨x, hx, ht, hnotes⟩ := Sys.exists_of_run
    (((monitor [false, true]).limit counted).sys.logged (Monitor.events notes)) syncDuring
    (p := fun x => x.1.locs false = .synced ∧ x.2 = [.commit, .sync false, .write])
    (.init (show (((monitor [false, true]).limit counted).sys.logged (Monitor.events notes)).init
      (start, []) from ⟨start_init, rfl⟩)) (by decide)
  exact ⟨x, hx, hnotes, sync_saved hx ht⟩

end Xv6.Log
