/-
Invariants of the log.

Three properties of the log and the places of the processes around it, kept by
every step:

* `Log.Control` — `outstanding` counts the operations, `committing` says that a
  process is in `commit`, and then there is no operation;
* `Log.Refs` — a buffer's reference count is the number of processes that hold
  it, plus one while its block is in the transaction and not yet installed;
* `Log.Contents` — outside the transaction the buffers agree with the disk, and
  at every stage of `commit` what the disk is about to become is known.

`Log.invariant` puts them together.
-/
import CshellXv6.Xv6.Log

namespace Xv6.Log

open Monitor (Out St sum_move sum_stay le_sum eq_zero_of_sum)

/-- 1 in an operation, 0 outside. -/
def Loc.inOp : Loc → ℕ
  | op _ _ _ | logWrite _ _ _ _ | ending => 1
  | panicked l => l.inOp
  | _ => 0

/-- The places in `commit`, up to the end of `end_op`. -/
def Loc.phase : Loc → Bool
  | commit | writeLog _ | writeHead | install _ | clear | committed => true
  | _ => false

def Loc.bufs : Loc → List ℕ
  | op _ bufs _ | logWrite _ _ bufs _ => bufs
  | panicked l => l.bufs
  | _ => []

def Loc.dirty : Loc → List ℕ
  | op _ _ dirty | logWrite _ _ _ dirty => dirty
  | panicked l => l.dirty
  | _ => []

/-- Outside operations and `commit`. -/
def Loc.plain : Loc → Bool
  | idle | begin | ended | sync | syncing _ | synced => true
  | _ => false

/-- How many blocks of the transaction are installed and unpinned. -/
def Loc.installed : Loc → ℕ
  | install tail => tail
  | _ => 0

variable {α T : Type} [Fintype T] [DecidableEq T] {d d' : Log α} {f : T → Loc} {t : T} {l' : Loc}

/-! ### Who is in an operation, who commits -/

structure Control (d : Log α) (f : T → Loc) : Prop where
  count : d.outstanding = ∑ t, (f t).inOp
  alone : ∀ t u, (f t).phase = true → (f u).phase = true → t = u
  flag : d.committing = true ↔ ∃ t, (f t).phase = true
  quiet : d.committing = true → d.outstanding = 0

omit [DecidableEq T] in
/-- While a process is in an operation, nobody commits. -/
theorem Control.no_commit (h : Control d f) (ht : (f t).inOp = 1) : d.committing = false := by
  by_contra hc
  have hzero := h.quiet (by simpa using hc)
  have := le_sum Loc.inOp f t
  rw [h.count] at hzero
  omega

omit [DecidableEq T] in
theorem Control.no_phase (h : Control d f) (hc : d.committing = false) (u : T) :
    (f u).phase = false := by
  by_contra hu
  have := h.flag.mpr ⟨u, by simpa using hu⟩
  rw [hc] at this
  cases this

omit [Fintype T] in
/-- Who is in `commit`, when a process moves that stays in it or out of it. -/
theorem phase_stay (hp : l'.phase = (f t).phase) (u : T) :
    (Function.update f t l' u).phase = (f u).phase := by
  by_cases hu : u = t
  · subst hu
    simpa using hp
  · simp [hu]

/-- Steps that change neither the counters nor the kind of place. -/
theorem Control.move (h : Control d f) (ho : d'.outstanding = d.outstanding)
    (hc : d'.committing = d.committing) (hin : l'.inOp = (f t).inOp)
    (hp : l'.phase = (f t).phase) : Control d' (Function.update f t l') := by
  have hphase := phase_stay hp
  refine ⟨?_, fun u v hu hv => h.alone u v (hphase u ▸ hu) (hphase v ▸ hv), ?_, ?_⟩
  · rw [ho, h.count, sum_stay hin]
  · rw [hc, h.flag]
    simp only [hphase]
  · rw [hc, ho]
    exact h.quiet

/-- While nobody commits, a process enters or leaves an operation. -/
theorem Control.recount (h : Control d f) (hc : d.committing = false)
    (ho : d'.outstanding + (f t).inOp = d.outstanding + l'.inOp)
    (hc' : d'.committing = false) (hp : l'.phase = false) :
    Control d' (Function.update f t l') := by
  have hnone : ∀ u, (Function.update f t l' u).phase = false := fun u => by
    rw [phase_stay (hp.trans (h.no_phase hc t).symm), h.no_phase hc u]
  refine ⟨?_, fun u v hu => ?_, by simp [hc', hnone], by simp [hc']⟩
  · have := sum_move Loc.inOp f t l'
    have hcount := h.count
    omega
  · rw [hnone u] at hu
    cases hu

/-- The last operation ends: its process will commit. -/
theorem Control.last (h : Control d f) (hc : d.committing = false) (hin : (f t).inOp = 1)
    (ho : d.outstanding - 1 = 0) :
    Control { d with outstanding := d.outstanding - 1, committing := true }
      (Function.update f t .commit) := by
  have hnone := h.no_phase hc
  have honly : ∀ u, (Function.update f t .commit u).phase = true → u = t := by
    intro u hu
    by_contra hut
    rw [Function.update_of_ne hut, hnone u] at hu
    cases hu
  refine ⟨?_, fun u v hu hv => ?_, ?_, fun _ => ho⟩
  · have := sum_move Loc.inOp f t .commit
    have hcount := h.count
    have hcommit : Loc.commit.inOp = 0 := rfl
    show d.outstanding - 1 = _
    omega
  · rw [honly u hu, honly v hv]
  · exact ⟨fun _ => ⟨t, by simp [Loc.phase]⟩, fun _ => rfl⟩

/-- The commit is over. -/
theorem Control.over (h : Control d f) (hp : (f t).phase = true) (hin : (f t).inOp = 0) :
    Control { d with committing := false, ncommit := d.ncommit + 1 }
      (Function.update f t .ended) := by
  -- it was the only process in `commit`, so now there is none
  have hnone : ∀ u, (Function.update f t .ended u).phase = false := by
    intro u
    by_cases hu : u = t
    · subst hu
      simp [Loc.phase]
    · rw [Function.update_of_ne hu]
      by_contra hpu
      exact hu (h.alone u t (by simpa using hpu) hp)
  refine ⟨?_, fun u v hu => ?_, by simp [hnone], fun hc => by cases hc⟩
  · have hsum : ∑ u, (Function.update f t .ended u).inOp = ∑ u, (f u).inOp := sum_stay hin.symm
    rw [hsum]
    exact h.count
  · rw [hnone u] at hu
    cases hu

omit [DecidableEq T] in
/-- Only the process that commits installs. -/
theorem Control.sum_installed (h : Control d f) (hp : (f t).phase = true) :
    ∑ u, (f u).installed = (f t).installed := by
  refine Finset.sum_eq_single t (fun u _ hu => ?_) fun hn => absurd (Finset.mem_univ t) hn
  have hpu : (f u).phase = false := by
    by_contra hpu
    exact hu (h.alone u t (by simpa using hpu) hp)
  cases hl : f u with
  | install tail => simp [hl, Loc.phase] at hpu
  | _ => rfl

omit [DecidableEq T] in
theorem Control.sum_installed_zero (h : Control d f) (hc : d.committing = false) :
    ∑ u, (f u).installed = 0 := by
  refine Finset.sum_eq_zero fun u _ => ?_
  have hpu := h.no_phase hc u
  cases hl : f u with
  | install tail => simp [hl, Loc.phase] at hpu
  | _ => rfl

/-! ### Who holds a buffer -/

/-- The blocks that are pinned. -/
def pinned (d : Log α) (f : T → Loc) : List ℕ := d.lh.drop (∑ t, (f t).installed)

structure Refs (d : Log α) (f : T → Loc) : Prop where
  held : ∀ t, ∀ b ∈ (f t).dirty, b ∈ (f t).bufs
  refs : ∀ b, d.refcnt b = ∑ t, (f t).bufs.count b + (pinned d f).count b

/-- A step that keeps the books. -/
theorem Refs.step (h : Refs d f) (hd : ∀ b ∈ l'.dirty, b ∈ l'.bufs)
    (hb : ∀ b, d'.refcnt b + (f t).bufs.count b + (pinned d f).count b =
      d.refcnt b + l'.bufs.count b + (pinned d' (Function.update f t l')).count b) :
    Refs d' (Function.update f t l') := by
  constructor
  · intro u b hu
    by_cases hut : u = t
    · subst hut
      rw [Function.update_self] at hu ⊢
      exact hd b hu
    · rw [Function.update_of_ne hut] at hu ⊢
      exact h.held u b hu
  · intro b
    have hsum := sum_move (fun l => l.bufs.count b) f t l'
    have hrefs := h.refs b
    have hbook := hb b
    omega

/-- Steps that touch no buffer and no part of the transaction. -/
theorem Refs.move (h : Refs d f) (hr : d'.refcnt = d.refcnt) (hl : d'.lh = d.lh)
    (hb : l'.bufs = (f t).bufs) (hd : ∀ b ∈ l'.dirty, b ∈ l'.bufs)
    (hi : l'.installed = (f t).installed) : Refs d' (Function.update f t l') := by
  have hpin : pinned d' (Function.update f t l') = pinned d f := by
    rw [pinned, pinned, hl, sum_stay hi]
  refine h.step hd fun b => ?_
  rw [hr, hb, hpin]

omit [DecidableEq T] in
/-- Nobody holds a buffer that may be recycled, and it is not pinned. -/
theorem Refs.free (h : Refs d f) {b : ℕ} (hb : d.refcnt b = 0) :
    (∀ t, b ∉ (f t).bufs) ∧ b ∉ pinned d f := by
  have hrefs := h.refs b
  rw [hb] at hrefs
  refine ⟨fun t ht => ?_, fun hp => ?_⟩
  · have hle := le_sum (fun l => l.bufs.count b) f t
    have hpos := List.count_pos_iff.mpr ht
    omega
  · have hpos := List.count_pos_iff.mpr hp
    omega

/-- `bread` and `brelse`. -/
theorem Refs.bread (h : Refs d f) {b : ℕ} {mine bufs dirty : List ℕ}
    (ht : f t = .op mine bufs dirty) :
    Refs (d.pin b) (Function.update f t (.op mine (b :: bufs) dirty)) := by
  have hpin : pinned (d.pin b) (Function.update f t (.op mine (b :: bufs) dirty)) = pinned d f := by
    rw [pinned, pinned, sum_stay (w := Loc.installed) (by rw [ht]; rfl)]
    rfl
  refine h.step (fun c hc => ?_) fun c => ?_
  · have := h.held t c (by rw [ht]; exact hc)
    rw [ht] at this
    exact List.mem_cons_of_mem b this
  · rw [hpin, ht]
    by_cases hcb : c = b
    · subst hcb
      simp [pin, Loc.bufs]
      omega
    · simp [pin, Loc.bufs, hcb, Ne.symm hcb]

theorem Refs.brelse (h : Refs d f) {b : ℕ} {mine bufs dirty : List ℕ}
    (ht : f t = .op mine bufs dirty) (hb : b ∈ bufs) (hd : b ∉ dirty) :
    Refs (d.unpin b) (Function.update f t (.op mine (bufs.erase b) dirty)) := by
  have hpin : pinned (d.unpin b) (Function.update f t (.op mine (bufs.erase b) dirty)) =
      pinned d f := by
    rw [pinned, pinned, sum_stay (w := Loc.installed) (by rw [ht]; rfl)]
    rfl
  refine h.step (fun c hc => ?_) fun c => ?_
  · have hmem := h.held t c (by rw [ht]; exact hc)
    rw [ht] at hmem
    refine (List.mem_erase_of_ne ?_).mpr hmem
    rintro rfl
    exact hd hc
  · rw [hpin, ht]
    have hpos := List.count_pos_iff.mpr hb
    by_cases hcb : c = b
    · subst hcb
      have hle := le_sum (fun l => l.bufs.count c) f t
      rw [ht] at hle
      have hrefs := h.refs c
      simp only [unpin, Loc.bufs, Function.update_self, List.count_erase_self] at hle ⊢
      omega
    · simp [unpin, Loc.bufs, hcb, List.count_erase_of_ne hcb]

/-- `log_write` pins a block that is new in the transaction. -/
theorem Refs.logged (h : Refs d f) (hctl : Control d f) {b : ℕ} {mine mine' bufs dirty : List ℕ}
    (ht : f t = .logWrite b mine bufs dirty) :
    Refs { d.pin b with lh := d.lh ++ [b] }
      (Function.update f t (.op mine' bufs (dirty.filter (· != b)))) := by
  have hzero := hctl.sum_installed_zero (hctl.no_commit (t := t) (by rw [ht]; rfl))
  have hzero' : ∑ u, (Function.update f t (.op mine' bufs (dirty.filter (· != b))) u).installed =
      0 := by
    rw [sum_stay (w := Loc.installed) (by rw [ht]; rfl), hzero]
  refine h.step (fun c hc => ?_) fun c => ?_
  · have := h.held t c (by rw [ht]; exact (List.mem_filter.mp hc).1)
    rwa [ht] at this
  · rw [ht, pinned, pinned, hzero, hzero']
    by_cases hcb : c = b
    · subst hcb
      simp [pin, Loc.bufs]
      omega
    · simp [pin, Loc.bufs, hcb, Ne.symm hcb, List.count_append]

/-- `install_trans` unpins the block it has installed. -/
theorem Refs.install (h : Refs d f) (hctl : Control d f) {tail b : ℕ} (ht : f t = .install tail)
    (hb : d.lh[tail]? = some b) {cache : ℕ → α} {disk : Disk α} :
    Refs (unpin { d with cache := cache, disk := disk } b)
      (Function.update f t (.install (tail + 1))) := by
  have htail : ∑ u, (f u).installed = tail := by
    rw [hctl.sum_installed (t := t) (by rw [ht]; rfl), ht]
    rfl
  have htail' : ∑ u, (Function.update f t (.install (tail + 1)) u).installed = tail + 1 := by
    have := sum_move Loc.installed f t (.install (tail + 1))
    rw [htail, ht] at this
    simp only [Loc.installed] at this ⊢
    omega
  -- the block at `tail` leaves the pinned ones
  have hdrop : d.lh.drop tail = b :: d.lh.drop (tail + 1) := by
    obtain ⟨hlt, hget⟩ := List.getElem?_eq_some_iff.mp hb
    rw [← hget]
    exact List.drop_eq_getElem_cons hlt
  refine h.step (fun c hc => by cases hc) fun c => ?_
  have hrefs := h.refs c
  rw [pinned, htail, hdrop] at hrefs
  rw [pinned, pinned, htail, htail', hdrop, ht]
  by_cases hcb : c = b
  · subst hcb
    simp only [List.count_cons_self] at hrefs
    simp [unpin, Loc.bufs]
    omega
  · simp [unpin, Loc.bufs, hcb, Ne.symm hcb]

/-- Behind it, nothing is pinned. -/
theorem Refs.installed (h : Refs d f) (hctl : Control d f) {tail : ℕ} (ht : f t = .install tail)
    (hlen : d.lh.length ≤ tail) :
    Refs { d with lh := [] } (Function.update f t .clear) := by
  have htail : ∑ u, (f u).installed = tail := by
    rw [hctl.sum_installed (t := t) (by rw [ht]; rfl), ht]
    rfl
  refine h.step (fun c hc => by cases hc) fun c => ?_
  rw [pinned, pinned, htail, ht, List.drop_eq_nil_of_le hlen]
  simp [Loc.bufs]

/-! ### What is on the disk -/

/-- What is known at each stage of a commit.  Up to the header write the log on
the disk is empty; from there on, installing what is left gives the buffers. -/
def Stage (d : Log α) : Loc → Prop
  | .commit => d.disk.head = []
  | .writeLog tail =>
    d.disk.head = [] ∧ RedoLog.Copies d.disk.logged d.cache (d.lh.take tail) 0
  | .writeHead => d.disk.head = [] ∧ RedoLog.Copies d.disk.logged d.cache d.lh 0
  | .install tail => d.disk.head = d.lh ∧ RedoLog.Copies d.disk.logged d.cache d.lh 0 ∧
      RedoLog.replay d.disk.logged (d.lh.drop tail) tail d.disk.home = d.cache
  | .clear => d.lh = [] ∧ d.disk.home = d.cache ∧ d.disk.recovered = d.cache
  | .committed => d.disk.head = [] ∧ d.lh = []
  | _ => True

structure Contents (d : Log α) (f : T → Loc) : Prop where
  room : d.lh.length ≤ LOGBLOCKS
  clean : ∀ b, b ∉ d.lh → (∀ t, b ∉ (f t).dirty) → d.cache b = d.disk.home b
  stage : ∀ t, Stage d (f t)
  rest : d.committing = false → d.disk.head = []

theorem stage_congr {l : Loc} (hl : d'.lh = d.lh) (hc : d'.cache = d.cache) (hd : d'.disk = d.disk) :
    Stage d' l ↔ Stage d l := by
  cases l <;> simp only [Stage, hl, hc, hd]

theorem stage_of_not_phase {l : Loc} (h : l.phase = false) : Stage d l := by
  cases l <;> trivial

omit [Fintype T] in
/-- A process at a new place, the others out of `commit`. -/
theorem stage_update (hs : Stage d' l') (hu : ∀ u, u ≠ t → (f u).phase = false) (u : T) :
    Stage d' (Function.update f t l' u) := by
  by_cases hut : u = t
  · subst hut
    rw [Function.update_self]
    exact hs
  · rw [Function.update_of_ne hut]
    exact stage_of_not_phase (hu u hut)

omit [Fintype T] in
/-- Steps that leave the transaction, the buffers and the disk. -/
theorem Contents.move (h : Contents d f) (hl : d'.lh = d.lh) (hc : d'.cache = d.cache)
    (hd : d'.disk = d.disk) (hrest : d'.committing = false → d'.disk.head = [])
    (hdirty : ∀ b, b ∈ (f t).dirty → b ∈ l'.dirty ∨ b ∈ d.lh) (hs : Stage d l') :
    Contents d' (Function.update f t l') := by
  refine ⟨by rw [hl]; exact h.room, fun b hb hnd => ?_, fun u => ?_, hrest⟩
  · rw [hc, hd]
    rw [hl] at hb
    refine h.clean b hb fun u hu => ?_
    by_cases hut : u = t
    · subst hut
      have := hnd u
      rw [Function.update_self] at this
      exact (hdirty b hu).elim this hb
    · have := hnd u
      rw [Function.update_of_ne hut] at this
      exact this hu
  · rw [stage_congr hl hc hd]
    by_cases hut : u = t
    · subst hut
      rw [Function.update_self]
      exact hs
    · rw [Function.update_of_ne hut]
      exact h.stage u

omit [Fintype T] in
/-- An operation changes a buffer it holds. -/
theorem Contents.write (h : Contents d f) (hnone : ∀ u, (f u).phase = false) {b : ℕ} {v : α}
    {mine bufs dirty : List ℕ} (ht : f t = .op mine bufs dirty) :
    Contents { d with cache := Function.update d.cache b v }
      (Function.update f t (.op mine bufs (b :: dirty))) := by
  refine ⟨h.room, fun c hc hnd => ?_, stage_update trivial fun u _ => hnone u, h.rest⟩
  have hnt := hnd t
  rw [Function.update_self] at hnt
  have hcb : c ≠ b := by
    rintro rfl
    exact hnt List.mem_cons_self
  show Function.update d.cache b v c = _
  rw [Function.update_of_ne hcb]
  refine h.clean c hc fun u hu => ?_
  by_cases hut : u = t
  · subst hut
    rw [ht] at hu
    exact hnt (List.mem_cons_of_mem b hu)
  · have := hnd u
    rw [Function.update_of_ne hut] at this
    exact this hu

omit [Fintype T] in
/-- `log_write` takes a block into the transaction. -/
theorem Contents.logged (h : Contents d f) (hnone : ∀ u, (f u).phase = false) {b : ℕ}
    {mine mine' bufs dirty : List ℕ} (ht : f t = .logWrite b mine bufs dirty)
    (hlen : d.lh.length < LOGBLOCKS) :
    Contents { d.pin b with lh := d.lh ++ [b] }
      (Function.update f t (.op mine' bufs (dirty.filter (· != b)))) := by
  refine ⟨by rw [List.length_append]; exact hlen, fun c hc hnd => ?_,
    stage_update trivial fun u _ => hnone u, h.rest⟩
  have hc' : c ∉ d.lh ++ [b] := hc
  rw [List.mem_append, not_or, List.mem_singleton] at hc'
  refine h.clean c hc'.1 fun u hu => ?_
  by_cases hut : u = t
  · subst hut
    have := hnd u
    rw [Function.update_self] at this
    rw [ht] at hu
    exact this (List.mem_filter.mpr ⟨hu, by simpa using hc'.2⟩)
  · have := hnd u
    rw [Function.update_of_ne hut] at this
    exact this hu

/-- Outside an operation nothing is changed and not yet logged. -/
theorem dirty_of_not_inOp {l : Loc} (h : l.inOp = 0) : l.dirty = [] := by
  induction l with
  | panicked l ih => exact ih h
  | op mine bufs dirty => cases h
  | logWrite b mine bufs dirty => cases h
  | _ => rfl

omit [DecidableEq T] in
/-- During a commit, a block outside the transaction is on the disk as it is in
its buffer. -/
theorem Contents.settled (h : Contents d f) (hctl : Control d f) (hp : (f t).phase = true) {b : ℕ}
    (hb : b ∉ d.lh) : d.cache b = d.disk.home b := by
  refine h.clean b hb fun u hu => ?_
  have hzero := hctl.quiet (hctl.flag.mpr ⟨t, hp⟩)
  rw [hctl.count] at hzero
  rw [dirty_of_not_inOp (eq_zero_of_sum hzero u)] at hu
  cases hu

omit [DecidableEq T] in
/-- The other processes are out of `commit`. -/
theorem Control.others (h : Control d f) (hp : (f t).phase = true) (u : T) (hu : u ≠ t) :
    (f u).phase = false := by
  by_contra hpu
  exact hu (h.alone u t (by simpa using hpu) hp)

/-- A step of `commit` that leaves the dirty blocks and the flag alone. -/
theorem Control.contents (hctl : Control d f) (hp : (f t).phase = true)
    (hroom : d'.lh.length ≤ LOGBLOCKS) (hc : d'.committing = d.committing)
    (hclean : ∀ b, b ∉ d'.lh → d'.cache b = d'.disk.home b) (hs : Stage d' l') :
    Contents d' (Function.update f t l') := by
  refine ⟨hroom, fun b hb _ => hclean b hb, stage_update hs (hctl.others hp), fun hf => ?_⟩
  rw [hc, hctl.flag.mpr ⟨t, hp⟩] at hf
  cases hf

/-- `write_log` copies the next buffer. -/
theorem Contents.writeLog (h : Contents d f) (hctl : Control d f) {tail b : ℕ}
    (ht : f t = .writeLog tail) (hb : d.lh[tail]? = some b) :
    Contents { d with disk := { d.disk with
      logged := Function.update d.disk.logged tail (d.cache b) } }
      (Function.update f t (.writeLog (tail + 1))) := by
  have hst := h.stage t
  rw [ht] at hst
  refine hctl.contents (by rw [ht]; rfl) h.room rfl
    (fun c hc => h.settled hctl (t := t) (by rw [ht]; rfl) hc) ⟨hst.1, fun j c hj => ?_⟩
  rw [List.getElem?_take] at hj
  split at hj
  case isFalse => cases hj
  rename_i hjt
  show Function.update d.disk.logged tail (d.cache b) (0 + j) = d.cache c
  rw [Nat.zero_add]
  -- the copy just made, or one made before, which this write leaves
  by_cases hjtail : j = tail
  · subst hjtail
    obtain rfl : b = c := by rw [hb] at hj; exact Option.some_inj.mp hj
    simp
  · have := hst.2 j c (by rw [List.getElem?_take, if_pos (by omega)]; exact hj)
    rw [Nat.zero_add] at this
    rw [Function.update_of_ne hjtail, this]

/-- The header write: from here on the transaction survives a crash. -/
theorem Contents.writeHead (h : Contents d f) (hctl : Control d f) (ht : f t = .writeHead) :
    Contents d.writeHead (Function.update f t (.install 0)) := by
  have hp : (f t).phase = true := by rw [ht]; rfl
  have hst := h.stage t
  rw [ht] at hst
  refine hctl.contents hp h.room rfl (fun c hc => h.settled hctl hp hc) ⟨rfl, hst.2, ?_⟩
  exact RedoLog.replay_eq_of_copies hst.2 fun c hc => (h.settled hctl hp hc).symm

/-- `install_trans` finds in the log what is in the buffer. -/
theorem install_cache {tail b : ℕ} (hst : Stage d (.install tail)) (hb : d.lh[tail]? = some b) :
    Function.update d.cache b (d.disk.logged tail) = d.cache := by
  have := hst.2.1 tail b hb
  rw [Nat.zero_add] at this
  rw [this, Function.update_eq_self]

/-- `install_trans` copies the next block home. -/
theorem Contents.install (h : Contents d f) (hctl : Control d f) {tail b : ℕ}
    (ht : f t = .install tail) (hb : d.lh[tail]? = some b) :
    Contents (unpin { d with
        cache := Function.update d.cache b (d.disk.logged tail)
        disk := { d.disk with home := Function.update d.disk.home b (d.disk.logged tail) } } b)
      (Function.update f t (.install (tail + 1))) := by
  have hp : (f t).phase = true := by rw [ht]; rfl
  have hst := h.stage t
  rw [ht] at hst
  have hcache := install_cache hst hb
  have hdrop : d.lh.drop tail = b :: d.lh.drop (tail + 1) := by
    obtain ⟨hlt, hget⟩ := List.getElem?_eq_some_iff.mp hb
    rw [← hget]
    exact List.drop_eq_getElem_cons hlt
  refine hctl.contents hp h.room rfl (fun c hc => ?_) ⟨hst.1, ?_, ?_⟩
  · -- a block outside the transaction is not the one installed
    have hcb : c ≠ b := by
      rintro rfl
      exact hc (List.mem_of_getElem? hb)
    show Function.update d.cache b _ c = Function.update d.disk.home b _ c
    rw [Function.update_of_ne hcb, Function.update_of_ne hcb]
    exact h.settled hctl hp hc
  · show RedoLog.Copies d.disk.logged (Function.update d.cache b (d.disk.logged tail)) d.lh 0
    rw [hcache]
    exact hst.2.1
  · show RedoLog.replay d.disk.logged (d.lh.drop (tail + 1)) (tail + 1)
      (Function.update d.disk.home b (d.disk.logged tail)) =
      Function.update d.cache b (d.disk.logged tail)
    rw [hcache, ← hst.2.2, hdrop]
    rfl

/-- All blocks are installed, and `log.lh.n = 0`. -/
theorem Contents.installed (h : Contents d f) (hctl : Control d f) {tail : ℕ}
    (ht : f t = .install tail) (hlen : d.lh.length ≤ tail) :
    Contents { d with lh := [] } (Function.update f t .clear) := by
  have hst := h.stage t
  rw [ht] at hst
  obtain ⟨hhead, hcopies, hreplay⟩ := hst
  rw [List.drop_eq_nil_of_le hlen] at hreplay
  have hhome : d.disk.home = d.cache := hreplay
  refine hctl.contents (by rw [ht]; rfl) (Nat.zero_le _) rfl (fun c _ => ?_) ⟨rfl, hhome, ?_⟩
  · show d.cache c = d.disk.home c
    rw [hhome]
  · show RedoLog.replay d.disk.logged d.disk.head 0 d.disk.home = d.cache
    rw [hhead]
    exact RedoLog.replay_eq_of_copies hcopies fun c _ => by rw [hhome]

/-- The second header write empties the log. -/
theorem Contents.clear (h : Contents d f) (hctl : Control d f) (ht : f t = .clear) :
    Contents d.writeHead (Function.update f t .committed) := by
  have hst := h.stage t
  rw [ht] at hst
  refine hctl.contents (by rw [ht]; rfl) h.room rfl (fun c _ => ?_) ⟨hst.1, hst.1⟩
  show d.cache c = d.disk.home c
  rw [hst.2.1]

/-! ### All together -/

structure Inv (d : Log α) (f : T → Loc) : Prop where
  control : Control d f
  refs : Refs d f
  contents : Contents d f

omit [DecidableEq T] in
theorem inv_fresh {disk : Disk α} (hhead : disk.head = []) (hidle : ∀ t, f t = .idle) :
    Inv (fresh disk) f := by
  refine ⟨⟨?_, fun t u ht => ?_, ?_, fun hc => by cases hc⟩, ⟨fun t b hb => ?_, fun b => ?_⟩,
    ⟨Nat.zero_le _, fun b _ _ => rfl, fun t => ?_, fun _ => hhead⟩⟩
  · simp [fresh, hidle, Loc.inOp]
  · simp [hidle, Loc.phase] at ht
  · simp [fresh, hidle, Loc.phase]
  · simp [hidle, Loc.dirty] at hb
  · simp [fresh, pinned, hidle, Loc.bufs]
  · rw [hidle t]
    trivial

theorem Loc.plain_spec {l : Loc} (h : l.plain = true) :
    l.inOp = 0 ∧ l.phase = false ∧ l.bufs = [] ∧ l.dirty = [] ∧ l.installed = 0 := by
  cases l <;> first | exact ⟨rfl, rfl, rfl, rfl, rfl⟩ | cases h

/-- A process that stays out of operations, of `commit` and of the data. -/
theorem Inv.plain (h : Inv d f) (hl : (f t).plain = true) (hl' : l'.plain = true) :
    Inv d (Function.update f t l') := by
  obtain ⟨hin, hp, hb, hd, hi⟩ := Loc.plain_spec hl
  obtain ⟨hin', hp', hb', hd', hi'⟩ := Loc.plain_spec hl'
  refine ⟨h.control.move rfl rfl (hin'.trans hin.symm) (hp'.trans hp.symm),
    h.refs.move rfl rfl (hb'.trans hb.symm) (by simp [hd']) (hi'.trans hi.symm),
    h.contents.move rfl rfl rfl h.contents.rest (by simp [hd]) (stage_of_not_phase hp')⟩

/-- The steps of the holder of the lock keep the invariant. -/
theorem Inv.does (h : Inv d f) {o : Out (Log α) Loc Unit} (hd : Does d (f t) o) :
    Inv o.shared (Function.update f t o.loc) := by
  generalize hl : f t = l at hd
  cases hd with
  | beginWait _ => exact h.plain (by rw [hl]; rfl) (by rfl)
  | began hc _ =>
    refine ⟨h.control.recount hc (by rw [hl]; rfl) hc rfl,
      h.refs.move rfl rfl (by rw [hl]; rfl) (by simp [Out.loc, Loc.dirty]) (by rw [hl]; rfl),
      h.contents.move rfl rfl rfl (fun _ => h.contents.rest hc) ?_ trivial⟩
    simp [hl, Loc.dirty]
  | panic _ =>
    refine ⟨h.control.move rfl rfl (by rw [hl]; rfl) (by rw [hl]; rfl),
      h.refs.move rfl rfl (by rw [hl]; rfl) ?_ (by rw [hl]; rfl),
      h.contents.move rfl rfl rfl h.contents.rest ?_ trivial⟩
    · have := h.refs.held t
      rw [hl] at this
      exact this
    · rw [hl]
      exact fun b hb => .inl hb
  | @absorbed b mine bufs dirty hout hb =>
    refine ⟨h.control.move rfl rfl (by rw [hl]; rfl) (by rw [hl]; rfl),
      h.refs.move rfl rfl (by rw [hl]; rfl) (fun c hc => ?_) (by rw [hl]; rfl),
      h.contents.move rfl rfl rfl h.contents.rest (fun c hc => ?_) trivial⟩
    · have := h.refs.held t c (by rw [hl]; exact (List.mem_filter.mp hc).1)
      rwa [hl] at this
    · -- the block itself is no longer dirty, but it is in the transaction already
      rw [hl] at hc
      by_cases hcb : c = b
      · exact .inr (hcb ▸ hb)
      · exact .inl (List.mem_filter.mpr ⟨hc, by simpa using hcb⟩)
  | logged hlen hout hb =>
    have hc := h.control.no_commit (t := t) (by rw [hl]; rfl)
    exact ⟨h.control.move rfl rfl (by rw [hl]; rfl) (by rw [hl]; rfl),
      h.refs.logged h.control hl, h.contents.logged (h.control.no_phase hc) hl hlen⟩
  | endPanic hc =>
    -- nobody commits while this process is still in its operation
    have := h.control.no_commit (t := t) (by rw [hl]; rfl)
    rw [hc] at this
    cases this
  | endLast hc hout =>
    refine ⟨h.control.last hc (by rw [hl]; rfl) hout,
      h.refs.move rfl rfl (by rw [hl]; rfl) (by simp [Out.loc, Loc.dirty]) (by rw [hl]; rfl),
      h.contents.move rfl rfl rfl (fun hf => by cases hf) ?_ (h.contents.rest hc)⟩
    simp [hl, Loc.dirty]
  | endMore hc hout =>
    refine ⟨h.control.recount hc ?_ hc rfl,
      h.refs.move rfl rfl (by rw [hl]; rfl) (by simp [Out.loc, Loc.dirty]) (by rw [hl]; rfl),
      h.contents.move rfl rfl rfl (fun _ => h.contents.rest hc) ?_ trivial⟩
    · rw [hl]
      show d.outstanding - 1 + 1 = d.outstanding + 0
      omega
    · simp [hl, Loc.dirty]
  | ended => exact h.plain (by rw [hl]; rfl) (by rfl)
  | committed =>
    have hst := h.contents.stage t
    rw [hl] at hst
    refine ⟨h.control.over (by rw [hl]; rfl) (by rw [hl]; rfl),
      h.refs.move rfl rfl (by rw [hl]; rfl) (by simp [Out.loc, Loc.dirty]) (by rw [hl]; rfl),
      h.contents.move rfl rfl rfl (fun _ => hst.1) ?_ trivial⟩
    simp [hl, Loc.dirty]
  | syncBusy _ => exact h.plain (by rw [hl]; rfl) (by rfl)
  | syncIdle _ _ => exact h.plain (by rw [hl]; rfl) (by rfl)
  | syncWait _ => exact h.plain (by rw [hl]; rfl) (by rfl)
  | syncDone _ => exact h.plain (by rw [hl]; rfl) (by rfl)

omit [DecidableEq T] in
/-- A buffer that may be recycled is on the disk as it is in memory. -/
theorem Inv.recycle (h : Inv d f) {b : ℕ} (hb : d.refcnt b = 0) :
    Function.update d.cache b (d.disk.home b) = d.cache := by
  obtain ⟨hheld, hpin⟩ := h.refs.free hb
  have hdirty : ∀ u, b ∉ (f u).dirty := fun u hu => hheld u (h.refs.held u b hu)
  suffices hhome : d.cache b = d.disk.home b by rw [← hhome, Function.update_eq_self]
  by_cases hlh : b ∈ d.lh
  · -- the block is in the transaction and not pinned: it has just been installed
    have hsum : ∑ u, (f u).installed ≠ 0 := by
      intro hk
      rw [pinned, hk] at hpin
      exact hpin hlh
    obtain ⟨t, -, ht⟩ := Finset.exists_ne_zero_of_sum_ne_zero hsum
    obtain ⟨tail, hl⟩ : ∃ tail, f t = .install tail := by
      cases hl : f t with
      | install tail => exact ⟨tail, rfl⟩
      | _ => rw [hl] at ht; exact absurd rfl ht
    have hst := h.contents.stage t
    rw [hl] at hst
    rw [pinned, h.control.sum_installed (t := t) (by rw [hl]; rfl), hl] at hpin
    have hreplay := congrFun hst.2.2 b
    have hpin : b ∉ d.lh.drop tail := hpin
    rw [RedoLog.replay_of_not_mem hpin] at hreplay
    exact hreplay.symm
  · exact h.contents.clean b hlh hdirty

/-- The steps without the lock keep the invariant. -/
theorem Inv.goes (h : Inv d f) {i : Input α} (hg : Goes d (f t) i d' l') :
    Inv d' (Function.update f t l') := by
  generalize hl : f t = l at hg
  cases hg with
  | beginOp hidle => exact h.plain (by rw [hl]; obtain rfl | rfl := hidle <;> rfl) rfl
  | sysSync hidle => exact h.plain (by rw [hl]; obtain rfl | rfl := hidle <;> rfl) rfl
  | bread _ =>
    exact ⟨h.control.move rfl rfl (by rw [hl]; rfl) (by rw [hl]; rfl), h.refs.bread hl,
      h.contents.move rfl rfl rfl h.contents.rest (fun c hc => .inl (by rwa [hl] at hc)) trivial⟩
  | @write b v mine bufs dirty hb =>
    have hc := h.control.no_commit (t := t) (by rw [hl]; rfl)
    refine ⟨h.control.move rfl rfl (by rw [hl]; rfl) (by rw [hl]; rfl),
      h.refs.move rfl rfl (by rw [hl]; rfl) (fun c hc => ?_) (by rw [hl]; rfl),
      h.contents.write (h.control.no_phase hc) hl⟩
    obtain rfl | hc := List.mem_cons.mp hc
    · exact hb
    · have := h.refs.held t c (by rw [hl]; exact hc)
      rwa [hl] at this
  | logWrite _ =>
    refine ⟨h.control.move rfl rfl (by rw [hl]; rfl) (by rw [hl]; rfl),
      h.refs.move rfl rfl (by rw [hl]; rfl) (fun c hc => ?_) (by rw [hl]; rfl),
      h.contents.move rfl rfl rfl h.contents.rest (fun c hc => .inl (by rwa [hl] at hc)) trivial⟩
    have := h.refs.held t c (by rw [hl]; exact hc)
    rwa [hl] at this
  | brelse hb hd =>
    exact ⟨h.control.move rfl rfl (by rw [hl]; rfl) (by rw [hl]; rfl), h.refs.brelse hl hb hd,
      h.contents.move rfl rfl rfl h.contents.rest (fun c hc => .inl (by rwa [hl] at hc)) trivial⟩
  | endOp =>
    refine ⟨h.control.move rfl rfl (by rw [hl]; rfl) (by rw [hl]; rfl),
      h.refs.move rfl rfl (by rw [hl]; rfl) (by simp [Loc.dirty]) (by rw [hl]; rfl),
      h.contents.move rfl rfl rfl h.contents.rest (fun c hc => ?_) trivial⟩
    rw [hl] at hc
    cases hc
  | recycle hb =>
    rw [h.recycle hb, ← hl, Function.update_eq_self]
    exact h
  | commit hne =>
    have hst := h.contents.stage t
    rw [hl] at hst
    refine ⟨h.control.move rfl rfl (by rw [hl]; rfl) (by rw [hl]; rfl),
      h.refs.move rfl rfl (by rw [hl]; rfl) (by simp [Loc.dirty]) (by rw [hl]; rfl),
      h.contents.move rfl rfl rfl h.contents.rest (by simp [hl, Loc.dirty])
        ⟨hst, by simp [RedoLog.Copies]⟩⟩
  | nothing hnil =>
    -- `lh` is empty, and so is the log on the disk: there is nothing to commit
    have hst := h.contents.stage t
    rw [hl] at hst
    exact ⟨h.control.move rfl rfl (by rw [hl]; rfl) (by rw [hl]; rfl),
      h.refs.move rfl rfl (by rw [hl]; rfl) (by simp [Loc.dirty]) (by rw [hl]; rfl),
      h.contents.move rfl rfl rfl h.contents.rest (by simp [hl, Loc.dirty]) ⟨hst, hnil⟩⟩
  | writeLog hb =>
    exact ⟨h.control.move rfl rfl (by rw [hl]; rfl) (by rw [hl]; rfl),
      h.refs.move rfl rfl (by rw [hl]; rfl) (by simp [Loc.dirty]) (by rw [hl]; rfl),
      h.contents.writeLog h.control hl hb⟩
  | wroteLog hlen =>
    -- the loop is over, so the copies made are those of the whole transaction
    have hst := h.contents.stage t
    rw [hl] at hst
    refine ⟨h.control.move rfl rfl (by rw [hl]; rfl) (by rw [hl]; rfl),
      h.refs.move rfl rfl (by rw [hl]; rfl) (by simp [Loc.dirty]) (by rw [hl]; rfl),
      h.contents.move rfl rfl rfl h.contents.rest (by simp [hl, Loc.dirty]) ⟨hst.1, ?_⟩⟩
    rw [← List.take_of_length_le hlen]
    exact hst.2
  | writeHead =>
    exact ⟨h.control.move rfl rfl (by rw [hl]; rfl) (by rw [hl]; rfl),
      h.refs.move rfl rfl (by rw [hl]; rfl) (by simp [Loc.dirty]) (by rw [hl]; rfl),
      h.contents.writeHead h.control hl⟩
  | install hb =>
    exact ⟨h.control.move rfl rfl (by rw [hl]; rfl) (by rw [hl]; rfl),
      h.refs.install h.control hl hb, h.contents.install h.control hl hb⟩
  | installed hlen =>
    exact ⟨h.control.move rfl rfl (by rw [hl]; rfl) (by rw [hl]; rfl),
      h.refs.installed h.control hl hlen, h.contents.installed h.control hl hlen⟩
  | clear =>
    exact ⟨h.control.move rfl rfl (by rw [hl]; rfl) (by rw [hl]; rfl),
      h.refs.move rfl rfl (by rw [hl]; rfl) (by simp [Loc.dirty]) (by rw [hl]; rfl),
      h.contents.clear h.control hl⟩

/-- The invariant holds in every interleaving. -/
theorem invariant {procs : List T} {s : St T Loc (Log α) Unit}
    (h : (monitor procs).sys.Reachable s) : Inv s.shared s.locs := by
  refine Monitor.view_invariant (.none (monitor procs)) (J := Inv) ?_ ?_ ?_ h
  · rintro d f ⟨hhead, hfresh, hidle⟩
    rw [hfresh]
    exact inv_fresh hhead hidle
  · intro d f t i d' l' hI ho
    exact hI.goes (outside_goes ho)
  · intro d f t i o hI _ ho
    exact hI.does (inside_does ho)

end Xv6.Log
