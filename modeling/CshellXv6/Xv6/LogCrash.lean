/-
Crashes.

The machine runs the processes around the log, or boots: `recover_from_log`
reads the header, copies the logged blocks home and empties the header.  A
crash may come at any moment, during recovery too; what is on the disk stays,
the rest is lost.

* `Log.refines_store` — every run with any number of crashes is a run of an atomic
  store: file system calls write into it while they are between `begin_op` and
  `end_op`, it is made durable by the header write of a commit, at which no call
  is open, and a crash goes back to the last durable contents, with which the
  machine comes up again.
-/
import CshellXv6.Xv6.LogInvariant

namespace Xv6.Log

open Monitor (Out St eq_zero_of_sum)

variable {α T : Type}

/-- Where `recover_from_log` is (log.c:118-125). -/
inductive Boot where
  | readHead
  | install (lh : List ℕ) (tail : ℕ)
  | clear
  deriving DecidableEq

/-- The machine: up, or booting from a disk. -/
inductive Machine (T α : Type) where
  | up (s : St T Loc (Log α) Unit)
  | booting (disk : Disk α) (b : Boot)

/-- The machine behind `initlog`. -/
def Machine.start (T : Type) (disk : Disk α) : Machine T α :=
  .up (.start (fun _ => .idle) (fresh disk))

/-- One step of `recover_from_log`. -/
def recoverStep (T : Type) (disk : Disk α) : Boot → Machine T α
  | .readHead => .booting disk (.install disk.head 0)
  | .install lh tail =>
    match lh[tail]? with
    | some b =>
      .booting { disk with home := Function.update disk.home b (disk.logged tail) }
        (.install lh (tail + 1))
    | none => .booting disk .clear
  | .clear => .start T { disk with head := [] }

inductive MachineAct (T α : Type) where
  | run (a : Monitor.Act T (Input α))
  | recover
  | crash

variable [DecidableEq T] {procs : List T}

/-- The machine, from a disk with any log on it. -/
def machine (procs : List T) : Sys (Machine T α) (MachineAct T α) where
  init m := ∃ disk, m = .booting disk .readHead
  step m a :=
    match m, a with
    | .up s, .run a => ((monitor procs).step s a).map .up
    | .up s, .crash => some (.booting s.shared.disk .readHead)
    | .booting disk b, .recover => some (recoverStep T disk b)
    | .booting disk _, .crash => some (.booting disk .readHead)
    | _, _ => none

/-! ### What a run means to the store -/

/-- The transactions open and close inside `log.lock`. -/
def insideEvents (t : T) (l : Loc) (d : Log α) : List (AtomicStore.Act T α) :=
  match l, inside l d with
  | .begin, some (.leave _ _) => [.begin t]
  | .ending, some _ => [.finish t]
  | _, _ => []

/-- Buffers are written, and the header, without it. -/
def outsideEvents (t : T) (l : Loc) (i : Input α) : List (AtomicStore.Act T α) :=
  match l, i with
  | .op _ _ _, .write b v => [.write t b v]
  | .writeHead, .go => [.commit]
  | _, _ => []

/-- The steps of the store that a step of the machine stands for. -/
def machineEvents (m : Machine T α) (a : MachineAct T α) : List (AtomicStore.Act T α) :=
  match m, a with
  | .up s, .run (.outside t i) => outsideEvents t (s.locs t) i
  | .up s, .run (.inside t _) => insideEvents t (s.locs t) s.shared
  | _, .crash => [.crash]
  | _, _ => []

/-- The store seen in the log and the places of the processes: `view` is what
the buffers hold, `durable` what recovery would make of the disk. -/
structure Shows (d : Log α) (f : T → Loc) (st : AtomicStore T α) : Prop where
  view : st.view = d.cache
  durable : st.durable = d.disk.recovered
  nodup : st.openBy.Nodup
  openBy : ∀ t, t ∈ st.openBy ↔ (f t).inOp = 1

/-- The store seen in a machine. -/
def ShowsMachine (procs : List T) (m : Machine T α) (st : AtomicStore T α) : Prop :=
  match m with
  | .up s => (monitor procs).sys.Reachable s ∧ Shows s.shared s.locs st
  | .booting disk b => st.durable = disk.recovered ∧ st.view = st.durable ∧ st.openBy = [] ∧
    match b with
    | .readHead => True
    | .install lh tail =>
      disk.head = lh ∧ RedoLog.replay disk.logged (lh.drop tail) tail disk.home = st.durable
    | .clear => disk.home = st.durable

variable {d d' : Log α} {f : T → Loc} {t : T} {l' : Loc} {st : AtomicStore T α}

/-- A step that is none of the store's. -/
theorem Shows.move (h : Shows d f st) (hc : d'.cache = d.cache)
    (hd : d'.disk.recovered = d.disk.recovered) (hin : l'.inOp = (f t).inOp) :
    Shows d' (Function.update f t l') st := by
  refine ⟨by rw [hc]; exact h.view, by rw [hd]; exact h.durable, h.nodup, fun u => ?_⟩
  by_cases hu : u = t
  · subst hu
    rw [Function.update_self, hin]
    exact h.openBy u
  · rw [Function.update_of_ne hu]
    exact h.openBy u

/-- `begin_op` opens a transaction. -/
theorem Shows.begin (h : Shows d f st) (l' : Loc) (ht : (f t).inOp = 0) (hl : l'.inOp = 1) :
    ∃ st', AtomicStore.step st (.begin t) = some st' ∧
      Shows { d with outstanding := d.outstanding + 1 } (Function.update f t l') st' := by
  have hnot : t ∉ st.openBy := by
    rw [h.openBy, ht]
    decide
  refine ⟨{ st with openBy := t :: st.openBy }, ?_, h.view, h.durable,
    List.nodup_cons.mpr ⟨hnot, h.nodup⟩, fun u => ?_⟩
  · simp [AtomicStore.step, hnot]
  · by_cases hu : u = t
    · subst hu
      simp [hl]
    · simp [hu, h.openBy]

/-- `end_op` closes it. -/
theorem Shows.finish (h : Shows d f st) (d' : Log α) (l' : Loc) (ht : (f t).inOp = 1)
    (hl : l'.inOp = 0) (hc : d'.cache = d.cache) (hd : d'.disk = d.disk) :
    ∃ st', AtomicStore.step st (.finish t) = some st' ∧
      Shows d' (Function.update f t l') st' := by
  have hmem : t ∈ st.openBy := (h.openBy t).mpr ht
  refine ⟨{ st with openBy := st.openBy.erase t }, ?_, by rw [hc]; exact h.view,
    by rw [hd]; exact h.durable, h.nodup.erase t, fun u => ?_⟩
  · simp [AtomicStore.step, hmem]
  · by_cases hu : u = t
    · subst hu
      simp [hl, h.nodup.mem_erase_iff]
    · simp [hu, h.openBy, h.nodup.mem_erase_iff]

variable [Fintype T]

/-- The holder's steps, on the store. -/
theorem Shows.does (h : Shows d f st) (hI : Inv d f) {o : Out (Log α) Loc Unit}
    (ho : inside (f t) d = some o) :
    ∃ st', AtomicStore.sys.runFrom st (insideEvents t (f t) d) = some st' ∧
      Shows o.shared (Function.update f t o.loc) st' := by
  have hd := inside_does ho
  generalize hl : f t = l at ho hd
  -- steps that are none of the store's
  have hstay : insideEvents t l d = [] → o.shared.cache = d.cache →
      o.shared.disk.recovered = d.disk.recovered → o.loc.inOp = l.inOp →
      ∃ st', AtomicStore.sys.runFrom st (insideEvents t l d) = some st' ∧
        Shows o.shared (Function.update f t o.loc) st' := by
    intro hev hc hdisk hin
    rw [hev]
    exact ⟨st, rfl, h.move hc hdisk (by rw [hl]; exact hin)⟩
  cases hd with
  | beginWait _ => exact hstay (by simp only [insideEvents, ho]) rfl rfl rfl
  | began _ _ =>
    obtain ⟨st', hst, hshow⟩ := h.begin (t := t) (.op [] [] []) (by rw [hl]; rfl) rfl
    refine ⟨st', ?_, hshow⟩
    simp only [insideEvents, ho, Sys.runFrom_cons, Sys.runFrom_nil]
    show (AtomicStore.step st (.begin t)).bind some = some st'
    rw [hst]
    rfl
  | endPanic hc =>
    have := hI.control.no_commit (t := t) (by rw [hl]; rfl)
    rw [hc] at this
    cases this
  | endLast _ _ =>
    obtain ⟨st', hst, hshow⟩ := h.finish (t := t)
      { d with outstanding := d.outstanding - 1, committing := true } .commit
      (by rw [hl]; rfl) rfl rfl rfl
    refine ⟨st', ?_, hshow⟩
    simp only [insideEvents, ho, Sys.runFrom_cons, Sys.runFrom_nil]
    show (AtomicStore.step st (.finish t)).bind some = some st'
    rw [hst]
    rfl
  | endMore _ _ =>
    obtain ⟨st', hst, hshow⟩ := h.finish (t := t)
      { d with outstanding := d.outstanding - 1 } .ended (by rw [hl]; rfl) rfl rfl rfl
    refine ⟨st', ?_, hshow⟩
    simp only [insideEvents, ho, Sys.runFrom_cons, Sys.runFrom_nil]
    show (AtomicStore.step st (.finish t)).bind some = some st'
    rw [hst]
    rfl
  | _ => exact hstay rfl rfl rfl rfl

/-- While the log on the disk is empty, the disk is what recovery makes of it. -/
theorem recovered_of_empty {disk : Disk α} (h : disk.head = []) : disk.recovered = disk.home := by
  rw [Disk.recovered, h]
  rfl

/-- The steps without the lock, on the store. -/
theorem Shows.goes (h : Shows d f st) (hI : Inv d f) {i : Input α} (hg : Goes d (f t) i d' l') :
    ∃ st', AtomicStore.sys.runFrom st (outsideEvents t (f t) i) = some st' ∧
      Shows d' (Function.update f t l') st' := by
  have hst := hI.contents.stage t
  generalize hl : f t = l at hg hst
  have hstay : outsideEvents t l i = [] → d'.cache = d.cache →
      d'.disk.recovered = d.disk.recovered → l'.inOp = l.inOp →
      ∃ st', AtomicStore.sys.runFrom st (outsideEvents t l i) = some st' ∧
        Shows d' (Function.update f t l') st' := by
    intro hev hc hdisk hin
    rw [hev]
    exact ⟨st, rfl, h.move hc hdisk (by rw [hl]; exact hin)⟩
  cases hg with
  | @write b v mine bufs dirty hb =>
    have hmem : t ∈ st.openBy := (h.openBy t).mpr (by rw [hl]; rfl)
    have hstep : AtomicStore.step st (.write t b v) =
        some { st with view := Function.update st.view b v } := by
      simp [AtomicStore.step, hmem]
    refine ⟨{ st with view := Function.update st.view b v }, ?_, by rw [h.view], h.durable, h.nodup,
      fun u => ?_⟩
    · show (AtomicStore.step st (.write t b v)).bind some = _
      rw [hstep]
      rfl
    · by_cases hu : u = t
      · subst hu
        simpa [Loc.inOp] using hmem
      · simp [hu, h.openBy]
  | recycle hb =>
    exact hstay (by cases l' <;> rfl) (hI.recycle hb) rfl rfl
  | writeLog hb =>
    refine hstay rfl rfl ?_ rfl
    rw [recovered_of_empty hst.1]
    exact recovered_of_empty hst.1
  | writeHead =>
    -- the commit point: no operation is open
    have hopen : st.openBy = [] := by
      have hzero := hI.control.quiet (hI.control.flag.mpr ⟨t, by rw [hl]; rfl⟩)
      rw [hI.control.count] at hzero
      refine List.eq_nil_iff_forall_not_mem.mpr fun u hu => ?_
      rw [h.openBy, eq_zero_of_sum hzero u] at hu
      cases hu
    have hrec : d.writeHead.disk.recovered = d.cache :=
      RedoLog.replay_eq_of_copies hst.2 fun c hc =>
        (hI.contents.settled hI.control (t := t) (by rw [hl]; rfl) hc).symm
    have hstep : AtomicStore.step st .commit = some { st with durable := st.view } := by
      simp [AtomicStore.step, hopen]
    refine ⟨{ st with durable := st.view }, ?_, h.view, by rw [hrec]; exact h.view, h.nodup,
      fun u => ?_⟩
    · show (AtomicStore.step st .commit).bind some = _
      rw [hstep]
      rfl
    · by_cases hu : u = t
      · subst hu
        simp [hopen, Loc.inOp]
      · simp [hu, h.openBy]
  | @install tail b hb =>
    refine hstay rfl (install_cache hst hb) ?_ rfl
    show RedoLog.replay d.disk.logged d.disk.head 0
      (Function.update d.disk.home b (d.disk.logged tail)) = d.disk.recovered
    rw [hst.1]
    rw [RedoLog.replay_update (List.mem_of_getElem? hb), Disk.recovered, hst.1]
  | clear =>
    obtain ⟨hlh, hhome, hrec⟩ := hst
    refine hstay rfl rfl ?_ rfl
    rw [hrec, ← hhome]
    exact recovered_of_empty hlh
  | beginOp hidle => obtain rfl | rfl := hidle <;> exact hstay rfl rfl rfl rfl
  | sysSync hidle => obtain rfl | rfl := hidle <;> exact hstay rfl rfl rfl rfl
  | _ => exact hstay rfl rfl rfl rfl

omit [Fintype T] in
/-- The machine as it comes up shows what was durable. -/
theorem shows_start {disk : Disk α} (hhead : disk.head = []) (hd : st.durable = disk.home)
    (hv : st.view = st.durable) (ho : st.openBy = []) :
    ShowsMachine procs (.start T disk) st := by
  refine ⟨.init (Monitor.init_start ⟨hhead, rfl, fun _ => rfl⟩), ?_⟩
  refine ⟨hv.trans hd, by rw [hd]; exact (recovered_of_empty hhead).symm, by simp [ho], fun t => ?_⟩
  simp [ho, Loc.inOp]

omit [Fintype T] in
/-- One step of `recover_from_log`: what is durable stays. -/
theorem shows_recover {disk : Disk α} {b : Boot} (h : ShowsMachine procs (.booting disk b) st) :
    ShowsMachine procs (recoverStep T disk b) st := by
  obtain ⟨hd, hv, ho, hb⟩ := h
  cases b with
  | readHead => exact ⟨hd, hv, ho, rfl, hd.symm⟩
  | install lh tail =>
    obtain ⟨hhead, hreplay⟩ := hb
    simp only [recoverStep]
    split
    · rename_i b hget
      have hdrop : lh.drop tail = b :: lh.drop (tail + 1) := by
        obtain ⟨hlt, hget⟩ := List.getElem?_eq_some_iff.mp hget
        rw [← hget]
        exact List.drop_eq_getElem_cons hlt
      refine ⟨?_, hv, ho, hhead, ?_⟩
      · -- the place just written will be written again should recovery start over
        rw [hd]
        show _ = RedoLog.replay disk.logged disk.head 0
          (Function.update disk.home b (disk.logged tail))
        rw [RedoLog.replay_update (by rw [hhead]; exact List.mem_of_getElem? hget)]
        rfl
      · rw [← hreplay, hdrop]
        rfl
    · rename_i hget
      refine ⟨hd, hv, ho, ?_⟩
      have hlen : lh.length ≤ tail := by simpa using hget
      rw [List.drop_eq_nil_of_le hlen] at hreplay
      exact hreplay
  | clear =>
    have hhome : disk.home = st.durable := hb
    exact shows_start rfl hhome.symm hv ho

/-- One step of the machine is matched by the store. -/
theorem shows_step {m m' : Machine T α} {a : MachineAct T α} (h : ShowsMachine procs m st)
    (hs : (machine procs).step m a = some m') :
    ∃ st', AtomicStore.sys.runFrom st (machineEvents m a) = some st' ∧
      ShowsMachine procs m' st' := by
  cases m with
  | up s =>
    obtain ⟨hr, hshow⟩ := h
    cases a with
    | run a =>
      obtain ⟨s', hstep, rfl⟩ := Option.map_eq_some_iff.mp hs
      have hr' : (monitor procs).sys.Reachable s' := .step hr hstep
      obtain ⟨hd, hf, ha⟩ | ⟨t, i, l', rfl, ho, hf⟩ | ⟨t, i, o, rfl, -, ho, hd, hf⟩ :=
        Monitor.step_view hstep
      · have hev : machineEvents (.up s) (.run a) = [] := by
        -- a step of the lock or of sleeping
          cases a with
          | outside t i => exact absurd rfl (ha t i).1
          | inside t i => exact absurd rfl (ha t i).2
          | _ => rfl
        rw [hev]
        refine ⟨st, rfl, hr', ?_⟩
        rw [hd, hf]
        exact hshow
      · obtain ⟨st', hrun, hshow'⟩ := hshow.goes (invariant hr) (outside_goes ho)
        refine ⟨st', hrun, hr', ?_⟩
        rw [hf]
        exact hshow'
      · obtain ⟨st', hrun, hshow'⟩ := hshow.does (invariant hr) ho
        refine ⟨st', hrun, hr', ?_⟩
        rw [hd, hf]
        exact hshow'
    | recover => cases hs
    | crash =>
      cases hs
      -- what is on the disk is what recovery would make of it
      exact ⟨{ st with view := st.durable, openBy := [] }, rfl, hshow.durable, rfl, rfl, trivial⟩
  | booting disk b =>
    obtain ⟨hd, hv, ho, hb⟩ := h
    cases a with
    | run a => cases hs
    | recover =>
      cases hs
      exact ⟨st, rfl, shows_recover ⟨hd, hv, ho, hb⟩⟩
    | crash =>
      cases hs
      exact ⟨{ st with view := st.durable, openBy := [] }, rfl, hd, rfl, rfl, trivial⟩

omit [DecidableEq T] [Fintype T] in
theorem machineEvents_reverse (m : Machine T α) (a : MachineAct T α) :
    (machineEvents m a).reverse = machineEvents m a := by
  have hlen : ∀ e : List (AtomicStore.Act T α), e.length ≤ 1 → e.reverse = e := by
    intro e he
    match e, he with
    | [], _ => rfl
    | [_], _ => rfl
  refine hlen _ ?_
  unfold machineEvents
  split
  · unfold outsideEvents
    split <;> simp
  · unfold insideEvents
    split <;> simp
  · simp
  · simp

/-- **Crash safety.**  Whatever the processes do and however often the machine
crashes, in the middle of a commit or of a recovery: the run is one of an
atomic store.  Its clients are the operations between `begin_op` and `end_op`;
its `commit` is the write of the header block, which happens only while no
operation is open; a crash goes back to the last commit.  The buffers show the
store's contents, and recovery would give back its durable contents at any
time. -/
theorem refines_store {x : Machine T α × List (AtomicStore.Act T α)}
    (h : ((machine procs).logged machineEvents).Reachable x) :
    ∃ st₀ st, AtomicStore.sys.init st₀ ∧ AtomicStore.sys.runFrom st₀ x.2.reverse = some st ∧
      ShowsMachine procs x.1 st := by
  refine (machine procs).logged_invariant
    (I := fun m e => ∃ st₀ st, AtomicStore.sys.init st₀ ∧
      AtomicStore.sys.runFrom st₀ e.reverse = some st ∧ ShowsMachine procs m st) ?_ ?_ h
  · rintro m ⟨disk, rfl⟩
    refine ⟨⟨disk.recovered, disk.recovered, []⟩, ⟨disk.recovered, disk.recovered, []⟩,
      ⟨rfl, rfl⟩, rfl, rfl, rfl, rfl, trivial⟩
  · rintro m e a m' - ⟨st₀, st, hinit, hrun, hshow⟩ hs
    obtain ⟨st', hrun', hshow'⟩ := shows_step hshow hs
    refine ⟨st₀, st', hinit, ?_, hshow'⟩
    rw [List.reverse_append, Sys.runFrom_append, hrun, machineEvents_reverse]
    exact hrun'

/-- A crash right behind the header write of a commit, and one in the middle
of the recovery. -/
def twoCrashes : List (MachineAct Bool ℕ) :=
  [.recover, .recover, .recover] ++ oneOp.map .run ++
    List.replicate 4 (.run (.outside true .go)) ++
    [.crash, .recover, .recover, .crash, .recover, .recover, .recover, .recover]

theorem refines_twoCrashes : ∃ x : Machine Bool ℕ × List (AtomicStore.Act Bool ℕ),
    ((machine [false, true]).logged machineEvents).Reachable x ∧
    (match x.1 with | .up s => s.shared.cache 3 | .booting _ _ => 0) = 7 ∧
    ∃ st₀ st, AtomicStore.sys.init st₀ ∧ AtomicStore.sys.runFrom st₀ x.2.reverse = some st ∧
      ShowsMachine [false, true] x.1 st := by
  obtain ⟨x, hx, hup⟩ := Sys.exists_of_run
    ((machine (α := ℕ) [false, true]).logged machineEvents) twoCrashes
    (p := fun x => (match x.1 with | .up s => s.shared.cache 3 | .booting _ _ => 0) = 7)
    (s := (.booting { head := [], logged := fun _ => 0, home := fun _ => 0 } .readHead, []))
    (.init ⟨⟨_, rfl⟩, rfl⟩) (by decide)
  exact ⟨x, hx, hup, refines_store hx⟩

end Xv6.Log
