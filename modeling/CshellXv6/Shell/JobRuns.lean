/-
The job table of the code in the runs of the shell.

`Jobs` follows the children, the handler and the waits of the main program over a
table that is a list; `BgList` has the table as the code keeps it, with the names of
the processes and with the exit codes in `wait_list`.  Here both are run together: a
step of the shell is a step of `Jobs`, and the code's table changes with it by the
operation the source calls at that point.

What a process is called and how it ends is the same all the time, as process ids are
not used twice: an `Env` gives both, and what fresh memory holds.

* `Env.table` — what a step does to the code's table;
* `full` — the system of both;
* `Coupled` — the code's table shows what the list has, `refines` — in every run.
-/
import CshellXv6.Shell.BgEdits
import CshellXv6.Shell.JobTable

namespace Jobs

open BgList (Table Status Report)
open Cshell (Str)

/-- What a run does not decide: fresh memory; the name of a process and its exit code,
`none` if a signal ends it; and the texts a job is registered with. -/
structure Env where
  junk : BgList.Bg
  name : ℕ → Str
  code : ℕ → Option ℕ
  cmd : List ℕ → Str
  args : List ℕ → List Str

namespace Env

variable (E : Env)

/-- The status with which a process ends. -/
def exit (p : ℕ) : Status :=
  match E.code p with
  | some c => .exited c
  | none => .signaled

/-- The status `waitpid` has for a child. -/
def status (s : State) (p : ℕ) : Status :=
  match s.child p with
  | .stopped _ => .stopped
  | .running _ => .continued
  | _ => E.exit p

/-- A job is registered: one process with `assign_bg` or `assign_stopped`, a pipeline
with `assign_bg_multi` or `assign_stopped_multi`. -/
def enter (t : Table) : List ℕ → Bool → Table
  | [p], false => (t.assignBg E.junk p (E.name p) (E.args [p])).1
  | [p], true => (t.assignStopped E.junk p (E.name p) (E.args [p])).1
  | pids, false =>
    (t.assignBgMulti E.junk pids pids.length (pids.map E.name) (E.cmd pids) (E.args pids)).1
  | pids, true =>
    (t.assignStoppedMulti E.junk pids (pids.map E.name) pids.length (E.cmd pids) (E.args pids)).1

/-- What a step does to the code's table. -/
def table (s : State) (t : Table) : Act → Table
  | .plant ps => t.plant (ps.map fun p => (p, E.status s p))
  | .forked =>
    match s.mode with
    | .forking .background pids 0 => E.enter t pids false
    | _ => t
  | .finish =>
    match s.mode with
    | .waiting w =>
      match w.kind with
      | .piped | .external => if w.stopped then E.enter t w.members true else t
      | .resume i _ => if w.stopped then t.setSus i true else t.removeAt E.junk i
    | _ => t
  | .resumeBg i | .resumeFg i _ => t.setSus i false
  | .announce => t.noLongerWaiting E.junk
  | _ => t

end Env

/-- The shell with the code's table. -/
def full (E : Env) : Sys (State × Table) Act where
  init x := x = (boot, ⟨[], 0, 1, []⟩)
  step x a := (step x.1 a).map fun s' => (s', E.table x.1 x.2 a)

/-- What is seen of a job in both tables: the process group, the members and `sus`. -/
def Bg.view (j : Bg) : ℕ × List ℕ × Bool := (j.pgid, j.members, j.sus)

/-- The same of an entry. -/
def entryView (e : BgList.Bg) : ℕ × List ℕ × Bool := (e.pgid, e.pids, e.sus)

/-- The two tables agree. -/
structure Coupled (E : Env) (s : State) (t : Table) : Prop where
  shape : t.Shape
  view : t.bgList.map entryView = s.jobs.map Bg.view
  waits : t.waitList = s.queue.map fun p => (p, (E.exit p).normal)
  names : ∀ e ∈ t.bgList, e.names = e.pids.map E.name
  leader : ∀ e ∈ t.bgList, e.pid = e.pgid

/-! ### The operations agree -/

section coupled

variable {E : Env} {s s' : State} {t : Table}

theorem Coupled.same (h : Coupled E s t) (hj : s'.jobs = s.jobs) (hq : s'.queue = s.queue) :
    Coupled E s' t :=
  ⟨h.shape, hj ▸ h.view, hq ▸ h.waits, h.names, h.leader⟩

/-- All four ways to register a job. -/
theorem enter_eq (E : Env) (t : Table) (pids : List ℕ) (b : Bool) :
    ∃ cmd, E.enter t pids b =
      t.register E.junk pids (pids.map E.name) pids.length b cmd (E.args pids) := by
  unfold Env.enter
  split
  · exact ⟨_, rfl⟩
  · exact ⟨_, rfl⟩
  · exact ⟨_, rfl⟩
  · exact ⟨_, rfl⟩

theorem Coupled.enter (h : Coupled E s t) {pids : List ℕ} (hne : pids ≠ []) (b : Bool) :
    Coupled E (s.assign pids b) (E.enter t pids b) := by
  obtain ⟨cmd, he⟩ := enter_eq E t pids b
  have hlen : pids.length ≤ (pids.map E.name).length := by simp
  have hpos : 1 ≤ pids.length := List.length_pos_iff.mpr hne
  have hshape := h.shape.register E.junk b cmd (E.args pids) hpos (Nat.le_refl _) hlen
  rw [he]
  rw [BgList.register_eq E.junk b cmd (E.args pids) h.shape.size (Nat.le_refl _) hlen] at hshape ⊢
  refine ⟨hshape, ?_, h.waits, ?_, ?_⟩
  · show (t.bgList ++ [_]).map entryView = (s.jobs ++ [_]).map Bg.view
    rw [List.map_append, List.map_append, h.view]
    simp [entryView, Bg.view, BgList.Bg.pids]
  · intro e he
    rcases List.mem_append.mp he with he | he
    · exact h.names e he
    · rw [List.mem_singleton.mp he]
      have hall : (pids.map E.name).take pids.length = pids.map E.name :=
        List.take_of_length_le (by simp)
      simp [BgList.Bg.names, BgList.Bg.pids, hall]
  · intro e he
    rcases List.mem_append.mp he with he | he
    · exact h.leader e he
    · rw [List.mem_singleton.mp he]

theorem Coupled.mark (h : Coupled E s t) (p : ℕ) (b : Bool) :
    Coupled E (s.markSus p b) (t.mark p b) := by
  have hshape := h.shape.mark p b
  rw [BgList.mark_eq h.shape.size] at hshape ⊢
  refine ⟨hshape, ?_, h.waits, ?_, ?_⟩
  · -- the same change on both sides of `view`
    have hview : ∀ e : BgList.Bg, entryView (if p ∈ e.pids then { e with sus := b } else e) =
        if p ∈ (entryView e).2.1 then ((entryView e).1, (entryView e).2.1, b) else entryView e := by
      intro e
      show entryView (if p ∈ e.pids then _ else _) = if p ∈ e.pids then _ else _
      split <;> rfl
    have hview' : ∀ j : Bg, Bg.view (if p ∈ j.members then { j with sus := b } else j) =
        if p ∈ (Bg.view j).2.1 then ((Bg.view j).1, (Bg.view j).2.1, b) else Bg.view j := by
      intro j
      show Bg.view (if p ∈ j.members then _ else _) = if p ∈ j.members then _ else _
      split <;> rfl
    show (t.bgList.map _).map entryView = (s.jobs.map _).map Bg.view
    rw [List.map_map, List.map_map]
    calc t.bgList.map _
        = (t.bgList.map entryView).map
            fun v => if p ∈ v.2.1 then (v.1, v.2.1, b) else v := by
          rw [List.map_map]
          exact List.map_congr_left fun e _ => hview e
      _ = (s.jobs.map Bg.view).map fun v => if p ∈ v.2.1 then (v.1, v.2.1, b) else v := by
          rw [h.view]
      _ = _ := by
          rw [List.map_map]
          exact List.map_congr_left fun j _ => (hview' j).symm
  · intro e' he'
    obtain ⟨e, he, rfl⟩ := List.mem_map.mp he'
    split
    · exact h.names e he
    · exact h.names e he
  · intro e' he'
    obtain ⟨e, he, rfl⟩ := List.mem_map.mp he'
    split
    · exact h.leader e he
    · exact h.leader e he

/-- The job at an index is the entry there. -/
theorem Coupled.getElem? (h : Coupled E s t) {i : ℕ} {ms : List ℕ} (hi : s.table[i]? = some ms) :
    ∃ e j, t.bgList[i]? = some e ∧ s.jobs[i]? = some j ∧ entryView e = Bg.view j ∧ e.pids = ms := by
  obtain ⟨j, hj, rfl⟩ : ∃ j, s.jobs[i]? = some j ∧ j.members = ms := by
    simpa [State.table] using hi
  have hv : (t.bgList.map entryView)[i]? = some (Bg.view j) := by
    rw [h.view, List.getElem?_map, hj]
    rfl
  obtain ⟨e, he, hej⟩ : ∃ e, t.bgList[i]? = some e ∧ entryView e = Bg.view j := by
    simpa using hv
  exact ⟨e, j, he, hj, hej, congrArg (·.2.1) hej⟩

theorem Coupled.setSus (h : Coupled E s t) {i : ℕ} {ms : List ℕ} (hi : s.table[i]? = some ms)
    (b : Bool) : Coupled E (s.setSus i b) (t.setSus i b) := by
  obtain ⟨e, j, he, hj, hej, -⟩ := h.getElem? hi
  have hshape := h.shape.setSus he b
  have hfrom : ∀ e' ∈ (t.setSus i b).bgList, ∃ e ∈ t.bgList, e'.names = e.names ∧
      e'.pids = e.pids ∧ e'.pid = e.pid ∧ e'.pgid = e.pgid := by
    intro e' he'
    obtain ⟨k, hk⟩ := List.mem_iff_getElem?.mp he'
    rw [show (t.setSus i b).bgList[k]? = (t.bgList.modify i _)[k]? from rfl,
      List.getElem?_modify] at hk
    obtain ⟨e₀, h₀, rfl⟩ := Option.map_eq_some_iff.mp hk
    refine ⟨e₀, List.mem_of_getElem? h₀, ?_⟩
    split <;> exact ⟨rfl, rfl, rfl, rfl⟩
  refine ⟨hshape, ?_, h.waits, ?_, ?_⟩
  · apply List.ext_getElem?
    intro k
    have hk : (t.bgList.map entryView)[k]? = (s.jobs.map Bg.view)[k]? := by rw [h.view]
    simp only [List.getElem?_map, Table.setSus, State.setSus, List.getElem?_modify] at hk ⊢
    by_cases hik : i = k
    · subst hik
      have hej' : e.pgid = j.pgid ∧ e.pids = j.members := by
        simp only [entryView, Bg.view, Prod.mk.injEq] at hej
        exact ⟨hej.1, hej.2.1⟩
      rw [he, hj]
      simp only [if_true, Option.map_eq_map, Option.map_some]
      show some (e.pgid, e.pids, b) = some (j.pgid, j.members, b)
      rw [hej'.1, hej'.2]
    · simpa [hik] using hk
  · intro e' he'
    obtain ⟨e, he, hn, hp, -⟩ := hfrom e' he'
    rw [hn, hp, h.names e he]
  · intro e' he'
    obtain ⟨e, he, -, -, hp, hg⟩ := hfrom e' he'
    rw [hp, hg, h.leader e he]

theorem Coupled.removeAt (h : Coupled E s t) {i : ℕ} {ms : List ℕ} (hi : s.table[i]? = some ms) :
    Coupled E { s with jobs := s.jobs.eraseIdx i } (t.removeAt E.junk i) := by
  obtain ⟨e, j, he, -, -, -⟩ := h.getElem? hi
  have hlt : i < t.bgSize := h.shape.size ▸ (List.getElem?_eq_some_iff.mp he).1
  have hshape := h.shape.removeAt E.junk he
  rw [BgList.removeAt_eq E.junk h.shape.size hlt] at hshape ⊢
  refine ⟨hshape, ?_, h.waits, ?_, ?_⟩
  · show (t.bgList.eraseIdx i).map _ = (s.jobs.eraseIdx i).map _
    rw [← List.eraseIdx_map, ← List.eraseIdx_map, h.view]
  · exact fun e' he' => h.names e' (List.mem_of_mem_eraseIdx he')
  · exact fun e' he' => h.leader e' (List.mem_of_mem_eraseIdx he')

/-- The processes of the two tables. -/
theorem Coupled.mem_iff (h : Coupled E s t) {p : ℕ} :
    (∃ e ∈ t.bgList, p ∈ e.pids) ↔ p ∈ s.table.flatten := by
  have htable : t.bgList.map (·.pids) = s.table := by
    have hv := congrArg (List.map (·.2.1)) h.view
    simpa [entryView, Bg.view, Function.comp_def, State.table] using hv
  rw [← htable]
  simp

/-- `announceBg` at the first job with the process. -/
theorem announceBg_append {p : ℕ} {pre post : List Bg} {j : Bg} (hpre : ∀ j' ∈ pre, p ∉ j'.members)
    (hp : p ∈ j.members) : announceBg p (pre ++ j :: post) =
      pre ++ (if j.members.erase p = [] then post
        else { j with members := j.members.erase p } :: post) := by
  induction pre with
  | nil => rw [List.nil_append, announceBg, if_pos hp, List.nil_append]
  | cons j' pre ih =>
    rw [List.forall_mem_cons] at hpre
    rw [List.cons_append, announceBg, if_neg hpre.1, ih hpre.2, List.cons_append]

/-- A job after an announcement was there before, with more members. -/
theorem announceBg_from {p : ℕ} {js : List Bg} : ∀ j' ∈ announceBg p js, ∃ j ∈ js,
    j'.pgid = j.pgid ∧ j'.members ⊆ j.members ∧ j'.sus = j.sus := by
  induction js with
  | nil => simp [announceBg]
  | cons j js ih =>
    intro j' hj'
    rw [announceBg] at hj'
    split at hj'
    · split at hj'
      · exact ⟨j', List.mem_cons_of_mem _ hj', rfl, List.Subset.refl _, rfl⟩
      · rcases List.mem_cons.mp hj' with rfl | hj'
        · exact ⟨j, List.mem_cons_self, rfl, List.erase_subset, rfl⟩
        · exact ⟨j', List.mem_cons_of_mem _ hj', rfl, List.Subset.refl _, rfl⟩
    · rcases List.mem_cons.mp hj' with rfl | hj'
      · exact ⟨j', List.mem_cons_self, rfl, List.Subset.refl _, rfl⟩
      · obtain ⟨j₀, h₀, he⟩ := ih j' hj'
        exact ⟨j₀, List.mem_cons_of_mem _ h₀, he⟩

theorem announce_from {ps : List ℕ} {js : List Bg} :
    ∀ j' ∈ ps.foldl (fun js p => announceBg p js) js, ∃ j ∈ js,
      j'.pgid = j.pgid ∧ j'.members ⊆ j.members ∧ j'.sus = j.sus := by
  induction ps generalizing js with
  | nil => exact fun j hj => ⟨j, hj, rfl, List.Subset.refl _, rfl⟩
  | cons p ps ih =>
    intro j' hj'
    obtain ⟨j₁, h₁, hg₁, hm₁, hs₁⟩ := ih j' hj'
    obtain ⟨j, hj, hg, hm, hs⟩ := announceBg_from j₁ h₁
    exact ⟨j, hj, hg₁.trans hg, fun q hq => hm (hm₁ hq), hs₁.trans hs⟩

theorem announceBg_not_mem {p : ℕ} {js : List Bg} (h : ∀ j ∈ js, p ∉ j.members) :
    announceBg p js = js := by
  induction js with
  | nil => rfl
  | cons j js ih =>
    rw [List.forall_mem_cons] at h
    rw [announceBg, if_neg h.1, ih h.2]

theorem Coupled.announceBg (h : Coupled E s t) (p : ℕ) :
    Coupled E { s with jobs := announceBg p s.jobs } (t.announceBg E.junk p) := by
  have hshape := h.shape.announceBg E.junk p
  have hmem : ∀ {js : List Bg} {es : List BgList.Bg}, es.map entryView = js.map Bg.view →
      (∀ e ∈ es, p ∉ e.pids) → ∀ j ∈ js, p ∉ j.members := by
    intro js es hv hes j hj
    obtain ⟨e, he, hej⟩ := List.mem_map.mp (hv ▸ List.mem_map_of_mem hj : Bg.view j ∈ es.map entryView)
    have hm : e.pids = j.members := congrArg (·.2.1) hej
    exact hm ▸ hes e he
  obtain ⟨hno, heq⟩ | ⟨pre, e, post, m, hl, hpre, hm, hlt, heq⟩ :=
    BgList.announceBg_cases E.junk p h.shape
  · rw [heq, announceBg_not_mem (hmem h.view hno)]
    exact h
  · -- cut the list where the code's table is cut
    have hv := h.view
    rw [hl, List.map_append, List.map_cons] at hv
    obtain ⟨jpre, jrest, hjs, hvpre, hvrest⟩ := List.map_eq_append_iff.mp hv.symm
    obtain ⟨j, jpost, rfl, hvj, hvpost⟩ := List.map_eq_cons_iff.mp hvrest
    have hok := h.shape.entry e (by simp [hl])
    have hms : j.members = e.pids := congrArg (·.2.1) hvj
    have hin : p ∈ e.pids := List.isSome_idxOf?.mp (by simp [hm])
    have herase : e.pids.erase p = e.pids.eraseIdx m := by
      rw [List.erase_eq_eraseIdx, hm]
    have hnil : j.members.erase p = [] ↔ e.num = 1 := by
      rw [hms, herase, ← List.length_eq_zero_iff, List.length_eraseIdx_of_lt (hok.pids_length ▸ hlt),
        hok.pids_length]
      have := hok.pos
      omega
    rw [heq] at hshape ⊢
    refine ⟨hshape, ?_, h.waits, ?_, ?_⟩
    · show (pre ++ (_ ++ post)).map entryView = (Jobs.announceBg p s.jobs).map Bg.view
      rw [hjs, announceBg_append (hmem hvpre.symm hpre) (hms ▸ hin)]
      by_cases h1 : e.num = 1
      · rw [if_pos h1, if_pos (hnil.mpr h1)]
        simp [hvpre, hvpost]
      · rw [if_neg h1, if_neg (mt hnil.mp h1)]
        have hd := BgList.dropMember_pids hok.pids_length hlt
        have hvd : entryView (Table.dropMember e m) = Bg.view { j with members := j.members.erase p } := by
          simp only [entryView, Bg.view, Prod.mk.injEq] at hvj ⊢
          exact ⟨hvj.1.symm, by rw [hd, hms, herase], hvj.2.2.symm⟩
        simp [hvpre, hvpost, hvd]
    · intro e' he'
      simp only [BgList.withList_bgList, List.mem_append, Option.mem_toList] at he'
      rcases he' with he' | he' | he'
      · exact h.names e' (by simp [hl, he'])
      · split at he'
        · cases he'
        · cases he'
          rw [BgList.dropMember_names hok.names_length hlt, BgList.dropMember_pids hok.pids_length hlt,
            h.names e (by simp [hl]), List.eraseIdx_map]
      · exact h.names e' (by simp [hl, he'])
    · intro e' he'
      simp only [BgList.withList_bgList, List.mem_append, Option.mem_toList] at he'
      rcases he' with he' | he' | he'
      · exact h.leader e' (by simp [hl, he'])
      · split at he'
        · cases he'
        · cases he'
          exact h.leader e (by simp [hl])
      · exact h.leader e' (by simp [hl, he'])

theorem Coupled.announceAll (h : Coupled E s t) (ps : List ℕ) :
    Coupled E { s with jobs := ps.foldl (fun js p => Jobs.announceBg p js) s.jobs }
      ((ps.map fun p => (p, (E.exit p).normal)).foldl (fun t w => t.announceBg E.junk w.1) t) := by
  induction ps generalizing s t with
  | nil => exact h
  | cons p ps ih => exact ih (h.announceBg p)

theorem Coupled.noLongerWaiting (h : Coupled E s t) :
    Coupled E { s with jobs := s.queue.foldl (fun js p => Jobs.announceBg p js) s.jobs, queue := [] }
      (t.noLongerWaiting E.junk) := by
  have hall := h.announceAll s.queue
  rw [Table.noLongerWaiting, h.waits]
  exact ⟨hall.shape.withWaits [], hall.view, rfl, hall.names, hall.leader⟩

/-- An exit that `plant` queues, or drops when `wait_list` is full. -/
theorem Coupled.queue (h : Coupled E s t) (p : ℕ) (child' : ℕ → Child) :
    Coupled E { s with
        child := child'
        queue := if s.queue.length < 100 then s.queue ++ [p] else s.queue }
      (t.plantOne p (E.exit p)) := by
  have hone : t.plantOne p (E.exit p) = if t.waitList.length < 100 then
      { t with waitList := t.waitList ++ [(p, (E.exit p).normal)] } else t := by
    unfold Env.exit
    cases E.code p <;> rfl
  have hlen : t.waitList.length = s.queue.length := by rw [h.waits, List.length_map]
  rw [hone, hlen]
  by_cases hq : s.queue.length < 100
  · rw [if_pos hq, if_pos hq]
    refine ⟨h.shape.withWaits _, h.view, ?_, h.names, h.leader⟩
    rw [List.map_append, ← h.waits]
    rfl
  · rw [if_neg hq, if_neg hq]
    exact h.same rfl rfl

/-- One round of the handler. -/
theorem Coupled.collect (h : Coupled E s t) {p : ℕ} (hp : (s.child p).pending = true) :
    Coupled E (s.collect p) (t.plantOne p (E.status s p)) := by
  obtain ⟨hc, he⟩ | ⟨hc, he⟩ | ⟨hc, he⟩ | ⟨hn, -⟩ := collect_cases s p
  · rw [he, Env.status, hc]
    have hsame : Coupled E (s.setChild p (.stopped false)) t := h.same rfl rfl
    exact hsame.mark p true
  · rw [he, Env.status, hc]
    have hsame : Coupled E (s.setChild p (.running false)) t := h.same rfl rfl
    exact hsame.mark p false
  · rw [he, Env.status, hc]
    exact h.queue p _
  · rw [hn] at hp
    cases hp

theorem Coupled.plant (h : Coupled E s t) {ps : List ℕ} (hn : ps.Nodup)
    (hp : ∀ p ∈ ps, (s.child p).pending = true) :
    Coupled E (ps.foldl State.collect s) (t.plant (ps.map fun p => (p, E.status s p))) := by
  induction ps generalizing s t with
  | nil => exact h
  | cons p ps ih =>
    obtain ⟨hpn, hn⟩ := List.nodup_cons.mp hn
    rw [List.forall_mem_cons] at hp
    -- the children still to be looked at are as they were
    have hchild : ∀ q ∈ ps, (s.collect p).child q = s.child q :=
      fun q hq => collect_child_ne fun he => hpn (he ▸ hq)
    have hst : (ps.map fun q => (q, E.status s q)) = ps.map fun q => (q, E.status (s.collect p) q) := by
      refine List.map_congr_left ?_
      intro q hq
      rw [Env.status, Env.status, hchild q hq]
    show Coupled E (ps.foldl State.collect (s.collect p)) (Table.plant _ (ps.map _))
    rw [hst]
    refine ih (h.collect hp.1) hn ?_
    intro q hq
    rw [hchild q hq]
    exact hp.2 q hq

/-- A step of the shell changes both tables in the same way. -/
theorem Coupled.move {a : Act} (h : Coupled E s t) (hok : Ok s) (hs : Move s a s') :
    Coupled E s' (E.table s t a) := by
  have hf := hok.fits
  cases hs with
  | stop | cont | exit => exact h.same rfl rfl
  | @plant ps hps =>
    have hn : s.pending.Nodup := List.nodup_range.filter _
    refine h.plant (hps.nodup_iff.mpr hn) ?_
    intro p hp
    simpa using (List.mem_filter.mp (hps.mem_iff.mp hp)).2
  | launch => exact h.same rfl rfl
  | fork => exact h.same rfl rfl
  | @register pids hm =>
    rw [hm] at hf
    have ht : E.table s t .forked = E.enter t pids false := by simp only [Env.table, hm]
    rw [ht]
    exact (h.enter (by simpa [Mode.Fits] using hf) false).same rfl rfl
  | @await l kind pids hm hl hk =>
    -- a foreground job is not in the table while it is waited for
    have ht : E.table s t .forked = t := by
      rw [Env.table, hm]
      cases l with
      | background => exact absurd rfl hl
      | piped => rfl
      | external => rfl
    rw [ht]
    exact h.same rfl rfl
  | waitStop => exact h.same rfl rfl
  | waitExit => exact h.same rfl rfl
  | waitFail => exact h.same rfl rfl
  | alarm => exact h.same rfl rfl
  | @keep w hm hk hst =>
    -- it stopped: only now it is entered
    rw [hm] at hf
    have ht : E.table s t .finish = E.enter t w.members true := by
      rw [Env.table, hm]
      cases hw : w.kind with
      | piped => simp [hw, hst]
      | external => simp [hw, hst]
      | resume i b => simp [hw, Fg.isNew] at hk
    rw [ht]
    exact (h.enter hf.1 true).same rfl rfl
  | @drop w hm hk hst =>
    have ht : E.table s t .finish = t := by
      rw [Env.table, hm]
      cases hw : w.kind with
      | piped => simp [hw, hst]
      | external => simp [hw, hst]
      | resume i b => simp [hw, Fg.isNew] at hk
    rw [ht]
    exact h.same rfl rfl
  | @suspend w i b hm hk hst =>
    rw [hm] at hf
    have ht : E.table s t .finish = t.setSus i true := by
      rw [Env.table, hm]
      simp [hk, hst]
    rw [ht]
    exact (h.setSus (hf.2.2.2 i b hk) true).same rfl rfl
  | @remove w i b hm hk hst =>
    rw [hm] at hf
    have ht : E.table s t .finish = t.removeAt E.junk i := by
      rw [Env.table, hm]
      simp [hk, hst]
    rw [ht]
    exact (h.removeAt (hf.2.2.2 i b hk)).same rfl rfl
  | @resumeBg i j hm hj =>
    have hi : (s.continueAll j.members).table[i]? = some j.members := by
      simp [State.table, State.continueAll, hj]
    have hsame : Coupled E (s.continueAll j.members) t := h.same rfl rfl
    exact hsame.setSus hi false
  | @resumeFg i b j hm hj =>
    have hi : (s.continueAll j.members).table[i]? = some j.members := by
      simp [State.table, State.continueAll, hj]
    have hsame : Coupled E (s.continueAll j.members) t := h.same rfl rfl
    exact (hsame.setSus hi false).same rfl rfl
  | announce => exact h.noLongerWaiting

end coupled

theorem full_step {E : Env} {x x' : State × Table} {a : Act} :
    (full E).step x a = some x' ↔ step x.1 a = some x'.1 ∧ x'.2 = E.table x.1 x.2 a := by
  simp only [full, Option.map_eq_some_iff]
  constructor
  · rintro ⟨s', hs, rfl⟩
    exact ⟨hs, rfl⟩
  · rintro ⟨hs, ht⟩
    exact ⟨x'.1, hs, by rw [← ht]⟩

/-- The code's table refines the list of jobs: in every run the two agree. -/
theorem refines {E : Env} {x : State × Table} (h : (full E).Reachable x) :
    sys.Reachable x.1 ∧ Coupled E x.1 x.2 := by
  refine (full E).invariant (I := fun x => sys.Reachable x.1 ∧ Coupled E x.1 x.2) ?_ ?_ h
  · rintro x rfl
    refine ⟨.init rfl, ⟨rfl, by simp⟩, rfl, rfl, ?_, ?_⟩
    · simp
    · simp
  · intro x a x' hi hs
    obtain ⟨hs, ht⟩ := full_step.mp hs
    rw [ht]
    exact ⟨.step hi.1 hs, hi.2.move (ok_of_reachable hi.1) (step_move hs)⟩

/-- Every process is called `sleep` and exits with 0. -/
def sleepEnv : Env where
  junk := ⟨0, 0, [], 0, false, [], 0, [], []⟩
  name _ := "sleep".toList
  code _ := some 0
  cmd _ := "sleep".toList
  args _ := []

end Jobs
