/-
`ping` against `activities`.

`activities` lists the members of the jobs, after a flush; `ping` looks for the process
id of the entry, the first process of the job when it was registered, which
`announce_bg` never changes.  The two views drift apart: `ping` refuses every other
member of a pipeline, and it still signals a first process that has exited.

* `Leads` — the first process of a job is in no other job and in no pipeline to come;
* `Drifted` — the kinds of process the two views differ on;
* `ping_agrees_iff` — `ping` does what `activities` shows except on these.
-/
import CshellXv6.Shell.JobRuns
import Mathlib.Data.List.Pairwise

namespace Jobs

open BgList (Table Signal Line ping)
open CString (decimal)

/-- The processes `activities` would list. -/
def listed (E : Env) (t : Table) : List ℕ :=
  (t.activities E.junk).2.filterMap fun
    | .job _ _ => none
    | .member pid _ _ => some pid

/-- `ping pid s`. -/
def pingArgs (pid s : ℕ) : List Cshell.Str := ["ping".toList, decimal pid, decimal s]

/-- `ping` sends the signal to the listed processes and refuses the others. -/
def PingAgrees (E : Env) (t : Table) (pid s : ℕ) : Prop :=
  if pid ∈ listed E t then (ping t (pingArgs pid s)).1 = [.kill pid (s % 64 : ℕ)]
  else ping t (pingArgs pid s) = ([], "ping: no such process found\n".toList)

instance (E : Env) (t : Table) (pid s : ℕ) : Decidable (PingAgrees E t pid s) :=
  if h : pid ∈ listed E t then
    decidable_of_iff ((ping t (pingArgs pid s)).1 = [.kill pid (s % 64 : ℕ)])
      (by simp [PingAgrees, h])
  else
    decidable_of_iff (ping t (pingArgs pid s) = ([], "ping: no such process found\n".toList))
      (by simp [PingAgrees, h])

/-! ### The first process of a job -/

/-- The process groups and the members. -/
def State.heads (s : State) : List (ℕ × List ℕ) := s.jobs.map fun j => (j.pgid, j.members)

/-- What holds of the process groups in every run: they are in no other job, and in no
pipeline that may still become one. -/
structure Leads (s : State) : Prop where
  lt : ∀ h ∈ s.heads, h.1 < s.next
  apart : s.heads.Pairwise fun h h' => h.1 ∉ h'.2 ∧ h'.1 ∉ h.2
  extra : ∀ h ∈ s.heads, h.1 ∉ s.mode.extra

section leads

variable {s s' : State}

theorem markSus_heads (s : State) (p : ℕ) (b : Bool) : (s.markSus p b).heads = s.heads := by
  rw [State.heads, State.heads, State.markSus, List.map_map]
  refine List.map_congr_left ?_
  intro j _
  simp only [Function.comp_apply]
  split <;> rfl

theorem setSus_heads (s : State) (i : ℕ) (b : Bool) : (s.setSus i b).heads = s.heads := by
  apply List.ext_getElem?
  intro k
  simp only [State.heads, State.setSus, List.getElem?_map, List.getElem?_modify]
  by_cases h : i = k
  · simp only [h, if_true]
    cases s.jobs[k]? <;> rfl
  · simp [h]

theorem collect_heads (s : State) (p : ℕ) : (s.collect p).heads = s.heads := by
  obtain ⟨-, he⟩ | ⟨-, he⟩ | ⟨-, he⟩ | ⟨-, he⟩ := collect_cases s p
  · rw [he, markSus_heads]
    rfl
  · rw [he, markSus_heads]
    rfl
  · rw [he]
    rfl
  · rw [he]

theorem plant_heads (s : State) (ps : List ℕ) : (ps.foldl State.collect s).heads = s.heads := by
  induction ps generalizing s with
  | nil => rfl
  | cons p ps ih => exact (ih _).trans (collect_heads s p)

/-- The jobs stay, and no process comes to the foreground. -/
theorem Leads.same (h : Leads s) (hh : s'.heads = s.heads) (hn : s'.next = s.next)
    (hx : ∀ p ∈ s'.mode.extra, p ∈ s.mode.extra) : Leads s' where
  lt := by
    rw [hh, hn]
    exact h.lt
  apart := hh ▸ h.apart
  extra g hg hin := h.extra g (hh ▸ hg) (hx _ hin)

/-- The foreground processes become a job. -/
theorem Leads.assign (h : Leads s) (hok : Ok s) (b : Bool) (hne : s.mode.extra ≠ []) :
    Leads { s.assign s.mode.extra b with mode := .prompt } := by
  have hhead : s.mode.extra.headD 0 ∈ s.mode.extra := by
    cases hx : s.mode.extra with
    | nil => exact absurd hx hne
    | cons p ps => exact List.mem_cons_self
  have hheads : State.heads { s.assign s.mode.extra b with mode := .prompt } =
      s.heads ++ [(s.mode.extra.headD 0, s.mode.extra)] := by
    simp [State.heads, State.assign]
  refine ⟨?_, ?_, fun _ _ => List.not_mem_nil⟩
  · rw [hheads]
    intro g hg
    rcases List.mem_append.mp hg with hg | hg
    · exact h.lt g hg
    · rw [List.mem_singleton.mp hg]
      exact hok.lt _ (List.mem_append_right _ hhead)
  · rw [hheads, List.pairwise_append]
    refine ⟨h.apart, List.pairwise_singleton _ _, ?_⟩
    intro g hg g' hg'
    rw [List.mem_singleton.mp hg']
    refine ⟨h.extra g hg, ?_⟩
    -- the new processes are in no job yet
    intro hin
    obtain ⟨j, hj, rfl⟩ := List.mem_map.mp hg
    have ht : s.mode.extra.headD 0 ∈ s.table.flatten :=
      List.mem_flatten_of_mem (List.mem_map_of_mem hj) hin
    exact List.disjoint_of_nodup_append hok.nodup ht hhead

/-- Some jobs are left, with some of their members. -/
theorem Leads.fewer (h : Leads s) {m : Mode} {js : List Bg} {q : List ℕ}
    (hm : ∀ j' ∈ js, ∃ j ∈ s.jobs, j'.pgid = j.pgid)
    (ha : (js.map fun j => (j.pgid, j.members)).Pairwise fun h h' => h.1 ∉ h'.2 ∧ h'.1 ∉ h.2)
    (hx : ∀ p ∈ m.extra, p ∈ s.mode.extra) : Leads { s with jobs := js, queue := q, mode := m } := by
  have hfrom : ∀ g ∈ js.map fun j => (j.pgid, j.members), ∃ g' ∈ s.heads, g.1 = g'.1 := by
    intro g hg
    obtain ⟨j', hj', rfl⟩ := List.mem_map.mp hg
    obtain ⟨j, hj, he⟩ := hm j' hj'
    exact ⟨(j.pgid, j.members), List.mem_map_of_mem hj, he⟩
  refine ⟨?_, ha, ?_⟩
  · intro g hg
    obtain ⟨g', hg', he⟩ := hfrom g hg
    rw [he]
    exact h.lt g' hg'
  · intro g hg hin
    obtain ⟨g', hg', he⟩ := hfrom g hg
    exact h.extra g' hg' (hx _ (he ▸ hin))

/-- An announcement keeps the process groups apart. -/
theorem announceBg_apart {p : ℕ} {js : List Bg}
    (h : js.Pairwise fun j j' => j.pgid ∉ j'.members ∧ j'.pgid ∉ j.members) :
    (announceBg p js).Pairwise fun j j' => j.pgid ∉ j'.members ∧ j'.pgid ∉ j.members := by
  induction js with
  | nil => exact h
  | cons j js ih =>
    rw [List.pairwise_cons] at h
    rw [announceBg]
    split
    · split
      · exact h.2
      · rw [List.pairwise_cons]
        refine ⟨?_, h.2⟩
        intro j' hj'
        obtain ⟨h1, h2⟩ := h.1 j' hj'
        exact ⟨h1, fun hin => h2 (List.erase_subset hin)⟩
    · rw [List.pairwise_cons]
      refine ⟨?_, ih h.2⟩
      intro j' hj'
      obtain ⟨j₀, h₀, he, hsub, -⟩ := announceBg_from j' hj'
      obtain ⟨h1, h2⟩ := h.1 j₀ h₀
      exact ⟨fun hin => h1 (hsub hin), he ▸ h2⟩

theorem Leads.announce (h : Leads s) :
    Leads { s with jobs := s.queue.foldl (fun js p => announceBg p js) s.jobs, queue := [] } := by
  have hall : ∀ (ps : List ℕ) (js : List Bg),
      (js.Pairwise fun j j' => j.pgid ∉ j'.members ∧ j'.pgid ∉ j.members) →
      (ps.foldl (fun js p => announceBg p js) js).Pairwise
        fun j j' => j.pgid ∉ j'.members ∧ j'.pgid ∉ j.members := by
    intro ps
    induction ps with
    | nil => exact fun js hjs => hjs
    | cons p ps ih => exact fun js hjs => ih _ (announceBg_apart hjs)
  refine h.fewer ?_ (List.pairwise_map.mpr (hall _ _ (List.pairwise_map.mp h.apart))) fun _ hx => hx
  intro j' hj'
  obtain ⟨j, hj, he, -⟩ := announce_from j' hj'
  exact ⟨j, hj, he⟩

theorem Leads.move {a : Act} (h : Leads s) (hok : Ok s) (hs : Move s a s') : Leads s' := by
  have hf := hok.fits
  have hprompt : ∀ p ∈ Mode.prompt.extra, p ∈ s.mode.extra := by simp [Mode.extra]
  cases hs with
  | stop | cont | exit => exact h.same rfl rfl fun _ hx => hx
  | plant =>
    have hfr := frame_plant s
    exact h.same (plant_heads s _) (hfr _).next fun p hp => (hfr _).mode ▸ hp
  | launch => exact h.same rfl rfl (by simp [Mode.extra])
  | @fork copy k pids left hm =>
    refine ⟨?_, h.apart, ?_⟩
    · intro g hg
      exact Nat.lt_succ_of_lt (h.lt g hg)
    · intro g hg hin
      have hext := h.extra g hg
      rw [hm] at hext
      rcases List.mem_append.mp hin with hin | hin
      · exact hext hin
      · exact Nat.lt_irrefl _ (List.mem_singleton.mp hin ▸ h.lt g hg)
  | @register pids hm =>
    -- the first process of the new job was forked for it, so it leads no other
    have he : s.mode.extra = pids := by simp [hm, Mode.extra]
    rw [hm] at hf
    exact he ▸ h.assign hok false (he ▸ by simpa [Mode.Fits] using hf)
  | await hm _ hk =>
    refine h.same rfl rfl ?_
    intro p hp
    rw [extra_waiting hk] at hp
    rw [hm]
    exact hp
  | waitStop hm =>
    refine h.same rfl rfl fun p hp => ?_
    rw [hm]
    exact hp
  | waitExit hm =>
    refine h.same rfl rfl fun p hp => ?_
    rw [hm]
    exact hp
  | waitFail hm =>
    refine h.same rfl rfl fun p hp => ?_
    rw [hm]
    exact hp
  | alarm => exact h.same rfl rfl hprompt
  | @keep w hm hk _ =>
    -- the same for a foreground job that stopped
    rw [hm] at hf
    have he : s.mode.extra = w.members := hm ▸ extra_waiting hk
    exact he ▸ h.assign hok true (he ▸ hf.1)
  | drop => exact h.same rfl rfl hprompt
  | @suspend w i => exact h.same (setSus_heads s i true) rfl hprompt
  | @remove w i =>
    refine h.fewer ?_ ?_ hprompt
    · exact fun j hj => ⟨j, List.mem_of_mem_eraseIdx hj, rfl⟩
    · rw [← List.eraseIdx_map]
      exact h.apart.eraseIdx i
  | @resumeBg i j => exact h.same (setSus_heads _ i false) rfl fun _ hx => hx
  | @resumeFg i b j =>
    exact h.same (setSus_heads _ i false) rfl (by simp [Mode.extra, Wait.start])
  | announce => exact h.announce

theorem leads_of_reachable (h : sys.Reachable s) : Leads s := by
  refine sys.invariant_of_reachable (I := Leads) ?_ ?_ h
  · intro s hs
    rw [show s = boot from hs]
    exact ⟨by simp [State.heads, boot], .nil, by simp [State.heads, boot]⟩
  · intro s a s' hr hi hs
    exact hi.move (ok_of_reachable hr) (step_move hs)

end leads

/-! ### What `ping` does -/

theorem findPid_isSome {t : Table} (hs : t.bgSize = t.bgList.length) (n : ℤ) :
    (t.findPid n).isSome = true ↔ ∃ e ∈ t.bgList, (e.pid : ℤ) = n := by
  rw [Table.findPid, hs, List.take_length, List.findIdx?_isSome, List.any_eq_true]
  simp

/-- A numeral is no job number. -/
theorem decimal_ne_percent (n : ℕ) (cs : List Char) : decimal n ≠ '%' :: cs := by
  intro he
  have hd : '%'.isDigit = true := CString.isDigit_of_mem_decimal (n := n) (he ▸ List.mem_cons_self)
  cases hd

/-- `ping pid s` looks for the process id among those of the entries, and reads `s` up to
the largest `long`. -/
theorem ping_eq {t : Table} {pid : ℕ} (hs : t.bgSize = t.bgList.length) (hp : pid < 2 ^ 31) (s : ℕ) :
    (∃ e ∈ t.bgList, e.pid = pid) ∧
      (ping t (pingArgs pid s)).1 = [.kill pid (min s (2 ^ 63 - 1) % 64 : ℕ)] ∨
    (∀ e ∈ t.bgList, e.pid ≠ pid) ∧
      ping t (pingArgs pid s) = ([], "ping: no such process found\n".toList) := by
  have hpid : min (pid : ℤ) (2 ^ 63 - 1) = pid := by omega
  have hsig : ¬ (([] : List Char) ≠ [] ∨ min (s : ℤ) (2 ^ 63 - 1) < 0) := by
    simp
  have hmod : (min (s : ℤ) (2 ^ 63 - 1)).tmod 64 = (min s (2 ^ 63 - 1) % 64 : ℕ) := by
    rw [Int.tmod_eq_emod_of_nonneg (by omega)]
    omega
  have hfind := findPid_isSome hs pid
  unfold pingArgs ping
  simp only [CString.strtol_decimal]
  rw [if_neg hsig]
  split
  · rename_i ds hd
    exact absurd hd (decimal_ne_percent pid ds)
  · simp only [hpid, ne_eq, not_true_eq_false, if_false]
    cases hf : t.findPid pid with
    | none =>
      right
      rw [hf] at hfind
      refine ⟨?_, rfl⟩
      intro e he hep
      simp only [Option.isSome_none, Bool.false_eq_true, false_iff] at hfind
      exact hfind ⟨e, he, by rw [hep]⟩
    | some i =>
      left
      rw [hf] at hfind
      obtain ⟨e, he, hep⟩ := hfind.mp rfl
      refine ⟨⟨e, he, by exact_mod_cast hep⟩, ?_⟩
      have hint : CString.toInt pid = pid := by
        rw [CString.toInt]
        exact Int.bmod_eq_of_le (by omega) (by omega)
      rw [hmod, hint]

/-- What `activities` lists: the members whose exit is not waiting to be announced. -/
theorem mem_listed {E : Env} {s : State} {t : Table} (hc : Coupled E s t) (hok : Ok s) {pid : ℕ} :
    pid ∈ listed E t ↔ (∃ e ∈ t.bgList, pid ∈ e.pids) ∧ pid ∉ t.waitList.map (·.1) := by
  have hn : s.table.flatten.Nodup := (List.nodup_append'.mp hok.nodup).1
  have hafter := hc.noLongerWaiting
  have hlines : pid ∈ listed E t ↔ ∃ e ∈ (t.noLongerWaiting E.junk).bgList, pid ∈ e.pids := by
    have hpids : ∀ e ∈ (t.noLongerWaiting E.junk).bgList, e.pids = e.pairs.map (·.1) := by
      intro e he
      have hsh := hafter.shape.entry e he
      rw [BgList.Bg.pairs, List.map_fst_zip (by rw [hsh.pids_length, hsh.names_length])]
    rw [listed, List.mem_filterMap]
    constructor
    · rintro ⟨line, hl, hp⟩
      cases line with
      | job => cases hp
      | member p name stopped =>
        cases hp
        obtain ⟨e, he, hpair, -⟩ := (BgList.mem_lines hafter.shape).mp hl
        exact ⟨e, he, (List.of_mem_zip hpair).1⟩
    · rintro ⟨e, he, hp⟩
      rw [hpids e he] at hp
      obtain ⟨y, hy, rfl⟩ := List.mem_map.mp hp
      exact ⟨.member y.1 y.2 e.sus, (BgList.mem_lines hafter.shape).mpr ⟨e, he, hy, rfl⟩, rfl⟩
  have hwait : t.waitList.map (·.1) = s.queue := by
    rw [hc.waits, List.map_map]
    exact (List.map_congr_left fun _ _ => rfl).trans (List.map_id _)
  have hflat : (State.table { s with
      jobs := s.queue.foldl (fun js p => announceBg p js) s.jobs, queue := [] }).flatten =
      s.table.flatten.diff s.queue := announce_flatten s.queue s.jobs
  rw [hlines, hafter.mem_iff, hflat, hn.mem_sdiff_iff, hc.mem_iff, hwait]

/-! ### Where the two agree -/

/-- The two kinds of process the views differ on: a member that is not the first process of
its job, while its own exit is not collected, and the first process of a job once its exit
is, whether it has left the members or is waiting to be announced. -/
def Drifted (t : Table) (pid : ℕ) : Prop :=
  ∃ e ∈ t.bgList, pid ∈ e.pids ∧ pid ∉ t.waitList.map (·.1) ∧ pid ≠ e.pid ∨
    pid = e.pid ∧ (pid ∉ e.pids ∨ pid ∈ t.waitList.map (·.1))

instance (t : Table) (pid : ℕ) : Decidable (Drifted t pid) :=
  inferInstanceAs (Decidable (∃ e ∈ t.bgList, _))

/-- A first process is in no other job. -/
theorem leader_unique {E : Env} {s : State} {t : Table} (hc : Coupled E s t) (hl : Leads s)
    {e e' : BgList.Bg} (he : e ∈ t.bgList) (he' : e' ∈ t.bgList) (hin : e.pid ∈ e'.pids) : e' = e := by
  have hheads : t.bgList.map (fun e => (e.pgid, e.pids)) = s.heads := by
    have hv := congrArg (List.map fun v => (v.1, v.2.1)) hc.view
    simpa [entryView, Bg.view, Function.comp_def, State.heads] using hv
  have hap : t.bgList.Pairwise fun e e' => e.pgid ∉ e'.pids ∧ e'.pgid ∉ e.pids :=
    List.pairwise_map.mp (hheads ▸ hl.apart)
  by_contra hne
  have hsymm : Std.Symm fun e e' : BgList.Bg => e.pgid ∉ e'.pids ∧ e'.pgid ∉ e.pids :=
    ⟨fun _ _ h => ⟨h.2, h.1⟩⟩
  have hee := hap.forall he he' fun heq => hne heq.symm
  exact hee.1 (hc.leader e he ▸ hin)

/-- The signal `ping` reads is the one that was asked for. -/
theorem signal_read_iff (s : ℕ) :
    min s (2 ^ 63 - 1) % 64 = s % 64 ↔ s < 2 ^ 63 ∨ s % 64 = 63 := by omega

/-- **`ping` and `activities` agree** on a process if and only if it is none of the kinds
the two views differ on, and the signal number is read as it was written. -/
theorem ping_agrees_iff (E : Env) (x : State × Table) (h : (full E).Reachable x) (pid s : ℕ)
    (hp : pid < 2 ^ 31) :
    PingAgrees E x.2 pid s ↔ ¬ Drifted x.2 pid ∧
      ((∃ e ∈ x.2.bgList, pid ∈ e.pids) ∧ pid ∉ x.2.waitList.map (·.1) →
        s < 2 ^ 63 ∨ s % 64 = 63) := by
  obtain ⟨hr, hc⟩ := refines h
  have hl := leads_of_reachable hr
  have hlist : pid ∈ listed E x.2 ↔ _ := mem_listed hc (ok_of_reachable hr)
  unfold PingAgrees
  rcases ping_eq hc.shape.size hp s with ⟨⟨e, he, hep⟩, hping⟩ | ⟨hno, hping⟩
  · by_cases hin : pid ∈ listed E x.2
    · -- a first process that is listed
      obtain ⟨⟨e₁, he₁, hpe₁⟩, hw⟩ := hlist.mp hin
      have hnd : ¬ Drifted x.2 pid := by
        rintro ⟨e₂, he₂, ⟨hpe₂, -, hne⟩ | ⟨heq, hgone⟩⟩
        · rw [leader_unique hc hl he he₂ (hep ▸ hpe₂)] at hne
          exact hne hep.symm
        · have h₁ : e₁ = e₂ := leader_unique hc hl he₂ he₁ (heq ▸ hpe₁)
          rcases hgone with hgone | hgone
          · exact hgone (h₁ ▸ hpe₁)
          · exact hw hgone
      rw [if_pos hin, hping]
      simp only [List.cons.injEq, and_true, Signal.kill.injEq, true_and, hnd, not_false_eq_true]
      rw [Int.natCast_inj, signal_read_iff]
      exact ⟨fun hs _ => hs, fun hs => hs ⟨⟨e₁, he₁, hpe₁⟩, hw⟩⟩
    · -- a first process that has exited
      rw [if_neg hin]
      refine iff_of_false ?_ ?_
      · intro heq
        rw [heq] at hping
        cases hping
      · rintro ⟨hnd, -⟩
        refine hnd ⟨e, he, .inr ⟨hep.symm, ?_⟩⟩
        by_contra hboth
        rw [not_or, not_not] at hboth
        exact hin (hlist.mpr ⟨⟨e, he, hboth.1⟩, hboth.2⟩)
  · by_cases hin : pid ∈ listed E x.2
    · -- another member
      obtain ⟨⟨e, he, hpe⟩, hw⟩ := hlist.mp hin
      rw [if_pos hin, hping]
      refine iff_of_false (by simp) ?_
      rintro ⟨hnd, -⟩
      exact hnd ⟨e, he, .inl ⟨hpe, hw, fun heq => hno e he heq.symm⟩⟩
    · rw [if_neg hin]
      refine iff_of_true hping ⟨?_, fun hm => absurd (hlist.mpr hm) hin⟩
      rintro ⟨e, he, ⟨hpe, hw, -⟩ | ⟨heq, -⟩⟩
      · exact hin (hlist.mpr ⟨⟨e, he, hpe⟩, hw⟩)
      · exact hno e he heq.symm

theorem full_boot (E : Env) : (full E).Reachable (boot, ⟨[], 0, 1, []⟩) := .init rfl

/-- A pipeline of two in the background. -/
def twoInBackground : List Act := [.launch .background 2, .fork false, .fork false, .forked]

/-- The first process of the pipeline gets the signal. -/
theorem ping_agrees_first : ∃ x, (full sleepEnv).Reachable x ∧ 0 ∈ listed sleepEnv x.2 ∧
    PingAgrees sleepEnv x.2 0 9 := by
  obtain ⟨x, hreach, hin, hnd⟩ := Sys.exists_of_run _ twoInBackground (full_boot sleepEnv)
    (p := fun x => 0 ∈ listed sleepEnv x.2 ∧ ¬ Drifted x.2 0) (by decide +kernel)
  exact ⟨x, hreach, hin, (ping_agrees_iff sleepEnv x hreach 0 9 (by omega)).mpr
    ⟨hnd, fun _ => .inl (by omega)⟩⟩

/-- The second process is listed and `ping` refuses it. -/
theorem ping_refuses_second : ∃ x, (full sleepEnv).Reachable x ∧ 1 ∈ listed sleepEnv x.2 ∧
    ¬ PingAgrees sleepEnv x.2 1 9 :=
  Sys.exists_of_run _ twoInBackground (full_boot sleepEnv) (by decide +kernel)

end Jobs
