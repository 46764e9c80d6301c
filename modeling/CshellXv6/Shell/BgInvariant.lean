/-
What holds of `bg_list` in every run.

* `Table.Ok` — the table is in order, with the registrations `l` of the run;
* `touched` — the numbers of the jobs a step is about;
* `table_invariant` — the table is in order in every run, and a step leaves the other
  jobs and their order as they are.
-/
import CshellXv6.Shell.BgEdits

namespace BgList

open Cshell CArray CString

/-- A registration: the job number and the members with their names. -/
structure Reg where
  job : ℕ
  pairs : List (ℕ × Str)
  deriving DecidableEq, Repr

/-- A table that is in order: the numbers of the jobs grow, and an entry has members
and names of its registration, each name with its process. -/
structure Table.Ok (t : Table) (l : List Reg) : Prop extends t.Shape where
  counted : t.jobs = l.length + 1
  numbered : l.Pairwise fun r r' => r'.job < r.job
  logged_lt : ∀ r ∈ l, r.job < t.jobs
  sorted : t.bgList.Pairwise fun e e' => e.job < e'.job
  lt : ∀ e ∈ t.bgList, e.job < t.jobs
  registered : ∀ e ∈ t.bgList, ∃ r ∈ l, e.job = r.job ∧ e.pairs.Sublist r.pairs

/-! ### The operations keep the table in order -/

section ok

variable {t t' : Table} {l : List Reg} {e : Bg} {new : Option Bg}

theorem Table.Ok.edit (h : t.Ok l) (he : Edit t t' e new)
    (hn : ∀ e' ∈ new, e'.job = e.job ∧ e'.Shape ∧ e'.pairs.Sublist e.pairs) : t'.Ok l := by
  have hshape := h.toShape.edit he fun e' he' => (hn e' he').2.1
  obtain ⟨pre, post, hl, rfl⟩ := he
  -- every entry was there, or is the new one with the number and some pairs of `e`
  have hcome : ∀ e' ∈ pre ++ (new.toList ++ post), ∃ e₀ ∈ t.bgList,
      e'.job = e₀.job ∧ e'.pairs.Sublist e₀.pairs := by
    intro e' he'
    simp only [List.mem_append, Option.mem_toList] at he'
    rcases he' with he' | he' | he'
    · exact ⟨e', by simp [hl, he'], rfl, List.Sublist.refl _⟩
    · exact ⟨e, by simp [hl], (hn e' he').1, (hn e' he').2.2⟩
    · exact ⟨e', by simp [hl, he'], rfl, List.Sublist.refl _⟩
  refine ⟨hshape, h.counted, h.numbered, h.logged_lt, ?_, ?_, ?_⟩
  · -- the job numbers are those from before, or one of them has gone
    have hsort : ((pre ++ e :: post).map (·.job)).Pairwise (· < ·) :=
      List.pairwise_map.mpr (hl ▸ h.sorted)
    refine List.pairwise_map.mp (hsort.sublist ?_)
    cases new with
    | none => simp
    | some e' => simp [(hn e' rfl).1]
  · intro e' he'
    obtain ⟨e₀, h₀, hj, -⟩ := hcome e' he'
    rw [hj]
    exact h.lt e₀ h₀
  · intro e' he'
    obtain ⟨e₀, h₀, hj, hsub⟩ := hcome e' he'
    obtain ⟨r, hr, hrj, hrs⟩ := h.registered e₀ h₀
    exact ⟨r, hr, hj.trans hrj, hsub.trans hrs⟩

theorem Table.Ok.mark (h : t.Ok l) (pid : ℕ) (b : Bool) : (t.mark pid b).Ok l := by
  have hshape := h.toShape.mark pid b
  rw [mark_eq h.size] at hshape ⊢
  have hjob : ∀ e : Bg, (if pid ∈ e.pids then { e with sus := b } else e).job = e.job := by
    intro e
    split <;> rfl
  have hpairs : ∀ e : Bg, (if pid ∈ e.pids then { e with sus := b } else e).pairs = e.pairs := by
    intro e
    split <;> rfl
  refine ⟨hshape, h.counted, h.numbered, h.logged_lt, ?_, ?_, ?_⟩
  · show List.Pairwise _ (t.bgList.map _)
    rw [List.pairwise_map]
    simpa only [hjob] using h.sorted
  · intro e' he'
    obtain ⟨e, he, rfl⟩ := List.mem_map.mp he'
    rw [hjob]
    exact h.lt e he
  · intro e' he'
    obtain ⟨e, he, rfl⟩ := List.mem_map.mp he'
    rw [hjob, hpairs]
    exact h.registered e he

theorem Table.Ok.setSus (h : t.Ok l) {i : ℕ} (he : t.bgList[i]? = some e) (b : Bool) :
    (t.setSus i b).Ok l := by
  refine h.edit (edit_setSus h.size he b) ?_
  rintro e' ⟨⟩
  have hok := h.entry e (List.mem_of_getElem? he)
  exact ⟨rfl, ⟨hok.pos, hok.pids_length, hok.names_length⟩, List.Sublist.refl _⟩

theorem Table.Ok.removeAt (h : t.Ok l) {i : ℕ} (junk : Bg) (he : t.bgList[i]? = some e) :
    (t.removeAt junk i).Ok l :=
  h.edit (edit_removeAt junk h.size he) (by simp)

theorem Table.Ok.announceBg (h : t.Ok l) (junk : Bg) (pid : ℕ) : (t.announceBg junk pid).Ok l := by
  obtain ⟨-, heq⟩ | ⟨e, new, -, hed, hnew⟩ := announceBg_edit junk pid h.toShape
  · rwa [heq]
  · refine h.edit hed ?_
    intro e' he'
    obtain ⟨hj, hs, -, hp⟩ := hnew e' he'
    exact ⟨hj, hs, hp⟩

theorem Table.Ok.announceAll (h : t.Ok l) (junk : Bg) (ws : List (ℕ × Bool)) :
    (ws.foldl (fun t w => t.announceBg junk w.1) t).Ok l := by
  induction ws generalizing t with
  | nil => exact h
  | cons w ws ih => exact ih (h.announceBg junk w.1)

theorem Table.Ok.withWaits (h : t.Ok l) (ws : List (ℕ × Bool)) : ({ t with waitList := ws }).Ok l :=
  ⟨h.toShape.withWaits ws, h.counted, h.numbered, h.logged_lt, h.sorted, h.lt, h.registered⟩

theorem Table.Ok.plantOne (h : t.Ok l) (pid : ℕ) (st : Status) : (t.plantOne pid st).Ok l := by
  have hexit : ∀ b : Bool, (if t.waitList.length < 100 then
      { t with waitList := t.waitList ++ [(pid, b)] } else t).Ok l := by
    intro b
    split
    · exact h.withWaits _
    · exact h
  cases st with
  | stopped => exact h.mark pid true
  | continued => exact h.mark pid false
  | exited code => exact hexit _
  | signaled => exact hexit _

theorem Table.Ok.plant (h : t.Ok l) (sts : List (ℕ × Status)) : (t.plant sts).Ok l := by
  induction sts generalizing t with
  | nil => exact h
  | cons x sts ih => exact ih (h.plantOne x.1 x.2)

theorem toInt_of_lt {n : ℕ} (h : n < 2 ^ 31) : toInt n = n := by
  rw [toInt]
  exact Int.bmod_eq_of_le (by omega) (by omega)

theorem Table.Ok.register {pids : List ℕ} {names : List Str} {num : ℕ} (h : t.Ok l) (junk : Bg)
    (sus : Bool) (cmd : Str) (args : List Str) (h1 : 1 ≤ num) (hp : num ≤ pids.length)
    (hn : num ≤ names.length) (hlt : l.length + 1 < 2 ^ 31) :
    (t.register junk pids names num sus cmd args).Ok
      (⟨t.jobs, (pids.take num).zip (names.take num)⟩ :: l) := by
  have hjobs : toInt t.jobs = t.jobs := toInt_of_lt (by rw [h.counted]; exact hlt)
  have hshape := h.toShape.register junk sus cmd args h1 hp hn
  rw [register_eq junk sus cmd args h.size hp hn, hjobs] at hshape ⊢
  refine ⟨hshape, by simp [h.counted], ?_, ?_, ?_, ?_, ?_⟩
  · rw [List.pairwise_cons]
    exact ⟨h.logged_lt, h.numbered⟩
  · rw [List.forall_mem_cons]
    exact ⟨Nat.lt_succ_self _, fun r hr => Nat.lt_succ_of_lt (h.logged_lt r hr)⟩
  · show (t.bgList ++ [_]).Pairwise _
    rw [List.pairwise_append]
    refine ⟨h.sorted, List.pairwise_singleton _ _, ?_⟩
    intro e he e' he'
    rw [List.mem_singleton.mp he']
    exact h.lt e he
  · intro e he
    show e.job < ((t.jobs + 1 : ℕ) : ℤ)
    rcases List.mem_append.mp he with he | he
    · have := h.lt e he
      omega
    · rw [List.mem_singleton.mp he]
      show (t.jobs : ℤ) < _
      omega
  · intro e he
    rcases List.mem_append.mp he with he | he
    · obtain ⟨r, hr, hreg⟩ := h.registered e he
      exact ⟨r, List.mem_cons_of_mem _ hr, hreg⟩
    · rw [List.mem_singleton.mp he]
      refine ⟨_, List.mem_cons_self, rfl, ?_⟩
      rw [Bg.pairs, Bg.pids, Bg.names, List.take_take, List.take_take, Nat.min_self]

end ok

/-! ### The steps -/

/-- The members and names a step registers a job with. -/
def Act.registers : Act → Option (List (ℕ × Str))
  | .assignBg pid cmd _ | .assignStopped pid cmd _ => some [(pid, cmd)]
  | .assignBgMulti pids num names _ _ | .assignStoppedMulti pids names num _ _ =>
    some ((pids.take num).zip (names.take num))
  | _ => none

/-- The registrations of a run. -/
def regs (s : State) (a : Act) : List Reg := (a.registers.map fun ps => ⟨s.table.jobs, ps⟩).toList

/-- What a step can do. -/
inductive Move (junk : Bg) (s : State) : Act → State → Prop
  | register {a : Act} {pids : List ℕ} {names : List Str} {num : ℕ} {sus : Bool} {cmd : Str}
      {args : List Str} : s.mode = .idle → 1 ≤ num → num ≤ pids.length → num ≤ names.length →
      a.registers = some ((pids.take num).zip (names.take num)) →
      Move junk s a { s with table := s.table.register junk pids names num sus cmd args }
  | announceBg {pid : ℕ} : s.mode = .idle →
      Move junk s (.announceBg pid) { s with table := s.table.announceBg junk pid }
  | noLongerWaiting : s.mode = .idle →
      Move junk s .noLongerWaiting { s with table := s.table.noLongerWaiting junk }
  | plant {sts : List (ℕ × Status)} : Move junk s (.plant sts) { s with table := s.table.plant sts }
  /-- an error message -/
  | refuse {args : List Str} : Move junk s (.resume args) s
  | resumeBg {args : List Str} {n : ℤ} {i : ℕ} : s.mode = .idle → jobNum args = some n →
      s.table.findJob n = some i →
      Move junk s (.resume args) { s with table := s.table.setSus i false }
  | resumeFg {args : List Str} {n : ℤ} {i : ℕ} {e : Bg} {timeout : Bool} : s.mode = .idle →
      jobNum args = some n → s.table.findJob n = some i → s.table.bgList[i]? = some e →
      Move junk s (.resume args)
        ⟨s.table.setSus i false, .resuming ⟨i, n, timeout, e.pids, false⟩⟩
  | waitpid {o : Outcome} {w w' : Resuming} : s.mode = .resuming w → w'.index = w.index →
      w'.n = w.n → Move junk s (.waitpid o) { s with mode := .resuming w' }
  | timed {o : Outcome} {w : Resuming} : s.mode = .resuming w →
      Move junk s (.waitpid o) { s with mode := .idle }
  | suspend {w : Resuming} : s.mode = .resuming w →
      Move junk s .resumed ⟨s.table.setSus w.index true, .idle⟩
  | remove {w : Resuming} : s.mode = .resuming w →
      Move junk s .resumed ⟨s.table.removeAt junk w.index, .idle⟩

/-- The job a call of `resume` is about is the one that was found. -/
theorem resume_cases {t : Table} {args : List Str} {c : Call} (h : resume t args = c) :
    c = .invalid ∨ c = .noSuch ∨
    ∃ n i, jobNum args = some n ∧ t.findJob n = some i ∧ (c = .bg i n ∨ ∃ b, c = .fg i n b) := by
  have hmode : ∀ (i : ℕ) (n : ℤ) (as : List Str), resumeMode i n as = .invalid ∨
      resumeMode i n as = .bg i n ∨ ∃ b, resumeMode i n as = .fg i n b := by
    intro i n as
    unfold resumeMode
    repeat' split
    all_goals simp
  subst h
  unfold resume
  split
  · exact .inl rfl
  · split
    · exact .inl rfl
    · rename_i n hn
      split
      · exact .inr (.inl rfl)
      · rename_i i hi
        rcases hmode i n (args.drop 2) with hm | hm | hm
        · exact .inl hm
        · exact .inr (.inr ⟨n, i, hn, hi, .inl hm⟩)
        · exact .inr (.inr ⟨n, i, hn, hi, .inr hm⟩)

theorem step_move {junk : Bg} {s s' : State} {a : Act} (h : step junk s a = some s') :
    Move junk s a s' := by
  cases a with
  | plant sts =>
    cases h
    exact .plant
  | assignBg pid cmd args =>
    simp only [step, Option.ite_none_right_eq_some] at h
    obtain ⟨hm, ⟨⟩⟩ := h
    exact .register hm (by simp) (by simp) (by simp) rfl
  | assignStopped pid cmd args =>
    simp only [step, Option.ite_none_right_eq_some] at h
    obtain ⟨hm, ⟨⟩⟩ := h
    exact .register hm (by simp) (by simp) (by simp) rfl
  | assignBgMulti pids num names fullCmd args =>
    simp only [step, Option.ite_none_right_eq_some] at h
    obtain ⟨⟨hm, h1, hp, hn⟩, ⟨⟩⟩ := h
    exact .register hm h1 hp hn rfl
  | assignStoppedMulti pids cmds num fullCmd args =>
    simp only [step, Option.ite_none_right_eq_some] at h
    obtain ⟨⟨hm, h1, hp, hn⟩, ⟨⟩⟩ := h
    exact .register hm h1 hp hn rfl
  | announceBg pid =>
    simp only [step, Option.ite_none_right_eq_some] at h
    obtain ⟨hm, ⟨⟩⟩ := h
    exact .announceBg hm
  | noLongerWaiting =>
    simp only [step, Option.ite_none_right_eq_some] at h
    obtain ⟨hm, ⟨⟩⟩ := h
    exact .noLongerWaiting hm
  | resume args =>
    simp only [step, Option.ite_none_right_eq_some] at h
    obtain ⟨hm, h⟩ := h
    obtain hc | hc | ⟨n, i, hn, hi, hc | ⟨b, hc⟩⟩ := resume_cases (rfl : resume s.table args = _)
    all_goals rw [hc] at h
    · cases h
      exact .refuse
    · cases h
      exact .refuse
    · cases h
      exact .resumeBg hm hn hi
    · obtain ⟨e, he, rfl⟩ := Option.map_eq_some_iff.mp h
      exact .resumeFg hm hn hi he
  | waitpid o =>
    simp only [step] at h
    split at h
    · rename_i hm
      cases h
      exact .waitpid hm rfl rfl
    · rename_i hm
      cases h
      exact .timed hm
    · cases h
  | resumed =>
    simp only [step] at h
    split at h
    · rename_i i n b hm
      cases h
      exact .suspend (w := ⟨i, n, b, [], true⟩) hm
    · rename_i i n b hm
      cases h
      exact .remove (w := ⟨i, n, b, [], false⟩) hm
    · cases h

/-! ### The jobs a step is not about -/

/-- The numbers of the jobs a step is about. -/
def touched (s : State) : Act → List ℤ
  | .assignBg _ _ _ | .assignStopped _ _ _ | .assignBgMulti _ _ _ _ _
  | .assignStoppedMulti _ _ _ _ _ => [(s.table.jobs : ℤ)]
  | .announceBg pid => ((s.table.bgList.find? (pid ∈ ·.pids)).map (·.job)).toList
  | .noLongerWaiting =>
    (s.table.bgList.filter fun e => ∃ w ∈ s.table.waitList, w.1 ∈ e.pids).map (·.job)
  | .plant sts => (s.table.bgList.filter fun e => ∃ x ∈ sts, x.1 ∈ e.pids).map (·.job)
  | .resume args => (jobNum args).toList
  | .waitpid _ => []
  | .resumed =>
    match s.mode with
    | .idle => []
    | .resuming w => [w.n]

/-- The other jobs, in their order. -/
def Table.others (t : Table) (js : List ℤ) : List Bg := t.bgList.filter fun e => e.job ∉ js

/-- The jobs that have one of the processes are among `js`. -/
def Covers (js : List ℤ) (t : Table) (ps : List ℕ) : Prop :=
  ∀ e ∈ t.bgList, ∀ p ∈ ps, p ∈ e.pids → e.job ∈ js

section others

variable {t t' : Table} {l : List Reg} {e : Bg} {new : Option Bg} {js : List ℤ}

theorem Edit.others (h : Edit t t' e new) (hn : ∀ e' ∈ new, e'.job = e.job) (hj : e.job ∈ js) :
    t'.others js = t.others js := by
  obtain ⟨pre, post, hl, rfl⟩ := h
  have hnew : ∀ e', new = some e' → e'.job ∈ js := by
    intro e' he'
    rw [hn e' he']
    exact hj
  simpa [Table.others, hl, hj] using hnew

/-- The entries of `t'` have the numbers of entries of `t`, and no other members. -/
def Comes (t t' : Table) : Prop :=
  ∀ e' ∈ t'.bgList, ∃ e ∈ t.bgList, e'.job = e.job ∧ e'.pids ⊆ e.pids

theorem Comes.covers (h : Comes t t') {ps : List ℕ} (hc : Covers js t ps) : Covers js t' ps := by
  intro e' he' p hp hin
  obtain ⟨e, he, hj, hsub⟩ := h e' he'
  rw [hj]
  exact hc e he p hp (hsub hin)

theorem comes_mark (hs : t.bgSize = t.bgList.length) (pid : ℕ) (b : Bool) :
    Comes t (t.mark pid b) := by
  rw [mark_eq hs]
  intro e' he'
  obtain ⟨e, he, rfl⟩ := List.mem_map.mp he'
  refine ⟨e, he, ?_⟩
  split
  · exact ⟨rfl, List.Subset.refl _⟩
  · exact ⟨rfl, List.Subset.refl _⟩

theorem others_mark (hs : t.bgSize = t.bgList.length) {pid : ℕ} (b : Bool)
    (hc : Covers js t [pid]) : (t.mark pid b).others js = t.others js := by
  rw [mark_eq hs]
  show (t.bgList.map _).filter _ = t.bgList.filter _
  rw [List.filter_map]
  have hjob : ((fun e : Bg => decide (e.job ∉ js)) ∘ fun e =>
      if pid ∈ e.pids then { e with sus := b } else e) = fun e => decide (e.job ∉ js) := by
    funext e
    simp only [Function.comp_apply]
    split <;> rfl
  rw [hjob]
  refine (List.map_congr_left ?_).trans (List.map_id _)
  intro e he
  obtain ⟨hm, hj⟩ := List.mem_filter.mp he
  -- a job outside `js` does not have the process
  have hno : pid ∉ e.pids := fun hin => (of_decide_eq_true hj) (hc e hm pid (by simp) hin)
  rw [if_neg hno]
  rfl

theorem plantOne_exit (t : Table) (pid : ℕ) (b : Bool) :
    (if t.waitList.length < 100 then { t with waitList := t.waitList ++ [(pid, b)] } else t).bgList =
      t.bgList := by
  split <;> rfl

theorem others_plantOne (hs : t.bgSize = t.bgList.length) {pid : ℕ} (st : Status)
    (hc : Covers js t [pid]) :
    (t.plantOne pid st).others js = t.others js ∧ Comes t (t.plantOne pid st) := by
  have hexit : ∀ b : Bool, Table.others (if t.waitList.length < 100 then
      { t with waitList := t.waitList ++ [(pid, b)] } else t) js = t.others js ∧
      Comes t (if t.waitList.length < 100 then
        { t with waitList := t.waitList ++ [(pid, b)] } else t) := by
    intro b
    rw [Table.others, Comes, plantOne_exit]
    exact ⟨rfl, fun e he => ⟨e, he, rfl, List.Subset.refl _⟩⟩
  cases st with
  | stopped => exact ⟨others_mark hs true hc, comes_mark hs pid true⟩
  | continued => exact ⟨others_mark hs false hc, comes_mark hs pid false⟩
  | exited code => exact hexit _
  | signaled => exact hexit _

theorem others_plant (h : t.Ok l) {sts : List (ℕ × Status)} (hc : Covers js t (sts.map (·.1))) :
    (t.plant sts).others js = t.others js := by
  induction sts generalizing t with
  | nil => rfl
  | cons x sts ih =>
    have h1 : Covers js t [x.1] := fun e he p hp => hc e he p (by simp_all)
    have h2 : Covers js t (sts.map (·.1)) := fun e he p hp => hc e he p (by simp_all)
    obtain ⟨ho, hcome⟩ := others_plantOne h.size x.2 h1
    exact (ih (h.plantOne x.1 x.2) (hcome.covers h2)).trans ho

theorem others_announceBg (h : t.Ok l) (junk : Bg) {pid : ℕ}
    (hj : ∀ e, t.bgList.find? (pid ∈ ·.pids) = some e → e.job ∈ js) :
    (t.announceBg junk pid).others js = t.others js := by
  obtain ⟨-, heq⟩ | ⟨e, new, hf, hed, hnew⟩ := announceBg_edit junk pid h.toShape
  · rw [heq]
  · exact hed.others (fun e' he' => (hnew e' he').1) (hj e hf)

theorem comes_announceBg (h : t.Ok l) (junk : Bg) (pid : ℕ) : Comes t (t.announceBg junk pid) := by
  obtain ⟨-, heq⟩ | ⟨e, new, -, ⟨pre, post, hl, heq⟩, hnew⟩ := announceBg_edit junk pid h.toShape
  · rw [heq]
    exact fun e he => ⟨e, he, rfl, List.Subset.refl _⟩
  · rw [heq]
    intro e' he'
    simp only [withList_bgList, List.mem_append, Option.mem_toList] at he'
    rcases he' with he' | he' | he'
    · exact ⟨e', by simp [hl, he'], rfl, List.Subset.refl _⟩
    · exact ⟨e, by simp [hl], (hnew e' he').1, (hnew e' he').2.2.1⟩
    · exact ⟨e', by simp [hl, he'], rfl, List.Subset.refl _⟩

theorem others_announceAll (h : t.Ok l) (junk : Bg) {ws : List (ℕ × Bool)}
    (hc : Covers js t (ws.map (·.1))) :
    (ws.foldl (fun t w => t.announceBg junk w.1) t).others js = t.others js := by
  induction ws generalizing t with
  | nil => rfl
  | cons w ws ih =>
    have h1 : ∀ e, t.bgList.find? (w.1 ∈ ·.pids) = some e → e.job ∈ js := by
      intro e he
      have hin := List.find?_some he
      exact hc e (List.mem_of_find?_eq_some he) w.1 (by simp) (by simpa using hin)
    have h2 : Covers js t (ws.map (·.1)) := fun e he p hp => hc e he p (by simp_all)
    exact (ih (h.announceBg junk w.1) ((comes_announceBg h junk w.1).covers h2)).trans
      (others_announceBg h junk h1)

/-- The job that was looked up. -/
theorem findJob_some (hs : t.bgSize = t.bgList.length) {n : ℤ} {i : ℕ} (h : t.findJob n = some i) :
    ∃ e, t.bgList[i]? = some e ∧ e.job = n := by
  rw [Table.findJob, hs, List.take_length] at h
  obtain ⟨hi, hj, -⟩ := List.findIdx?_eq_some_iff_getElem.mp h
  exact ⟨_, List.getElem?_eq_getElem hi, by simpa using hj⟩

end others

/-! ### Every run -/

/-- A resumed job is where it was found. -/
def Mode.Fits (es : List Bg) : Mode → Prop
  | .idle => True
  | .resuming w => ∃ e, es[w.index]? = some e ∧ e.job = w.n

structure Inv (s : State) (l : List Reg) : Prop where
  ok : s.table.Ok l
  fits : s.mode.Fits s.table.bgList

/-- The handler leaves every job at its index. -/
theorem plantOne_index {t : Table} (hs : t.bgSize = t.bgList.length) (pid : ℕ) (st : Status) {i : ℕ}
    {n : ℤ} (h : ∃ e, t.bgList[i]? = some e ∧ e.job = n) :
    ∃ e, (t.plantOne pid st).bgList[i]? = some e ∧ e.job = n := by
  have hmark : ∀ b, ∃ e, (t.mark pid b).bgList[i]? = some e ∧ e.job = n := by
    intro b
    obtain ⟨e, he, hj⟩ := h
    refine ⟨if pid ∈ e.pids then { e with sus := b } else e, ?_, ?_⟩
    · rw [mark_eq hs, withList_bgList, List.getElem?_map, he]
      rfl
    · split <;> exact hj
  cases st with
  | stopped => exact hmark true
  | continued => exact hmark false
  | exited code =>
    rw [Table.plantOne, plantOne_exit]
    · exact h
    all_goals simp
  | signaled =>
    rw [Table.plantOne, plantOne_exit]
    · exact h
    all_goals simp

theorem plant_index {t : Table} {l : List Reg} (h : t.Ok l) (sts : List (ℕ × Status)) {i : ℕ} {n : ℤ}
    (hi : ∃ e, t.bgList[i]? = some e ∧ e.job = n) :
    ∃ e, (t.plant sts).bgList[i]? = some e ∧ e.job = n := by
  induction sts generalizing t with
  | nil => exact hi
  | cons x sts ih => exact ih (h.plantOne x.1 x.2) (plantOne_index h.size x.1 x.2 hi)

theorem Inv.plant {s : State} {l : List Reg} (h : Inv s l) (sts : List (ℕ × Status)) :
    Inv { s with table := s.table.plant sts } l := by
  refine ⟨h.ok.plant sts, ?_⟩
  have hf := h.fits
  cases hm : s.mode with
  | idle => trivial
  | resuming w =>
    rw [hm] at hf
    exact plant_index h.ok sts hf

/-- The jobs a registration is about: the new one. -/
theorem touched_register {s : State} {a : Act} {ps : List (ℕ × Str)} (h : a.registers = some ps) :
    touched s a = [(s.table.jobs : ℤ)] := by
  cases a with
  | assignBg | assignStopped | assignBgMulti | assignStoppedMulti => rfl
  | announceBg | noLongerWaiting | plant | resume | waitpid | resumed => cases h

/-- What a step keeps. -/
theorem Inv.move {junk : Bg} {s s' : State} {a : Act} {l : List Reg} (h : Inv s l)
    (hlt : (regs s a ++ l).length < 2 ^ 31) (hm : Move junk s a s') :
    Inv s' (regs s a ++ l) ∧ s'.table.others (touched s a) = s.table.others (touched s a) := by
  have hs := h.ok.size
  have hf := h.fits
  cases hm with
  | @register a pids names num sus cmd args hidle h1 hp hn hr =>
    have hregs : regs s a = [⟨s.table.jobs, (pids.take num).zip (names.take num)⟩] := by
      rw [regs, hr]
      rfl
    rw [hregs] at hlt ⊢
    rw [touched_register hr]
    -- this is where the job number must not overflow
    have hl : l.length + 1 < 2 ^ 31 := hlt
    refine ⟨⟨h.ok.register junk sus cmd args h1 hp hn hl, ?_⟩, ?_⟩
    · rw [hidle]
      trivial
    · have hj : toInt s.table.jobs = s.table.jobs := toInt_of_lt (by rw [h.ok.counted]; exact hl)
      rw [register_eq junk sus cmd args hs hp hn]
      simp [Table.others, hj]
  | @announceBg pid hidle =>
    refine ⟨⟨h.ok.announceBg junk pid, hidle ▸ trivial⟩, others_announceBg h.ok junk ?_⟩
    intro e he
    simp [touched, he]
  | noLongerWaiting hidle =>
    -- each exit in `wait_list` is announced, and the jobs of these are the touched ones
    refine ⟨⟨(h.ok.announceAll junk _).withWaits [], hidle ▸ trivial⟩, ?_⟩
    refine others_announceAll h.ok junk ?_
    intro e he p hp hin
    obtain ⟨w, hw, rfl⟩ := List.mem_map.mp hp
    exact List.mem_map_of_mem (List.mem_filter.mpr ⟨he, decide_eq_true ⟨w, hw, hin⟩⟩)
  | @plant sts =>
    refine ⟨h.plant sts, others_plant h.ok ?_⟩
    intro e he p hp hin
    obtain ⟨x, hx, rfl⟩ := List.mem_map.mp hp
    exact List.mem_map_of_mem (List.mem_filter.mpr ⟨he, decide_eq_true ⟨x, hx, hin⟩⟩)
  | refuse => exact ⟨h, rfl⟩
  | @resumeBg args n i hidle hn hi =>
    obtain ⟨e, he, hj⟩ := findJob_some hs hi
    refine ⟨⟨h.ok.setSus he false, hidle ▸ trivial⟩, (edit_setSus hs he false).others ?_ ?_⟩
    · rintro e' ⟨⟩
      rfl
    · simp [touched, hn, hj]
  | @resumeFg args n i e' t hidle hn hi he' =>
    obtain ⟨e, he, hj⟩ := findJob_some hs hi
    refine ⟨⟨h.ok.setSus he false, ?_⟩, (edit_setSus hs he false).others ?_ ?_⟩
    · refine ⟨{ e with sus := false }, ?_, hj⟩
      show (s.table.bgList.modify i _)[i]? = _
      rw [List.getElem?_modify_eq, he]
      rfl
    · rintro e' ⟨⟩
      rfl
    · simp [touched, hn, hj]
  | @waitpid o w w' hm hi hn =>
    rw [hm] at hf
    refine ⟨⟨h.ok, ?_⟩, rfl⟩
    show ∃ e, _
    rw [hi, hn]
    exact hf
  | timed hm => exact ⟨⟨h.ok, trivial⟩, rfl⟩
  | @suspend w hm =>
    rw [hm] at hf
    obtain ⟨e, he, hj⟩ := hf
    refine ⟨⟨h.ok.setSus he true, trivial⟩, (edit_setSus hs he true).others ?_ ?_⟩
    · rintro e' ⟨⟩
      rfl
    · simp [touched, hm, hj]
  | @remove w hm =>
    rw [hm] at hf
    obtain ⟨e, he, hj⟩ := hf
    refine ⟨⟨h.ok.removeAt junk he, trivial⟩, (edit_removeAt junk hs he).others (by simp) ?_⟩
    simp [touched, hm, hj]

/-- In every run that registers fewer than `2 ^ 31` jobs. -/
theorem inv_of_reachable {junk : Bg} {x : State × List Reg}
    (h : ((sys junk).logged regs).Reachable x) : x.2.length < 2 ^ 31 → Inv x.1 x.2 := by
  refine Sys.logged_invariant _ (I := fun s l => l.length < 2 ^ 31 → Inv s l) ?_ ?_ h
  · rintro s rfl -
    exact ⟨⟨⟨rfl, by simp [boot]⟩, rfl, .nil, by simp, .nil, by simp [boot], by simp [boot]⟩, trivial⟩
  · intro s l a s' _ ih hs hlt
    have hlt' : l.length < 2 ^ 31 := by
      rw [List.length_append] at hlt
      omega
    exact ((ih hlt').move hlt (step_move hs)).1

/-- **The job table is in order in every run**, and a step leaves the jobs it is not
about as they are and in their order. -/
theorem table_invariant (junk : Bg) (s : State) (l : List Reg)
    (h : ((sys junk).logged regs).Reachable (s, l)) (hl : l.length < 2 ^ 31) :
    s.table.Ok l ∧ ∀ a s', step junk s a = some s' → (regs s a ++ l).length < 2 ^ 31 →
      s'.table.others (touched s a) = s.table.others (touched s a) := by
  have hinv := inv_of_reachable h hl
  refine ⟨hinv.ok, ?_⟩
  intro a s' hs hlt
  exact (hinv.move hlt (step_move hs)).2

/-- An entry as fresh memory often has it. -/
def zeroed : Bg := ⟨0, 0, [], 0, false, [], 0, [], []⟩

/-- A pipeline of two and a command in the background; the first process of the
pipeline exits and is announced, the second is resumed in the foreground, stopped and
continued from outside meanwhile, and exits. -/
def resumedRun : List Act :=
  [.assignBgMulti [7, 8] 2 ["cat".toList, "wc".toList] "cat".toList ["cat".toList],
    .assignBg 9 "sleep".toList ["sleep".toList, "5".toList], .plant [(7, .exited 0)],
    .noLongerWaiting, .resume ["resume".toList, "%1".toList, "fg".toList],
    .plant [(8, .stopped), (9, .stopped), (8, .continued)], .waitpid (.status false), .resumed]

/-- The job that is left is the second, with its process and its name. -/
theorem table_invariant_resumed : ∃ s l,
    ((sys zeroed).logged regs).Reachable (s, l) ∧ l.length = 2 ∧
    s.table.Ok l ∧ s.table.bgList.map (·.job) = [2] ∧
    s.table.bgList.map (·.pairs) = [[(9, "sleep".toList)]] := by
  have hinit : ((sys zeroed).logged regs).Reachable (boot, []) := .init ⟨rfl, rfl⟩
  obtain ⟨⟨s, l⟩, hreach, hl, hj, hp⟩ := Sys.exists_of_run _ resumedRun hinit
    (p := fun x => x.2.length = 2 ∧ x.1.table.bgList.map (·.job) = [2] ∧
      x.1.table.bgList.map (·.pairs) = [[(9, "sleep".toList)]]) (by decide +kernel)
  refine ⟨s, l, hreach, hl, (table_invariant _ s l hreach ?_).1, hj, hp⟩
  simp only at hl
  omega

end BgList
