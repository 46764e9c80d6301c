/-
The announcements of background exits.

`plant` collects an exit and puts it into `wait_list`, if that has room; the next
`no_longer_waiting` announces it, if the process is in the table by then.  The process
may exit before its job is registered: it is registered before the next flush, as the
main program does nothing else in between.

A copy of the shell that is forked with exits in `wait_list` announces them as well, and
the shell announces them again: what is said of the announcements is said of those of the
shell itself.

* `Event` — what the log of a run keeps;
* `due` — the process is registered, its exit is in `wait_list`, and there has been no
  flush since;
* `announced_once` — in every run a flush reports a background process if and only if it
  is due, under its name and with its status, and the process has gone from the table
  afterwards;
* `copy_reports` — a copy reports what is due when it is forked.
-/
import CshellXv6.Shell.JobRuns

namespace Jobs

open BgList (Table Status Report)

/-- The events of a run: a process is registered with a background job, a process is
started in the foreground or resumed there, `plant` collects an exit and `wait_list` has
room for it or not, `no_longer_waiting` prints, in the shell or in a copy of it. -/
inductive Event
  | registered (p : ℕ)
  | foreground (p : ℕ)
  | collected (p : ℕ) (room : Bool)
  | flush (rs : List Report)
  | copied (rs : List Report)
  deriving DecidableEq

/-- One round of `plant`. -/
def collectLog (s : State) (p : ℕ) : List Event :=
  if s.child p = .zombie then [.collected p (s.queue.length < 100)] else []

/-- The rounds of `plant`, the last one first. -/
def plantLog : State → List ℕ → List Event
  | _, [] => []
  | s, p :: ps => plantLog (s.collect p) ps ++ collectLog s p

/-- The events of a step. -/
def Env.events (E : Env) (x : State × Table) : Act → List Event
  | .plant ps => plantLog x.1 ps
  | .fork true => [.copied (x.2.reports E.junk x.2.waitList)]
  | .forked =>
    match x.1.mode with
    | .forking .background pids 0 => pids.map .registered
    | .forking _ pids 0 => pids.map .foreground
    | _ => []
  | .resumeFg i _ => ((x.1.table[i]?).getD []).map .foreground
  | .announce => [.flush (x.2.reports E.junk x.2.waitList)]
  | _ => []

/-- The exit of `p` has been collected; with `full`, also when `wait_list` had no room
for it. -/
def exits (full : Bool) (p : ℕ) (l : List Event) : Bool :=
  Event.collected p true ∈ l ∨ full ∧ Event.collected p false ∈ l

/-- There has been a flush since `p` was registered and its exit collected. -/
def announced (full : Bool) (p : ℕ) : List Event → Bool
  | [] => false
  | .flush _ :: l => announced full p l || (Event.registered p ∈ l && exits full p l)
  | _ :: l => announced full p l

/-- The next flush is the one that has to report `p`. -/
def due (full : Bool) (p : ℕ) (l : List Event) : Bool :=
  Event.registered p ∈ l && exits full p l && !announced full p l

/-- What is to be reported: `normally` for the exit status 0. -/
def Env.reportOf (E : Env) (p : ℕ) : Report := ⟨E.name p, p, E.code p = some 0⟩

/-- All that the shell has printed. -/
def printed : List Event → List Report
  | [] => []
  | .flush rs :: l => printed l ++ rs
  | _ :: l => printed l

/-- A flush reports `p` when it is due and at no other time, in the whole run there is one
report once it has been due, and then neither `p` nor its name is in the table any more. -/
structure AnnouncedOnce (E : Env) (full : Bool) (p : ℕ) (x : State × Table) (l : List Event) :
    Prop where
  flush : ∀ l₁ rs l₂, l = l₁ ++ .flush rs :: l₂ →
    rs.filter (·.pid = p) = if due full p l₂ then [E.reportOf p] else []
  once : (printed l).filter (·.pid = p) = if announced full p l then [E.reportOf p] else []
  gone : announced full p l = true →
    ∀ e ∈ x.2.bgList, p ∉ e.pids ∧ e.names = e.pids.map E.name

/-! ### What a flush prints -/

theorem normal_exit (E : Env) (p : ℕ) : (E.exit p).normal = (E.code p = some 0 : Bool) := by
  unfold Env.exit
  cases h : E.code p with
  | none => simp [Status.normal]
  | some c => simp [Status.normal]

/-- The reports of a flush about one process. -/
theorem reports_filter {E : Env} {s : State} {t : Table} {ps : List ℕ} {p : ℕ} (h : Coupled E s t)
    (hn : ps.Nodup) (ht : s.table.flatten.Nodup) :
    (t.reports E.junk (ps.map fun p => (p, (E.exit p).normal))).filter (·.pid = p) =
      if p ∈ ps ∧ p ∈ s.table.flatten then [E.reportOf p] else [] := by
  induction ps generalizing s t with
  | nil => simp [Table.reports]
  | cons q ps ih =>
    obtain ⟨hq, hn⟩ := List.nodup_cons.mp hn
    have hflat : (State.table { s with jobs := announceBg q s.jobs }).flatten =
        s.table.flatten.erase q := announceBg_flatten q s.jobs
    have hrest := ih (h.announceBg q) hn (hflat ▸ ht.erase q)
    rw [hflat] at hrest
    rw [List.map_cons, Table.reports, List.filter_append, hrest]
    -- the report about `q` itself
    have hone : t.report q (E.exit q).normal =
        if q ∈ s.table.flatten then some (E.reportOf q) else none := by
      by_cases hin : q ∈ s.table.flatten
      · rw [if_pos hin, BgList.report_some h.shape h.names (h.mem_iff.mpr hin), Env.reportOf, normal_exit]
      · rw [if_neg hin]
        refine BgList.report_none h.shape.size ?_ _
        intro e he hqe
        exact hin (h.mem_iff.mp ⟨e, he, hqe⟩)
    rw [hone]
    by_cases hqp : q = p
    · subst hqp
      have hno : ¬ (q ∈ ps ∧ q ∈ s.table.flatten.erase q) := fun hc => hq hc.1
      rw [if_neg hno, List.append_nil]
      by_cases hin : q ∈ s.table.flatten
      · simp [hin, Env.reportOf]
      · simp [hin]
    · have hpid : (if q ∈ s.table.flatten then some (E.reportOf q) else none).toList.filter
          (·.pid = p) = [] := by
        split
        · simp [Env.reportOf, hqp]
        · rfl
      have hpq : p ≠ q := fun he => hqp he.symm
      rw [hpid, List.nil_append]
      simp only [List.mem_erase_of_ne hpq, List.mem_cons, hpq, false_or]

/-! ### The log -/

def Event.isFlush : Event → Bool
  | .flush _ => true
  | _ => false

theorem announced_append {full : Bool} {p : ℕ} {evs l : List Event}
    (h : ∀ e ∈ evs, e.isFlush = false) : announced full p (evs ++ l) = announced full p l := by
  induction evs with
  | nil => rfl
  | cons e evs ih =>
    rw [List.forall_mem_cons] at h
    cases e with
    | flush => cases h.1
    | registered | foreground | collected | copied => exact ih h.2

theorem mem_of_announced {full : Bool} {p : ℕ} {l : List Event} (h : announced full p l = true) :
    Event.registered p ∈ l := by
  induction l with
  | nil => cases h
  | cons e l ih =>
    cases e with
    | flush rs =>
      rw [announced, Bool.or_eq_true, Bool.and_eq_true, decide_eq_true_eq] at h
      exact List.mem_cons_of_mem _ (h.elim ih (·.1))
    | registered | foreground | collected | copied => exact List.mem_cons_of_mem _ (ih h)

/-- The background processes being forked. -/
def Mode.bgPids : Mode → List ℕ
  | .forking .background pids _ => pids
  | _ => []

/-- What the log says of the state. -/
structure Hist (s : State) (l : List Event) : Prop where
  nodup : s.queue.Nodup
  queued : ∀ p ∈ s.queue, s.child p = .reaped ∧ Event.collected p true ∈ l
  known : ∀ p, Event.registered p ∈ l ∨ Event.collected p true ∈ l → p < s.next
  fresh : ∀ p ∈ s.mode.extra, Event.registered p ∉ l
  front : ∀ w, s.mode = .waiting w → ∀ p ∈ w.members, Event.foreground p ∈ l
  listed : ∀ p, Event.foreground p ∉ l →
    (p ∈ s.table.flatten ↔ Event.registered p ∈ l ∧ announced false p l = false)
  caught : ∀ p, p ∈ s.mode.bgPids ∨ Event.registered p ∈ l ∧ announced false p l = false →
    Event.collected p true ∈ l → p ∈ s.queue

section hist

variable {s s' : State} {l : List Event}

/-- A step that is about no background process. -/
theorem Hist.frame (h : Hist s l) (hq : s'.queue = s.queue)
    (hc : ∀ p, s.child p = .reaped → s'.child p = .reaped) (hn : s'.next = s.next)
    (ht : ∀ p, Event.foreground p ∉ l → (p ∈ s'.table.flatten ↔ p ∈ s.table.flatten))
    (hx : ∀ p ∈ s'.mode.extra, p ∈ s.mode.extra)
    (hb : ∀ p ∈ s'.mode.bgPids, p ∈ s.mode.bgPids)
    (hf : ∀ w, s'.mode = .waiting w → ∀ p ∈ w.members, Event.foreground p ∈ l) : Hist s' l where
  nodup := hq ▸ h.nodup
  queued p hp := by
    obtain ⟨hr, hcol⟩ := h.queued p (hq ▸ hp)
    exact ⟨hc p hr, hcol⟩
  known := hn ▸ h.known
  fresh p hp := h.fresh p (hx p hp)
  front := hf
  listed p hp := (ht p hp).trans (h.listed p hp)
  caught p hp hcol := by
    rw [hq]
    exact h.caught p (hp.imp_left (hb p)) hcol

/-- Processes come to the foreground. -/
theorem Hist.foreground (h : Hist s l) (ps : List ℕ) : Hist s (ps.map .foreground ++ l) := by
  have hann : ∀ p, announced false p (ps.map Event.foreground ++ l) = announced false p l := by
    intro p
    refine announced_append ?_
    intro e he
    obtain ⟨q, -, rfl⟩ := List.mem_map.mp he
    rfl
  have hreg : ∀ p, Event.registered p ∈ ps.map Event.foreground ++ l ↔ Event.registered p ∈ l := by simp
  have hcol : ∀ p, Event.collected p true ∈ ps.map Event.foreground ++ l ↔
      Event.collected p true ∈ l := by simp
  refine ⟨h.nodup, ?_, ?_, ?_, ?_, ?_, ?_⟩
  · intro p hp
    rw [hcol]
    exact h.queued p hp
  · intro p hp
    rw [hreg, hcol] at hp
    exact h.known p hp
  · intro p hp
    rw [hreg]
    exact h.fresh p hp
  · intro w hm p hp
    exact List.mem_append_right _ (h.front w hm p hp)
  · intro p hp
    rw [hreg, hann]
    exact h.listed p fun hin => hp (List.mem_append_right _ hin)
  · intro p hp hc
    rw [hreg, hann] at hp
    rw [hcol] at hc
    exact h.caught p hp hc

/-- An exit is collected, and queued if there is room. -/
theorem Hist.exit (h : Hist s l) {p : ℕ} (b : Bool) (hpn : p < s.next) (hc : s.child p = .zombie) :
    Hist { s.setChild p .reaped with queue := if b then s.queue ++ [p] else s.queue }
      (.collected p b :: l) := by
  have hpq : p ∉ s.queue := by
    intro hin
    have hr := (h.queued p hin).1
    simp [hc] at hr
  have hqueue : ∀ q, q ∈ (if b then s.queue ++ [p] else s.queue) ↔ q ∈ s.queue ∨ q = p ∧ b = true := by
    intro q
    cases b <;> simp
  have hcol : ∀ q, Event.collected q true ∈ Event.collected p b :: l ↔
      q = p ∧ b = true ∨ Event.collected q true ∈ l := by
    intro q
    cases b <;> simp
  have hreg : ∀ q, Event.registered q ∈ Event.collected p b :: l ↔ Event.registered q ∈ l := by simp
  have hann : ∀ q, announced false q (Event.collected p b :: l) = announced false q l := fun q => rfl
  refine ⟨?_, ?_, ?_, ?_, ?_, ?_, ?_⟩
  · show (if b then s.queue ++ [p] else s.queue).Nodup
    split
    · exact List.nodup_append'.mpr ⟨h.nodup, List.nodup_singleton p, by simpa using hpq⟩
    · exact h.nodup
  · intro q hq
    rw [hcol]
    rcases (hqueue q).mp hq with hq | ⟨rfl, hb⟩
    · obtain ⟨hr, hin⟩ := h.queued q hq
      refine ⟨?_, .inr hin⟩
      have hqp : q ≠ p := fun he => hpq (he ▸ hq)
      exact (setChild_ne _ hqp).trans hr
    · exact ⟨setChild_same s q _, .inl ⟨rfl, hb⟩⟩
  · intro q hq
    rw [hreg, hcol] at hq
    rcases hq with hq | ⟨rfl, -⟩ | hq
    · exact h.known q (.inl hq)
    · exact hpn
    · exact h.known q (.inr hq)
  · intro q hq
    rw [hreg]
    exact h.fresh q hq
  · intro w hm q hq
    exact List.mem_cons_of_mem _ (h.front w hm q hq)
  · intro q hq
    rw [hreg, hann]
    exact h.listed q fun hin => hq (List.mem_cons_of_mem _ hin)
  · intro q hq hcq
    rw [hreg, hann] at hq
    rw [hcol] at hcq
    refine (hqueue q).mpr ?_
    rcases hcq with hcq | hcq
    · exact .inr hcq
    · exact .inl (h.caught q hq hcq)

/-- One round of `plant`. -/
theorem Hist.collect (h : Hist s l) (hok : Ok s) (p : ℕ) :
    Hist (s.collect p) (collectLog s p ++ l) := by
  have hfr := frame_collect s p
  -- a stop or a continue: only the child and `sus` change
  have hsus : ∀ {c : Child} (b : Bool), s.child p ≠ .reaped → s.child p ≠ .zombie →
      s.collect p = (s.setChild p c).markSus p b → Hist (s.collect p) (collectLog s p ++ l) := by
    intro c b hr hz he
    have hlog : collectLog s p = [] := if_neg hz
    rw [hlog, List.nil_append]
    refine h.frame (by rw [he]; rfl) ?_ hfr.next (by simp [hfr.table]) (by simp [hfr.mode])
      (by simp [hfr.mode]) ?_
    · intro q hq
      rw [he]
      have hqp : q ≠ p := fun heq => hr (heq ▸ hq)
      exact (setChild_ne c hqp).trans hq
    · rw [hfr.mode]
      exact h.front
  obtain ⟨hc, he⟩ | ⟨hc, he⟩ | ⟨hc, he⟩ | ⟨hc, he⟩ := collect_cases s p
  · exact hsus true (by simp [hc]) (by simp [hc]) he
  · exact hsus false (by simp [hc]) (by simp [hc]) he
  · have hlog : collectLog s p = [.collected p (s.queue.length < 100)] := if_pos hc
    have hpn : p < s.next := by
      by_contra hge
      have hun := (hok.born p).mpr (Nat.le_of_not_lt hge)
      simp [hc] at hun
    have hexit := h.exit (s.queue.length < 100) hpn hc
    rw [he, hlog]
    simpa using hexit
  · have hz : s.child p ≠ .zombie := by
      intro hz
      simp [hz, Child.pending] at hc
    rw [he, collectLog, if_neg hz]
    exact h

theorem Hist.plant (h : Hist s l) (hok : Ok s) (ps : List ℕ) :
    Hist (ps.foldl State.collect s) (plantLog s ps ++ l) := by
  induction ps generalizing s l with
  | nil => exact h
  | cons p ps ih =>
    rw [plantLog, List.append_assoc]
    exact ih (h.collect hok p) ((frame_collect s p).ok hok)

/-- A new process: nothing has been said of it yet. -/
theorem Hist.fork (h : Hist s l) {k : Launch} {pids : List ℕ} {left : ℕ} {child' : ℕ → Child}
    (hm : s.mode = .forking k pids (left + 1))
    (hc : ∀ p, s.child p = .reaped → child' p = .reaped) :
    Hist { s with
      child := child', next := s.next + 1, mode := .forking k (pids ++ [s.next]) left } l := by
  have hnew : Event.registered s.next ∉ l ∧ Event.collected s.next true ∉ l := by
    constructor
    · exact fun hin => Nat.lt_irrefl _ (h.known _ (.inl hin))
    · exact fun hin => Nat.lt_irrefl _ (h.known _ (.inr hin))
  refine ⟨h.nodup, ?_, ?_, ?_, ?_, h.listed, ?_⟩
  · intro p hp
    exact ⟨hc p (h.queued p hp).1, (h.queued p hp).2⟩
  · intro p hp
    exact Nat.lt_succ_of_lt (h.known p hp)
  · intro p hp
    rcases List.mem_append.mp hp with hp | hp
    · exact h.fresh p (by rw [hm]; exact hp)
    · rw [List.mem_singleton.mp hp]
      exact hnew.1
  · rintro w ⟨⟩
  · intro p hp hcol
    refine h.caught p (hp.imp_left ?_) hcol
    intro hp
    rw [hm]
    -- the new process has not exited
    cases k with
    | background =>
      rcases List.mem_append.mp hp with hp | hp
      · exact hp
      · exact absurd (List.mem_singleton.mp hp ▸ hcol) hnew.2
    | piped => exact hp
    | external => exact hp

/-- A background job is registered. -/
theorem Hist.register (h : Hist s l) (hok : Ok s) {pids : List ℕ} (hm : s.mode = .forking .background pids 0) :
    Hist { s.assign pids false with mode := .prompt } (pids.map .registered ++ l) := by
  have hann : ∀ p, announced false p (pids.map Event.registered ++ l) = announced false p l := by
    intro p
    refine announced_append ?_
    intro e he
    obtain ⟨q, -, rfl⟩ := List.mem_map.mp he
    rfl
  have hreg : ∀ p, Event.registered p ∈ pids.map Event.registered ++ l ↔
      p ∈ pids ∨ Event.registered p ∈ l := by simp
  have hcol : ∀ p, Event.collected p true ∈ pids.map Event.registered ++ l ↔
      Event.collected p true ∈ l := by simp
  have hextra : ∀ p ∈ pids, p ∈ s.mode.extra := by
    intro p hp
    rw [hm]
    exact hp
  -- a process that was not registered was not announced
  have hnew : ∀ p ∈ pids, announced false p l = false := by
    intro p hp
    by_contra hann
    exact h.fresh p (hextra p hp) (mem_of_announced (by simpa using hann))
  refine ⟨h.nodup, ?_, ?_, ?_, ?_, ?_, ?_⟩
  · intro p hp
    rw [hcol]
    exact h.queued p hp
  · intro p hp
    rw [hreg, hcol] at hp
    rcases hp with (hin | hr) | hc
    · exact hok.lt p (List.mem_append_right _ (hextra p hin))
    · exact h.known p (.inl hr)
    · exact h.known p (.inr hc)
  · rintro p ⟨⟩
  · rintro w ⟨⟩
  · intro p hp
    have hl := h.listed p (by simpa using hp)
    have ht : (State.table { s.assign pids false with mode := .prompt }).flatten =
        s.table.flatten ++ pids := by
      simp [State.table, State.assign]
    rw [ht, List.mem_append, hreg, hann, hl]
    constructor
    · rintro (⟨hr, ha⟩ | hin)
      · exact ⟨.inr hr, ha⟩
      · exact ⟨.inl hin, hnew p hin⟩
    · rintro ⟨hin | hr, ha⟩
      · exact .inr hin
      · exact .inl ⟨hr, ha⟩
  · intro p hp hc
    rw [hreg, hann] at hp
    rw [hcol] at hc
    refine h.caught p ?_ hc
    rcases hp with hp | ⟨hin | hr, ha⟩
    · cases hp
    · left
      rw [hm]
      exact hin
    · exact .inr ⟨hr, ha⟩

/-- `no_longer_waiting`. -/
theorem Hist.flush (h : Hist s l) (hok : Ok s) (hm : s.mode = .prompt) (rs : List Report) :
    Hist { s with jobs := s.queue.foldl (fun js p => announceBg p js) s.jobs, queue := [] }
      (.flush rs :: l) := by
  have hn : s.table.flatten.Nodup := (List.nodup_append'.mp hok.nodup).1
  have hreg : ∀ p, Event.registered p ∈ Event.flush rs :: l ↔ Event.registered p ∈ l := by simp
  have hcol : ∀ p, Event.collected p true ∈ Event.flush rs :: l ↔ Event.collected p true ∈ l := by simp
  have hann : ∀ p, announced false p (.flush rs :: l) = false ↔ announced false p l = false ∧
      ¬ (Event.registered p ∈ l ∧ Event.collected p true ∈ l) := by
    intro p
    simp [announced, exits]
  refine ⟨List.nodup_nil, by simp, ?_, ?_, ?_, ?_, ?_⟩
  · intro p hp
    rw [hreg, hcol] at hp
    exact h.known p hp
  · intro p hp
    rw [hreg]
    exact h.fresh p hp
  · intro w hw
    rw [hm] at hw
    cases hw
  · intro p hp
    have hl := h.listed p (by simpa using hp)
    have ht : (State.table { s with
        jobs := s.queue.foldl (fun js p => announceBg p js) s.jobs, queue := [] }).flatten =
        s.table.flatten.diff s.queue := announce_flatten s.queue s.jobs
    rw [ht, hn.mem_sdiff_iff, hl, hreg, hann]
    -- what is registered and not yet announced is queued as soon as its exit is collected
    constructor
    · rintro ⟨⟨hr, ha⟩, hq⟩
      exact ⟨hr, ha, fun hc => hq (h.caught p (.inr ⟨hr, ha⟩) hc.2)⟩
    · rintro ⟨hr, ha, hc⟩
      exact ⟨⟨hr, ha⟩, fun hq => hc ⟨hr, (h.queued p hq).2⟩⟩
  · intro p hp hc
    rw [hreg, hann] at hp
    rw [hcol] at hc
    rcases hp with hp | ⟨hr, -, hno⟩
    · rw [hm] at hp
      cases hp
    · exact absurd ⟨hr, hc⟩ hno

/-- A wait that has moved on. -/
theorem Hist.wait (h : Hist s l) {w w' : Wait} {child' : ℕ → Child} (hm : s.mode = .waiting w)
    (hk : w'.kind = w.kind) (hw : w'.members = w.members)
    (hc : ∀ p, s.child p = .reaped → child' p = .reaped) :
    Hist { s with child := child', mode := .waiting w' } l := by
  have hx : (Mode.waiting w').extra = s.mode.extra := by
    rw [hm, Mode.extra, Mode.extra, hk, hw]
  refine h.frame rfl hc rfl (fun p _ => Iff.rfl) (fun p hp => hx ▸ hp) (by simp [Mode.bgPids]) ?_
  rintro w'' ⟨⟩ p hp
  exact h.front w hm p (hw ▸ hp)

/-- Back at the prompt, with the table as it was up to the processes of the foreground. -/
theorem Hist.prompt (h : Hist s l) {jobs' : List Bg} {n : ℕ}
    (ht : ∀ p, Event.foreground p ∉ l →
      (p ∈ (jobs'.map (·.members)).flatten ↔ p ∈ s.table.flatten)) :
    Hist { s with jobs := jobs', nextJob := n, mode := .prompt } l := by
  refine h.frame rfl (fun _ hr => hr) rfl ht (by simp [Mode.extra]) (by simp [Mode.bgPids]) ?_
  rintro w ⟨⟩

theorem reaped_setChild {p q : ℕ} {c : Child} (hp : s.child p ≠ .reaped) (hq : s.child q = .reaped) :
    (s.setChild p c).child q = .reaped := by
  have hqp : q ≠ p := fun he => hp (he ▸ hq)
  exact (setChild_ne c hqp).trans hq

theorem reaped_continueAll {q : ℕ} (ps : List ℕ) (hq : s.child q = .reaped) :
    (s.continueAll ps).child q = .reaped := by
  show (if q ∈ ps ∧ (s.child q).isStopped = true then Child.running true else s.child q) = .reaped
  rw [hq, if_neg (by simp [Child.isStopped])]

/-- A job goes, and with it nobody else. -/
theorem mem_eraseIdx_flatten {table : List (List ℕ)} {i p : ℕ} {ms : List ℕ}
    (hi : table[i]? = some ms) (hp : p ∉ ms) : p ∈ (table.eraseIdx i).flatten ↔ p ∈ table.flatten := by
  obtain ⟨hlt, rfl⟩ := List.getElem?_eq_some_iff.mp hi
  have hperm := (List.getElem_cons_eraseIdx_perm hlt).flatten
  rw [← hperm.mem_iff, List.flatten_cons, List.mem_append]
  exact ⟨.inr, fun hin => hin.resolve_left hp⟩

/-- What a copy prints is not the shell's. -/
theorem Hist.copied (h : Hist s l) (rs : List Report) : Hist s (.copied rs :: l) := by
  have hmem : ∀ e : Event, (∀ rs, e ≠ .copied rs) → (e ∈ Event.copied rs :: l ↔ e ∈ l) := by
    intro e he
    rw [List.mem_cons, or_iff_right (he rs)]
  have hreg := fun p => hmem (.registered p) (by simp)
  have hcol := fun p => hmem (.collected p true) (by simp)
  have hfg := fun p => hmem (.foreground p) (by simp)
  have hann : ∀ p, announced false p (.copied rs :: l) = announced false p l := fun _ => rfl
  refine ⟨h.nodup, ?_, ?_, ?_, ?_, ?_, ?_⟩
  · simpa only [hcol] using h.queued
  · simpa only [hreg, hcol] using h.known
  · simpa only [hreg] using h.fresh
  · simpa only [hfg] using h.front
  · simpa only [hfg, hreg, hann] using h.listed
  · simpa only [hreg, hcol, hann] using h.caught

/-- Every step, with its events. -/
theorem Hist.move {E : Env} {t : Table} {a : Act} (h : Hist s l) (hok : Ok s) (hs : Move s a s') :
    Hist s' (E.events (s, t) a ++ l) := by
  have hf := hok.fits
  have hchild : ∀ {p : ℕ} {c : Child}, s.child p ≠ .reaped → Hist (s.setChild p c) l :=
    fun hp => h.frame rfl (fun _ => reaped_setChild hp) rfl (fun _ _ => Iff.rfl) (fun _ hx => hx)
      (fun _ hb => hb) h.front
  cases hs with
  | stop hc => exact hchild (by simp [hc])
  | cont hc => exact hchild (by simp [hc])
  | exit hc =>
    refine hchild ?_
    rcases hc with hc | hc <;> simp [hc]
  | @plant ps hps => exact h.plant hok ps
  | @launch k n hm hn =>
    refine h.frame rfl (fun _ hr => hr) rfl (fun _ _ => Iff.rfl) (by simp [Mode.extra]) ?_ ?_
    · cases k <;> simp [Mode.bgPids]
    · rintro w ⟨⟩
  | @fork copy k pids left hm =>
    have hfork : ∀ p, s.child p = .reaped → (s.setChild s.next (.running false)).child p = .reaped := by
      refine fun p hp => reaped_setChild ?_ hp
      rw [(hok.born s.next).mpr (Nat.le_refl _)]
      simp
    cases copy with
    | false => exact h.fork hm hfork
    -- a copy flushes its own table; that of the shell stays
    | true => exact (h.fork hm hfork).copied _
  | @register pids hm =>
    have hev : E.events (s, t) .forked = pids.map .registered := by simp only [Env.events, hm]
    rw [hev]
    exact h.register hok hm
  | @await k kind pids hm hk hnew =>
    have hev : E.events (s, t) .forked = pids.map .foreground := by
      cases k with
      | background => exact absurd rfl hk
      | piped => simp only [Env.events, hm]
      | external => simp only [Env.events, hm]
    rw [hev]
    refine (h.foreground pids).frame rfl (fun _ hr => hr) rfl (fun _ _ => Iff.rfl) ?_
      (by simp [Mode.bgPids]) ?_
    · intro p hp
      rw [extra_waiting hnew] at hp
      rw [hm]
      exact hp
    · rintro w ⟨⟩ p hp
      exact List.mem_append_left _ (List.mem_map_of_mem hp)
  | waitStop hm ht hc => exact h.wait hm rfl rfl fun _ => reaped_setChild (by simp [hc])
  | waitExit hm ht hc => exact h.wait hm rfl rfl fun _ => reaped_setChild (by simp [hc])
  | waitFail hm ht hc => exact h.wait hm rfl rfl fun _ hr => hr
  | alarm hm hk => exact h.prompt fun _ _ => Iff.rfl
  | @keep w hm hk hst =>
    refine h.prompt fun p hp => ?_
    have hno : p ∉ w.members := fun hin => hp (h.front w hm p hin)
    simp [State.assign, State.table, hno]
  | drop hm hk hst => exact h.prompt fun _ _ => Iff.rfl
  | @suspend w i b hm hk hst =>
    refine h.prompt fun p hp => ?_
    rw [show (s.setSus i true).jobs.map (·.members) = (s.setSus i true).table from rfl, setSus_table]
  | @remove w i b hm hk hst =>
    -- the job leaves the table, and its members were brought to the foreground
    rw [hm] at hf
    have hti := hf.2.2.2 i b hk
    refine h.prompt fun p hp => ?_
    have hno : p ∉ w.members := fun hin => hp (h.front w hm p hin)
    rw [← List.eraseIdx_map]
    exact mem_eraseIdx_flatten hti hno
  | @resumeBg i j hm hj =>
    have hfr := frame_resume s i j.members
    refine h.frame rfl (fun _ => reaped_continueAll j.members) rfl (by simp [hfr.table])
      (fun _ hx => hx) (fun _ hb => hb) h.front
  | @resumeFg i b j hm hj =>
    have hfr := frame_resume s i j.members
    have hev : E.events (s, t) (.resumeFg i b) = j.members.map .foreground := by
      simp [Env.events, State.table, hj]
    rw [hev]
    refine (h.foreground j.members).frame rfl (fun _ => reaped_continueAll j.members) rfl ?_
      (by simp [Mode.extra, Wait.start]) (by simp [Mode.bgPids]) ?_
    · intro p _
      show p ∈ ((s.continueAll j.members).setSus i false).table.flatten ↔ _
      rw [hfr.table]
    · rintro w ⟨⟩ p hp
      exact List.mem_append_left _ (List.mem_map_of_mem hp)
  | announce hm => exact h.flush hok hm _

end hist

/-! ### Every run -/

def Event.isCopy : Event → Bool
  | .copied _ => true
  | _ => false

/-- The flushes of a log have reported `p` as they should, and the copies what was due when
they were forked. -/
def FlushesOk (E : Env) (p : ℕ) : List Event → Prop
  | [] => True
  | .flush rs :: l => rs.filter (·.pid = p) = (if due false p l then [E.reportOf p] else []) ∧
      FlushesOk E p l
  | .copied rs :: l => rs.filter (·.pid = p) = (if due false p l then [E.reportOf p] else []) ∧
      FlushesOk E p l
  | _ :: l => FlushesOk E p l

theorem FlushesOk.append {E : Env} {p : ℕ} {evs l : List Event} (h : FlushesOk E p l)
    (he : ∀ e ∈ evs, e.isFlush = false ∧ e.isCopy = false) : FlushesOk E p (evs ++ l) := by
  induction evs with
  | nil => exact h
  | cons e evs ih =>
    rw [List.forall_mem_cons] at he
    cases e with
    | flush => cases he.1.1
    | copied => cases he.1.2
    | registered | foreground | collected => exact ih he.2

theorem FlushesOk.at {E : Env} {p : ℕ} {l₁ l₂ : List Event} {rs : List Report}
    (h : FlushesOk E p (l₁ ++ .flush rs :: l₂)) :
    rs.filter (·.pid = p) = if due false p l₂ then [E.reportOf p] else [] := by
  induction l₁ with
  | nil => exact h.1
  | cons e l₁ ih =>
    cases e with
    | flush | copied => exact ih h.2
    | registered | foreground | collected => exact ih h

theorem FlushesOk.copied_at {E : Env} {p : ℕ} {l₁ l₂ : List Event} {rs : List Report}
    (h : FlushesOk E p (l₁ ++ .copied rs :: l₂)) :
    rs.filter (·.pid = p) = if due false p l₂ then [E.reportOf p] else [] := by
  induction l₁ with
  | nil => exact h.1
  | cons e l₁ ih =>
    cases e with
    | flush | copied => exact ih h.2
    | registered | foreground | collected => exact ih h

/-- One report for the one flush at which `p` was due. -/
theorem FlushesOk.once {E : Env} {p : ℕ} {l : List Event} (h : FlushesOk E p l) :
    (printed l).filter (·.pid = p) = if announced false p l then [E.reportOf p] else [] := by
  induction l with
  | nil => rfl
  | cons e l ih =>
    cases e with
    | flush rs =>
      obtain ⟨hrs, hl⟩ := h
      rw [printed, List.filter_append, ih hl, hrs, announced, due]
      cases announced false p l with
      | true => simp
      | false => simp
    | copied rs => exact ih h.2
    | registered | foreground | collected => exact ih h

theorem plantLog_not_flush {s : State} {ps : List ℕ} :
    ∀ e ∈ plantLog s ps, e.isFlush = false ∧ e.isCopy = false := by
  induction ps generalizing s with
  | nil => simp [plantLog]
  | cons p ps ih =>
    intro e he
    rcases List.mem_append.mp he with he | he
    · exact ih e he
    · unfold collectLog at he
      split at he
      · rw [List.mem_singleton.mp he]
        exact ⟨rfl, rfl⟩
      · cases he

/-- Only `no_longer_waiting` prints, in the shell or in a copy. -/
theorem events_not_flush {E : Env} {x : State × Table} {a : Act} (ha : a ≠ .announce)
    (hc : a ≠ .fork true) : ∀ e ∈ E.events x a, e.isFlush = false ∧ e.isCopy = false := by
  intro e he
  cases a with
  | announce => exact absurd rfl ha
  | fork copy =>
    cases copy with
    | false => cases he
    | true => exact absurd rfl hc
  | plant ps => exact plantLog_not_flush e he
  | forked =>
    simp only [Env.events] at he
    split at he
    · obtain ⟨p, -, rfl⟩ := List.mem_map.mp he
      exact ⟨rfl, rfl⟩
    · obtain ⟨p, -, rfl⟩ := List.mem_map.mp he
      exact ⟨rfl, rfl⟩
    · cases he
  | resumeFg i t =>
    obtain ⟨p, -, rfl⟩ := List.mem_map.mp he
    exact ⟨rfl, rfl⟩
  | stop | cont | exit | launch | wait | alarm | finish | resumeBg => cases he

/-- A flush reports what is due. -/
theorem flush_reports {E : Env} {s : State} {t : Table} {l : List Event} (hc : Coupled E s t)
    (hok : Ok s) (h : Hist s l) {p : ℕ} (hf : Event.foreground p ∉ l) :
    (t.reports E.junk t.waitList).filter (·.pid = p) =
      if due false p l then [E.reportOf p] else [] := by
  have hn : s.table.flatten.Nodup := (List.nodup_append'.mp hok.nodup).1
  have hdue : (p ∈ s.queue ∧ p ∈ s.table.flatten) ↔ due false p l = true := by
    rw [h.listed p hf]
    simp only [due, exits, Bool.and_eq_true, decide_eq_true_eq, Bool.not_eq_true', Bool.false_eq_true,
      false_and, or_false]
    constructor
    · rintro ⟨hq, hr, ha⟩
      exact ⟨⟨hr, (h.queued p hq).2⟩, ha⟩
    · rintro ⟨⟨hr, hcol⟩, ha⟩
      exact ⟨h.caught p (.inr ⟨hr, ha⟩) hcol, hr, ha⟩
  rw [hc.waits, reports_filter hc h.nodup hn]
  by_cases hd : due false p l = true
  · rw [if_pos (hdue.mpr hd), if_pos hd]
  · rw [if_neg (mt hdue.mp hd), if_neg hd]

theorem hist_of_reachable {E : Env} {y : (State × Table) × List Event}
    (h : ((full E).logged E.events).Reachable y) :
    Hist y.1.1 y.2 ∧ ∀ p, Event.foreground p ∉ y.2 → FlushesOk E p y.2 := by
  refine Sys.logged_invariant _ (I := fun x l => Hist x.1 l ∧
    ∀ p, Event.foreground p ∉ l → FlushesOk E p l) ?_ ?_ h
  · rintro x rfl
    refine ⟨?_, fun _ _ => trivial⟩
    refine ⟨List.nodup_nil, by simp [boot], by simp, by simp, ?_, by simp [boot, State.table], by simp⟩
    rintro w ⟨⟩
  · rintro ⟨s, t⟩ l a x' hreach ⟨hh, hflush⟩ hs
    obtain ⟨hstep, -⟩ := full_step.mp hs
    obtain ⟨hr, hc⟩ := refines hreach
    have hok := ok_of_reachable hr
    refine ⟨hh.move hok (step_move hstep), ?_⟩
    intro p hp
    have hpl : Event.foreground p ∉ l := fun hin => hp (List.mem_append_right _ hin)
    by_cases ha : a = .announce
    · subst ha
      exact ⟨flush_reports hc hok hh hpl, hflush p hpl⟩
    · by_cases hcopy : a = .fork true
      · subst hcopy
        exact ⟨flush_reports hc hok hh hpl, hflush p hpl⟩
      · exact (hflush p hpl).append (events_not_flush ha hcopy)

/-- **Every background exit that finds room in `wait_list` is announced exactly once by the
shell**, by the first flush after the registration of the process and the collection of its exit, and
the process has gone from the table afterwards.  An exit that finds `wait_list` full is
never announced. -/
theorem announced_once (E : Env) (x : State × Table) (l : List Event)
    (h : ((full E).logged E.events).Reachable (x, l)) (p : ℕ) (hf : Event.foreground p ∉ l) :
    AnnouncedOnce E false p x l := by
  obtain ⟨hh, hflush⟩ := hist_of_reachable h
  obtain ⟨-, hc⟩ := refines (Sys.reachable_of_logged _ h)
  refine ⟨?_, (hflush p hf).once, ?_⟩
  · rintro l₁ rs l₂ rfl
    exact (hflush p hf).at
  · intro ha e he
    refine ⟨?_, hc.names e he⟩
    intro hin
    have hlist := (hh.listed p hf).mp (hc.mem_iff.mp ⟨e, he, hin⟩)
    simp [show announced false p l = true from ha] at hlist

/-- A copy of the shell reports what is due when it is forked.  It takes nothing out of the
table of the shell, which reports the same once more. -/
theorem copy_reports {E : Env} {x : State × Table} {l₁ l₂ : List Event} {rs : List Report}
    (h : ((full E).logged E.events).Reachable (x, l₁ ++ .copied rs :: l₂)) {p : ℕ}
    (hf : Event.foreground p ∉ l₁ ++ .copied rs :: l₂) :
    rs.filter (·.pid = p) = if due false p l₂ then [E.reportOf p] else [] := by
  obtain ⟨-, hflush⟩ := hist_of_reachable h
  exact (hflush p hf).copied_at

/-- A pipeline of two in the background, of which the first process exits before the job
is registered. -/
def earlyExit : List Act :=
  [.launch .background 2, .fork false, .exit 0, .plant [0], .fork false, .forked, .announce]

theorem full_init (E : Env) : ((full E).logged E.events).Reachable ((boot, ⟨[], 0, 1, []⟩), []) :=
  .init ⟨rfl, rfl⟩

/-- It is announced, and the second process is left. -/
theorem announced_once_early : ∃ x l, ((full sleepEnv).logged sleepEnv.events).Reachable (x, l) ∧
    AnnouncedOnce sleepEnv false 0 x l ∧ printed l = [⟨"sleep".toList, 0, true⟩] ∧
    x.2.bgList.map (·.pids) = [[1]] := by
  obtain ⟨⟨x, l⟩, hreach, hf, hp, ht⟩ := Sys.exists_of_run _ earlyExit (full_init sleepEnv)
    (p := fun y => Event.foreground 0 ∉ y.2 ∧ printed y.2 = [⟨"sleep".toList, 0, true⟩] ∧
      y.1.2.bgList.map (·.pids) = [[1]]) (by decide +kernel)
  exact ⟨x, l, hreach, announced_once sleepEnv x l hreach 0 hf, hp, ht⟩

/-- A pipeline of `n` processes in the background. -/
def backgroundJob (n : ℕ) : List Act :=
  [.launch .background n] ++ List.replicate n (.fork false) ++ [.forked]

/-- Three pipelines in the background with 34 processes each, all of which exit. -/
def manyExits : List Act :=
  backgroundJob 34 ++ backgroundJob 34 ++ backgroundJob 34 ++ (List.range 102).map .exit ++
    [.plant (List.range 102), .announce]

/-- The exit of the last process but one was collected and is not announced. -/
theorem exit_not_announced : ∃ x l, ((full sleepEnv).logged sleepEnv.events).Reachable (x, l) ∧
    Event.registered 100 ∈ l ∧ Event.foreground 100 ∉ l ∧ ¬ AnnouncedOnce sleepEnv true 100 x l := by
  obtain ⟨⟨x, l⟩, hreach, hf, ht, hno⟩ := Sys.exists_of_run _ manyExits (full_init sleepEnv)
    (p := fun y => Event.foreground 100 ∉ y.2 ∧ announced true 100 y.2 = true ∧
      announced false 100 y.2 = false) (by decide +kernel)
  refine ⟨x, l, hreach, mem_of_announced ht, hf, ?_⟩
  intro hann
  -- one report of it is asked for, and the run has none
  obtain ⟨-, hflush⟩ := hist_of_reachable hreach
  have honce := hann.once.symm.trans (hflush 100 hf).once
  simp only at ht hno
  rw [ht, hno] at honce
  simp at honce

end Jobs
