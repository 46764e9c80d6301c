/-
`kwait` sees every exit.

* `Procs.no_missed_exit` — whenever `wait_lock` is free, a process that sleeps
  in `kwait` has a child and no zombie among its children: the wakeups of
  `kexit` and `reparent` come before what they announce, and are not lost;
* `Procs.collected_once` — over a whole run, as long as `nextpid` does not
  overflow, every exit is handed to at most one `kwait`, with its own pid and
  status, and those not handed out are the zombies of the table.
-/
import CshellXv6.Xv6.WaitInvariant

namespace Xv6.Procs

open Monitor (Out St NoLoss Leaves)

variable {T : Type} [DecidableEq T]

/-- Why a process waits for a child: it has one, and none has exited. -/
def reason (d : Procs T) (l : Loc T) (c : T) : Prop :=
  l = .waiting c ∧ (∃ q, d.parent q = some c) ∧ ∀ q, d.parent q = some c → d.state q ≠ .zombie

/-- Behind its wakeup of the parent, a dying process leaves no child of
anybody who still waits. -/
def due (h : Loc T) (d : Procs T) (l : Loc T) (c : T) : Prop :=
  match h with
  | .dying me _ => reason d l c ∧ d.parent me ≠ some c
  | _ => reason d l c

variable {init t np pp c : T} {d d' : Procs T} {l l' : Loc T} {procs : List T}

omit [DecidableEq T] in
theorem due_iff {h : Loc T} (hh : ∀ me status, h ≠ .dying me status) :
    due h d l c ↔ reason d l c := by
  cases h with
  | dying me status => exact absurd rfl (hh me status)
  | _ => exact Iff.rfl

omit [DecidableEq T] in
/-- The reason stays where the children of `c` stay and none becomes a
zombie. -/
theorem reason.keep (h : reason d l c) (hp : ∀ q, d'.parent q = some c ↔ d.parent q = some c)
    (hz : ∀ q, d.parent q = some c → d'.state q = .zombie → d.state q = .zombie) :
    reason d' l c := by
  obtain ⟨hl, ⟨q, hq⟩, hno⟩ := h
  exact ⟨hl, ⟨q, (hp q).mpr hq⟩, fun r hr hzr => hno r ((hp r).mp hr) (hz r ((hp r).mp hr) hzr)⟩

/-- Nobody's children change when an entry that is not one of them gets a
parent that is not it. -/
theorem parent_adopt {p : Option T} (hpp : d.parent pp ≠ some c) (hp : p ≠ some c) (q : T) :
    (d.adopt pp p).parent q = some c ↔ d.parent q = some c := by
  by_cases hq : q = pp
  · subst hq
    simp [adopt, hpp, hp]
  · simp [adopt, hq]

variable {f : T → Loc T}

/-- Without the lock, nobody exits and nobody's parent changes. -/
theorem Goes.keeps {i : Input T} (h : Goes init t d l i d' l') :
    d'.parent = d.parent ∧ ∀ q, d'.state q = .zombie → d.state q = .zombie := by
  cases h with
  | @fork np _ =>
    refine ⟨rfl, fun q hq => ?_⟩
    have hqn : q ≠ np := by
      rintro rfl
      simp [alloc] at hq
    simpa [alloc, hqn] using hq
  | @nomem np =>
    refine ⟨rfl, fun q hq => ?_⟩
    have hqn : q ≠ np := by
      rintro rfl
      simp [free] at hq
    simpa [free, hqn] using hq
  | @forked np =>
    refine ⟨rfl, fun q hq => ?_⟩
    have hqn : q ≠ np := by
      rintro rfl
      simp [start] at hq
    simpa [start, hqn] using hq
  | _ => exact ⟨rfl, fun q => id⟩

/-- What the holder's step leaves of the reason of another process. -/
theorem Does.keeps {o : Out (Procs T) (Loc T) T} {k w : Loc T} (h : Does procs init t d k o)
    (hpl : Place init d t k) (hct : c ≠ t) (hr : due k d w c) : Leaves reason due w c o := by
  have hne : some t ≠ some c := fun he => hct (Option.some_inj.mp he).symm
  cases h with
  | @adopt np =>
    refine hr.keep (parent_adopt ?_ hne) fun q _ => id
    rw [hpl.2.2]
    exact Option.some_ne_none c |>.symm
  | @orphan status pp rest hp =>
    -- an orphan goes to `initproc`, which is woken for it
    intro hci
    refine hr.keep (parent_adopt ?_ ?_) fun q _ => id
    · rw [hp]
      exact hne
    · exact fun he => hci (Option.some_inj.mp he).symm
  | notify hp =>
    intro hcp
    refine ⟨hr, ?_⟩
    rw [hp]
    exact fun he => hcp (Option.some_inj.mp he).symm
  | nobody hp =>
    refine ⟨hr, ?_⟩
    rw [hp]
    exact Option.some_ne_none c |>.symm
  | die =>
    -- the parent was woken before, so it is not the one that waits here
    obtain ⟨hr, hpar⟩ := hr
    refine hr.keep (fun q => Iff.rfl) fun q hq hz => ?_
    have hqt : q ≠ t := by
      rintro rfl
      rw [hpl.2.2.1] at hpar
      exact hpar hq
    simpa [Procs.die, hqt] using hz
  | @collect me havekids pp rest hp hz =>
    refine hr.keep (parent_adopt ?_ ?_) fun q hq hzq => ?_
    · rw [hp]
      exact hne
    · exact Option.some_ne_none c |>.symm
    · have hqp : q ≠ pp := by
        rintro rfl
        rw [hp] at hq
        exact hne hq
      simpa [Procs.free, Procs.adopt, hqp] using hzq
  | _ => exact hr

variable {s : St T (Loc T) (Procs T) T}

/-- No wakeup for `kwait` is lost. -/
theorem noLoss (hall : ∀ t, t ∈ procs) : NoLoss (monitor procs init) reason due where
  all := hall
  acquire {k d l c} hw h := by
    refine (due_iff fun me status hk => ?_).mpr h
    rw [hk] at hw
    cases hw
  outside _ _ ho _ _ := by
    obtain ⟨hp, hz⟩ := (outside_goes ho).keeps
    have hkeep : ∀ {l c}, reason _ l c → reason _ l c := fun h =>
      h.keep (fun q => by rw [hp]) fun q _ => hz q
    refine ⟨hkeep, fun h hdue => ?_⟩
    cases h with
    | dying me status => exact ⟨hkeep hdue.1, by rw [hp]; exact hdue.2⟩
    | _ => exact hkeep hdue
  inside {s t i k o u l c} hr hk ho hut hu h := by
    have hF := family hall hr
    have hd := inside_does ho
    have hloc : s.locs t = k := by simp [St.locs, hk, Monitor.Pc.loc]
    -- the channel of a waiting process is its own entry
    have hl : l = .waiting c := by
      unfold due at h
      split at h
      · exact h.1.1
      · exact h.1
    have hcu : c = u := by
      have := hF.place u
      rw [hu.2.1, hl] at this
      exact this.2
    exact hd.keeps (by rw [← hloc]; exact hF.place t) (by rw [hcu]; exact hut) h
  waits {s t i k c d k'} hr hk ho := by
    have hF := family hall hr
    have hloc : s.locs t = k := by simp [St.locs, hk, Monitor.Pc.loc]
    have hpl := hF.place t
    rw [hloc] at hpl
    cases inside_does ho with
    | sleep => exact ⟨rfl, hpl.2.2.2 rfl, fun q => hpl.2.2.1 q List.not_mem_nil⟩

/-- **No exit is missed.**  In every interleaving, whenever `wait_lock` is
free, a process that sleeps in `kwait`, or is about to, has a child, and none
of its children has exited. -/
theorem no_missed_exit (hall : ∀ t, t ∈ procs) (h : (monitor procs init).sys.Reachable s)
    (hlock : s.lock = none) {p : T} (hw : (s.pc p).waits = true) (hc : (s.chan p).isSome = true) :
    (∃ q, s.shared.parent q = some p) ∧
      ∀ q, s.shared.parent q = some p → s.shared.state q ≠ .zombie := by
  obtain ⟨c, hc⟩ := Option.isSome_iff_exists.mp hc
  obtain ⟨hl, hkids, hno⟩ := (noLoss hall).reason_of_registered h hlock ⟨hw, rfl, hc⟩
  have hpl := (family hall h).place p
  rw [hl] at hpl
  obtain rfl : c = p := hpl.2
  exact ⟨hkids, hno⟩

theorem no_missed_exit_forkAndWait : ∃ s : St Bool (Loc Bool) (Procs Bool) Bool,
    (monitor [false, true] true).sys.Reachable s ∧ (s.pc true).waits = true ∧
    (∃ q, s.shared.parent q = some true) ∧
    ∀ q, s.shared.parent q = some true → s.shared.state q ≠ .zombie := by
  obtain ⟨s, hs, hlock, hw, hc⟩ := Sys.exists_of_run (monitor [false, true] true).sys forkAndWait
    (p := fun s => s.lock = none ∧ (s.pc true).waits = true ∧ (s.chan true).isSome = true)
    (.init boot_init) (by decide)
  exact ⟨s, hs, hw, no_missed_exit (by decide) hs hlock hw hc⟩

/-! ### Every exit is collected once -/

/-- What is recorded of a run: exits, with the pid and the status, and what
`kwait` returns to whom. -/
inductive Event (T : Type) where
  | exited (pid : Int32) (status : ℤ)
  | collected (parent : T) (pid : Int32) (status : ℤ)

/-- The events of one step of process `t`. -/
def ev (t : T) (l : Loc T) (d : Procs T) (i : Input T) : List (Event T) :=
  match l, i with
  | .dying _ status, .answer _ _ => [.exited (d.pid t) status]
  | .scanning _ _ (pp :: _), .answer _ copied =>
    if d.parent pp = some t ∧ d.state pp = .zombie ∧ copied then
      [.collected t (d.pid pp) (d.xstate pp)]
    else []
  | _, _ => []

/-- The pids that `kwait` has returned. -/
def collectedPids : List (Event T) → List Int32
  | [] => []
  | .exited _ _ :: e => collectedPids e
  | .collected _ pid _ :: e => pid :: collectedPids e

/-- The table and the record agree. -/
structure Ledger (d : Procs T) (e : List (Event T)) : Prop where
  exited : ∀ pid status, .exited pid status ∈ e ↔
    (∃ p, .collected p pid status ∈ e) ∨
      ∃ q, d.state q = .zombie ∧ d.pid q = pid ∧ d.xstate q = status
  once : (collectedPids e).Nodup
  gone : ∀ pid ∈ collectedPids e, pid < d.nextpid ∧ ∀ q, d.state q ≠ .unused → d.pid q ≠ pid

variable {e : List (Event T)}

omit [DecidableEq T] in
/-- A step that keeps the zombies, and gives no old pid to anybody. -/
theorem Ledger.move (h : Ledger d e)
    (hz : ∀ q, d'.state q = .zombie ↔ d.state q = .zombie)
    (hx : ∀ q, d.state q = .zombie → d'.pid q = d.pid q ∧ d'.xstate q = d.xstate q)
    (hn : d.nextpid ≤ d'.nextpid)
    (hp : ∀ q, d'.state q ≠ .unused → d.state q ≠ .unused ∧ d'.pid q = d.pid q ∨
      d.nextpid ≤ d'.pid q) : Ledger d' e := by
  refine ⟨fun pid status => ?_, h.once, fun pid hpid => ?_⟩
  · rw [h.exited]
    refine or_congr Iff.rfl (exists_congr fun q => ?_)
    rw [hz]
    refine and_congr_right fun hq => ?_
    rw [(hx q hq).1, (hx q hq).2]
  · obtain ⟨hlt, hno⟩ := h.gone pid hpid
    refine ⟨Int32.lt_of_lt_of_le hlt hn, fun q hq he => ?_⟩
    obtain ⟨hu, hpq⟩ | hge := hp q hq
    · exact hno q hu (hpq ▸ he)
    · rw [he] at hge
      exact Int32.lt_irrefl (Int32.lt_of_lt_of_le hlt hge)

theorem Ledger.goes {i : Input T} (h : Ledger d e) (hpl : Place init d t l)
    (hg : Goes init t d l i d' l') (hc : counted l d i = true) : Ledger d' e := by
  cases hg with
  | @fork np hnp =>
    have hne : ∀ q, d.state q = .zombie → q ≠ np := fun q hq => ne_of_state hq hnp (by decide)
    have hnext : d.nextpid ≤ d.nextpid + 1 :=
      Int32.le_of_lt ((Counter.lt_add_one_iff (by simpa [counted] using hc)).mpr (Int32.le_refl _))
    refine h.move (fun q => ?_) (fun q hq => ?_) hnext fun q hq => ?_
    · by_cases hqn : q = np
      · simp [alloc, hqn, hnp]
      · simp [alloc, hqn]
    · simp [alloc, hne q hq]
    · by_cases hqn : q = np
      · exact .inr (by simp [alloc, hqn])
      · exact .inl (by simpa [alloc, hqn] using hq)
  | @nomem np =>
    have hnp := hpl.2.1
    have hne : ∀ q, d.state q = .zombie → q ≠ np := fun q hq => ne_of_state hq hnp (by decide)
    refine h.move (fun q => ?_) (fun q hq => ?_) (Int32.le_refl _) fun q hq => ?_
    · by_cases hqn : q = np
      · simp [free, hqn, hnp]
      · simp [free, hqn]
    · simp [free, hne q hq]
    · have hqn : q ≠ np := by
        rintro rfl
        simp [free] at hq
      exact .inl (by simpa [free, hqn] using hq)
  | @forked np =>
    have hnp := hpl.2.1
    refine h.move (fun q => ?_) (fun q hq => ⟨rfl, rfl⟩) (Int32.le_refl _) fun q hq => .inl ⟨?_, rfl⟩
    · by_cases hqn : q = np
      · simp [start, hqn, hnp]
      · simp [start, hqn]
    · by_cases hqn : q = np
      · rw [hqn, hnp]
        decide
      · simpa [start, hqn] using hq
  | _ => exact h

/-- A process exits. -/
theorem Ledger.die (h : Ledger d e) {status : ℤ} (hs : d.state t = .live) :
    Ledger (d.die t status) (.exited (d.pid t) status :: e) := by
  refine ⟨fun pid st => ?_, h.once, fun pid hpid => ?_⟩
  · have hold := h.exited pid st
    constructor
    · intro hmem
      obtain hmem | hmem := List.mem_cons.mp hmem
      · cases hmem
        exact .inr ⟨t, by simp [Procs.die], rfl, by simp [Procs.die]⟩
      · obtain ⟨p, hp⟩ | ⟨q, hq, hpid, hx⟩ := hold.mp hmem
        · exact .inl ⟨p, List.mem_cons_of_mem _ hp⟩
        · have hqt : q ≠ t := ne_of_state hq hs (by decide)
          exact .inr ⟨q, by simpa [Procs.die, hqt] using hq, hpid, by simpa [Procs.die, hqt] using hx⟩
    · rintro (⟨p, hp⟩ | ⟨q, hq, hpid, hx⟩)
      · obtain hp | hp := List.mem_cons.mp hp
        · cases hp
        · exact List.mem_cons_of_mem _ (hold.mpr (.inl ⟨p, hp⟩))
      · by_cases hqt : q = t
        · subst hqt
          simp only [Procs.die, Function.update_self] at hx hpid
          rw [← hx, ← hpid]
          exact List.mem_cons_self
        · refine List.mem_cons_of_mem _ (hold.mpr (.inr ⟨q, ?_, hpid, ?_⟩))
          · simpa [Procs.die, hqt] using hq
          · simpa [Procs.die, hqt] using hx
  · obtain ⟨hlt, hno⟩ := h.gone pid hpid
    refine ⟨hlt, fun q hq => hno q ?_⟩
    by_cases hqt : q = t
    · rw [hqt, hs]
      decide
    · simpa [Procs.die, hqt] using hq

/-- `kwait` hands out a zombie. -/
theorem Ledger.collect (h : Ledger d e) (hN : Numbers d) (hz : d.state pp = .zombie) :
    Ledger ((d.adopt pp none).free pp) (.collected t (d.pid pp) (d.xstate pp) :: e) := by
  have hused : d.state pp ≠ .unused := by
    rw [hz]
    decide
  have hfree : ∀ q, ((d.adopt pp none).free pp).state q ≠ .unused → q ≠ pp ∧ d.state q ≠ .unused := by
    intro q hq
    have hqp : q ≠ pp := by
      rintro rfl
      simp [free] at hq
    exact ⟨hqp, by simpa [free, adopt, hqp] using hq⟩
  refine ⟨fun pid st => ?_, ?_, fun pid hpid => ?_⟩
  · have hold := h.exited pid st
    constructor
    · intro hmem
      obtain hmem | hmem := List.mem_cons.mp hmem
      · cases hmem
      · obtain ⟨p, hp⟩ | ⟨q, hq, hpid, hx⟩ := hold.mp hmem
        · exact .inl ⟨p, List.mem_cons_of_mem _ hp⟩
        · by_cases hqp : q = pp
          -- the exit of `pp` is now collected; the others keep their zombies
          · rw [hqp] at hpid hx
            rw [← hpid, ← hx]
            exact .inl ⟨t, List.mem_cons_self⟩
          · refine .inr ⟨q, ?_, ?_, ?_⟩
            · simpa [free, adopt, hqp] using hq
            · simpa [free, adopt, hqp] using hpid
            · simpa [free, adopt, hqp] using hx
    · rintro (⟨p, hp⟩ | ⟨q, hq, hpid, hx⟩)
      · refine List.mem_cons_of_mem _ (hold.mpr ?_)
        obtain hp | hp := List.mem_cons.mp hp
        · cases hp
          exact .inr ⟨pp, hz, rfl, rfl⟩
        · exact .inl ⟨p, hp⟩
      · have hqp := (hfree q (by rw [hq]; decide)).1
        refine List.mem_cons_of_mem _ (hold.mpr (.inr ⟨q, ?_, ?_, ?_⟩))
        · simpa [free, adopt, hqp] using hq
        · simpa [free, adopt, hqp] using hpid
        · simpa [free, adopt, hqp] using hx
  · exact List.nodup_cons.mpr ⟨fun hmem => (h.gone _ hmem).2 pp hused rfl, h.once⟩
  · obtain rfl | hpid := List.mem_cons.mp hpid
    · refine ⟨hN.below pp hused, fun q hq he => ?_⟩
      -- no other entry in use has the pid of `pp`
      obtain ⟨hqp, hu⟩ := hfree q hq
      exact hqp (hN.unique q pp hu hused (by simpa [free, adopt, hqp] using he))
    · obtain ⟨hlt, hno⟩ := h.gone pid hpid
      refine ⟨hlt, fun q hq he => ?_⟩
      obtain ⟨hqp, hu⟩ := hfree q hq
      exact hno q hu (by simpa [free, adopt, hqp] using he)

/-- Changing only parents changes nothing here. -/
theorem Ledger.adopt (h : Ledger d e) (p : Option T) : Ledger (d.adopt pp p) e :=
  ⟨h.exited, h.once, h.gone⟩

/-- A round of `kwait`, with its event. -/
theorem Ledger.kwait (h : Ledger d e) (hN : Numbers d) {me : T} {havekids killed copied : Bool}
    {rest : List T} : Ledger (kwaitRound t d havekids killed copied rest).shared
      (ev t (.scanning me havekids rest) d (.answer killed copied) ++ e) := by
  cases rest with
  | nil =>
    simp only [kwaitRound, ev]
    split <;> exact h
  | cons pp rest =>
    simp only [kwaitRound, ev]
    split
    · rename_i hp
      split
      · rename_i hz
        cases copied with
        | true =>
          simp only [if_true, and_true]
          rw [if_pos ⟨hp, hz⟩]
          exact h.collect hN hz
        | false =>
          simp only [Bool.false_eq_true, and_false, if_false]
          exact h
      · rename_i hz
        rw [if_neg (fun hc => hz hc.2.1)]
        exact h
    · rename_i hp
      rw [if_neg (fun hc => hp hc.1)]
      exact h

theorem Ledger.does (h : Ledger d e) (hN : Numbers d) (hpl : Place init d t l) {i : Input T}
    {o : Out (Procs T) (Loc T) T} (ho : inside procs init t l d i = some o) :
    Ledger o.shared (ev t l d i ++ e) := by
  cases i with
  | answer killed copied =>
    cases l with
    | forking np =>
      cases ho
      exact h.adopt _
    | exiting status =>
      cases ho
      exact h
    | reparenting status rest =>
      cases ho
      cases rest with
      | nil =>
        simp only [reparentRound]
        split <;> exact h
      | cons pp rest =>
        simp only [reparentRound]
        split
        · exact h.adopt _
        · exact h
    | dying me status =>
      cases ho
      exact h.die hpl.1
    | waiting me =>
      cases ho
      exact h
    | scanning me havekids rest =>
      cases ho
      exact h.kwait hN
    | _ => cases ho
  | _ => cases ho

/-- **Every exit is collected once.**  Over a run of any number of forks, exits
and waits in which `nextpid` does not overflow: no pid is returned twice by
`kwait`; an exit has been returned or its zombie is still in the table; what
`kwait` returns is the pid and the status of a process that has exited; and
every zombie of the table is an exit that has not been returned. -/
theorem collected_once (hall : ∀ t, t ∈ procs) {x : St T (Loc T) (Procs T) T × List (Event T)}
    (h : ((((monitor procs init).guard counted).sys).logged (Monitor.events ev)).Reachable x) :
    (collectedPids x.2).Nodup ∧
      (∀ pid status, .exited pid status ∈ x.2 ↔
        (∃ p, .collected p pid status ∈ x.2) ∨
          ∃ q, x.1.shared.state q = .zombie ∧ x.1.shared.pid q = pid ∧
            x.1.shared.xstate q = status) ∧
      ∀ q, x.1.shared.state q = .zombie → x.1.shared.pid q ∉ collectedPids x.2 := by
  have hJ : Family init x.1.shared x.1.locs ∧ Numbers x.1.shared ∧ Ledger x.1.shared x.2 := by
    refine Monitor.logged_view_invariant (monitor_private.guard counted)
      (J := fun d f e => Family init d f ∧ Numbers d ∧ Ledger d e) ?_ ?_ ?_ h
    · intro d f hinit
      refine ⟨boot_family hinit, boot_numbers hinit.1, fun pid status => ?_, List.nodup_nil,
        by simp [collectedPids]⟩
      constructor
      · intro hmem
        cases hmem
      · rintro (⟨p, hp⟩ | ⟨q, hq, -⟩)
        · cases hp
        · rw [hinit.1.1 q] at hq
          split at hq <;> cases hq
    · rintro d f e t i d' l' ⟨hF, hN, hL⟩ ho
      obtain ⟨hc, ho⟩ := Monitor.guard_outside.mp ho
      have hg := outside_goes ho
      have hev : ev t (f t) d i = [] := by
        cases i with
        | answer killed copied => cases ho
        | _ =>
          cases f t with
          | scanning me havekids rest => cases rest <;> rfl
          | _ => rfl
      rw [hev]
      exact ⟨hF.goes hg, hN.goes (hF.place t) hg hc, hL.goes (hF.place t) hg hc⟩
    · rintro d f e t i o ⟨hF, hN, hL⟩ halone ho
      exact ⟨hF.does hall halone (inside_does ho), hN.does (hF.place t) (inside_does ho),
        hL.does hN (hF.place t) ho⟩
  obtain ⟨-, -, hL⟩ := hJ
  refine ⟨hL.once, hL.exited, fun q hq hmem => ?_⟩
  exact (hL.gone _ hmem).2 q (by rw [hq]; decide) rfl

/-- The child exits, and its parent collects it. -/
def exitAndCollect : List (Monitor.Act Bool (Input Bool)) :=
  forkAndWait ++ [.outside false .go, .outside false (.exit 5), .acquire false] ++
    List.replicate 4 (.inside false (.answer false true)) ++ List.replicate 3 (.scan false) ++
    [.inside false (.answer false true), .acquire true] ++
    List.replicate 2 (.inside true (.answer false true))

theorem collected_once_child : ∃ x : St Bool (Loc Bool) (Procs Bool) Bool × List (Event Bool),
    ((((monitor [false, true] true).guard counted).sys).logged (Monitor.events ev)).Reachable x ∧
    collectedPids x.2 = [2] ∧ (collectedPids x.2).Nodup ∧
    (∀ pid status, .exited pid status ∈ x.2 ↔
      (∃ p, .collected p pid status ∈ x.2) ∨
        ∃ q, x.1.shared.state q = .zombie ∧ x.1.shared.pid q = pid ∧
          x.1.shared.xstate q = status) ∧
    ∀ q, x.1.shared.state q = .zombie → x.1.shared.pid q ∉ collectedPids x.2 := by
  obtain ⟨x, hx, hpids⟩ := Sys.exists_of_run
    ((((monitor [false, true] true).guard counted).sys).logged (Monitor.events ev)) exitAndCollect
    (p := fun x => collectedPids x.2 = [2])
    (.init (show ((((monitor [false, true] true).guard counted).sys).logged
      (Monitor.events ev)).init (boot, []) from ⟨boot_init, rfl⟩)) (by decide)
  exact ⟨x, hx, hpids, collected_once (by decide) hx⟩

end Xv6.Procs
