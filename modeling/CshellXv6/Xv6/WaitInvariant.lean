/-
The process tree.

* `Procs.Table` — what holds of the process table at any time: a parent is
  alive, and every process descends from `initproc` through living ancestors;
* `Procs.Place` — what a process may rely on where it is;
* `Procs.Numbers` — the pids given out so far, as long as `nextpid` does not
  overflow: those of the entries in use are all different;
* `Procs.descends_from_initproc` — in every interleaving of `kfork`, `kexit` and
  `kwait` every process, alive or waiting to be collected, descends from
  `initproc`, and until `nextpid` overflows no two entries in use share a pid.
-/
import CshellXv6.Lib.Counter
import CshellXv6.Xv6.Wait
import Mathlib.Logic.Relation

namespace Xv6.Procs

open Monitor (Out St)
open Relation (ReflTransGen)

variable {T : Type} [DecidableEq T]

/-- `q` is a child of the living process `p`. -/
def LiveChild (d : Procs T) (q p : T) : Prop := d.parent q = some p ∧ d.state p = .live

/-- The process table. -/
structure Table (init : T) (d : Procs T) : Prop where
  parent_live : ∀ q p, d.parent q = some p → d.state p = .live
  child_used : ∀ q p, d.parent q = some p → d.state q ≠ .unused
  root : d.state init = .live ∧ d.parent init = none
  descends : ∀ q, d.state q = .live ∨ d.state q = .zombie → ReflTransGen (LiveChild d) q init

variable {init t np pp q : T} {d d' : Procs T}

omit [DecidableEq T] in
theorem Table.no_parent (h : Table init d) (hnp : d.state np = .unused) : d.parent np = none := by
  cases hp : d.parent np with
  | none => rfl
  | some p => exact absurd hnp (h.child_used np p hp)

omit [DecidableEq T] in
theorem Table.no_child (h : Table init d) (hnp : d.state np ≠ .live) (q : T) :
    d.parent q ≠ some np :=
  fun hp => hnp (h.parent_live q np hp)

theorem Table.alloc (h : Table init d) (hnp : d.state np = .unused) : Table init (d.alloc np) := by
  have hne : ∀ q, d.state q ≠ .unused → q ≠ np := by
    rintro q hq rfl
    exact hq hnp
  have hlive : ∀ q, d.state q = .live → (d.alloc np).state q = .live := by
    intro q hq
    simpa [Procs.alloc, hne q (by rw [hq]; decide)] using hq
  refine ⟨fun q p hp => hlive p (h.parent_live q p hp), fun q p hp => ?_,
    ⟨hlive init h.root.1, h.root.2⟩, fun q hq => ?_⟩
  · have hu := h.child_used q p hp
    simpa [Procs.alloc, hne q hu] using hu
  · have hqn : q ≠ np := by
      rintro rfl
      simp [Procs.alloc] at hq
    have hold := h.descends q (by simpa [Procs.alloc, hqn] using hq)
    exact hold.lift id fun r p hr => ⟨hr.1, hlive p hr.2⟩

/-- An entry that has no children is given back. -/
theorem Table.remove (h : Table init d) (hc : ∀ q, d.parent q ≠ some np) (hi : np ≠ init) :
    Table init ((d.adopt np none).free np) := by
  have hpar : ∀ q p, ((d.adopt np none).free np).parent q = some p →
      q ≠ np ∧ p ≠ np ∧ d.parent q = some p := by
    intro q p hp
    have hqn : q ≠ np := by
      rintro rfl
      simp [Procs.free, Procs.adopt] at hp
    have hp' : d.parent q = some p := by simpa [Procs.free, Procs.adopt, hqn] using hp
    refine ⟨hqn, ?_, hp'⟩
    rintro rfl
    exact hc q hp'
  refine ⟨fun q p hp => ?_, fun q p hp => ?_, ?_, fun q hq => ?_⟩
  · obtain ⟨-, hpn, hp⟩ := hpar q p hp
    simpa [Procs.free, Procs.adopt, hpn] using h.parent_live q p hp
  · obtain ⟨hqn, -, hp⟩ := hpar q p hp
    simpa [Procs.free, Procs.adopt, hqn] using h.child_used q p hp
  · simpa [Procs.free, Procs.adopt, Ne.symm hi] using h.root
  · have hqn : q ≠ np := by
      rintro rfl
      simp [Procs.free] at hq
    -- nobody's ancestors are given back
    have hpath : ∀ {q}, ReflTransGen (LiveChild d) q init → q ≠ np →
        ReflTransGen (LiveChild ((d.adopt np none).free np)) q init := by
      intro q hq
      induction hq using ReflTransGen.head_induction_on with
      | refl => exact fun _ => .refl
      | @head q p hqp _ ih =>
        intro hqn
        have hpn : p ≠ np := by
          rintro rfl
          exact hc q hqp.1
        refine .head ⟨?_, ?_⟩ (ih hpn)
        · simpa [Procs.free, Procs.adopt, hqn] using hqp.1
        · simpa [Procs.free, Procs.adopt, hpn] using hqp.2
    exact hpath (h.descends q (by simpa [Procs.free, Procs.adopt, hqn] using hq)) hqn

/-- So is one that has no parent yet. -/
theorem Table.free (h : Table init d) (hnp : d.parent np = none) (hc : ∀ q, d.parent q ≠ some np)
    (hi : np ≠ init) : Table init (d.free np) := by
  have hadopt : d.adopt np none = d := by
    rw [Procs.adopt, ← hnp, Function.update_eq_self]
  have := h.remove hc hi
  rwa [hadopt] at this

/-- A process gets a new parent: a living one if it had none, else
`initproc`. -/
theorem Table.adopt {p : T} (h : Table init d) (hp : d.state p = .live) (hq : d.state q ≠ .unused)
    (hi : q ≠ init) (hnew : d.parent q = none ∨ p = init) : Table init (d.adopt q (some p)) := by
  have hpar : ∀ r s, (d.adopt q (some p)).parent r = some s →
      (r = q ∧ s = p) ∨ (r ≠ q ∧ d.parent r = some s) := by
    intro r s hr
    by_cases hrq : r = q
    · subst hrq
      exact .inl ⟨rfl, by simpa [Procs.adopt] using hr.symm⟩
    · exact .inr ⟨hrq, by simpa [Procs.adopt, hrq] using hr⟩
  refine ⟨fun r s hr => ?_, fun r s hr => ?_, ?_, fun r hr => ?_⟩
  · obtain ⟨-, rfl⟩ | ⟨-, hr⟩ := hpar r s hr
    · exact hp
    · exact h.parent_live r s hr
  · obtain ⟨rfl, -⟩ | ⟨-, hr⟩ := hpar r s hr
    · exact hq
    · exact h.child_used r s hr
  · simpa [Procs.adopt, Ne.symm hi] using h.root
  · -- a path to `initproc` that comes past `q` is cut short there
    have hpath := h.descends r hr
    induction hpath using ReflTransGen.head_induction_on with
    | refl => exact .refl
    | @head r s hrs _ ih =>
      by_cases hrq : r = q
      · subst hrq
        obtain hnone | rfl := hnew
        · rw [hrs.1] at hnone
          cases hnone
        · exact .single ⟨by simp [Procs.adopt], hp⟩
      · exact .head ⟨by simpa [Procs.adopt, hrq] using hrs.1, hrs.2⟩ (ih (.inl hrs.2))

/-- A new process that has its parent starts to run. -/
theorem Table.start {p : T} (h : Table init d) (hp : d.parent np = some p) :
    Table init (d.start np) := by
  have hlive : ∀ q, d.state q = .live → (d.start np).state q = .live := by
    intro q hq
    by_cases hqn : q = np
    · simp [Procs.start, hqn]
    · simpa [Procs.start, hqn] using hq
  have hpath : ∀ {q}, ReflTransGen (LiveChild d) q init →
      ReflTransGen (LiveChild (d.start np)) q init := fun hq =>
    hq.lift id fun r s hr => ⟨hr.1, hlive s hr.2⟩
  refine ⟨fun q r hr => hlive r (h.parent_live q r hr), fun q r hr => ?_,
    ⟨hlive init h.root.1, h.root.2⟩, fun q hq => ?_⟩
  · by_cases hqn : q = np
    · simp [Procs.start, hqn]
    · simpa [Procs.start, hqn] using h.child_used q r hr
  · by_cases hqn : q = np
    · have hl := h.parent_live np p hp
      rw [hqn]
      exact .head ⟨hp, hlive p hl⟩ (hpath (h.descends p (.inl hl)))
    · exact hpath (h.descends q (by simpa [Procs.start, hqn] using hq))

/-- A process without children becomes a zombie. -/
theorem Table.die {status : ℤ} (h : Table init d) (ht : d.state t = .live) (hi : t ≠ init)
    (hc : ∀ q, d.parent q ≠ some t) : Table init (d.die t status) := by
  have hlive : ∀ q p, d.parent q = some p → (d.die t status).state p = .live := by
    intro q p hp
    have hpt : p ≠ t := by
      rintro rfl
      exact hc q hp
    simpa [Procs.die, hpt] using h.parent_live q p hp
  refine ⟨hlive, fun q p hp => ?_, ?_, fun q hq => ?_⟩
  · by_cases hqt : q = t
    · simp [Procs.die, hqt]
    · simpa [Procs.die, hqt] using h.child_used q p hp
  · simpa [Procs.die, Ne.symm hi] using h.root
  · have hold : d.state q = .live ∨ d.state q = .zombie := by
      by_cases hqt : q = t
      · exact .inl (by rw [hqt]; exact ht)
      · simpa [Procs.die, hqt] using hq
    exact (h.descends q hold).lift id fun r p hr => ⟨hr.1, hlive r p hr.1⟩

/-! ### Where the processes are -/

/-- The entry that a process in `kfork` is filling. -/
def Loc.makes : Loc T → Option T
  | forking np | forked np => some np
  | _ => Option.none

/-- The local states behind `acquire(&wait_lock)` that rely on the parents. -/
def mid : Loc T → Bool
  | .reparenting _ _ | .dying _ _ | .scanning _ _ _ => true
  | _ => false

/-- What process `t` may rely on where it is.  While it reparents, its children
are still to come in the table; while it scans, it has seen no zombie among its
children. -/
def Place (init : T) (d : Procs T) (t : T) : Loc T → Prop
  | .none => True
  | .run | .panicked => d.state t = .live
  | .forking np => d.state t = .live ∧ d.state np = .used ∧ d.parent np = none
  | .forked np => d.state t = .live ∧ d.state np = .used ∧ d.parent np = some t
  | .exiting _ => d.state t = .live ∧ t ≠ init
  | .reparenting _ rest =>
    d.state t = .live ∧ t ≠ init ∧ ∀ q, d.parent q = some t → q ∈ rest
  | .dying me _ => d.state t = .live ∧ t ≠ init ∧ me = t ∧ ∀ q, d.parent q ≠ some t
  | .waiting me => d.state t = .live ∧ me = t
  | .scanning me havekids rest => d.state t = .live ∧ me = t ∧
      (∀ q, q ∉ rest → d.parent q = some t → d.state q ≠ .zombie) ∧
      (havekids = true → ∃ q, d.parent q = some t)

omit [DecidableEq T] in
/-- What a process relies on is its own state, the entry it fills and, inside,
the parents. -/
theorem Place.frame {l : Loc T} (h : Place init d t l)
    (hself : d.state t = .live → d'.state t = .live)
    (hmakes : ∀ np, l.makes = some np → d'.state np = d.state np ∧ d'.parent np = d.parent np)
    (hmid : mid l = true → d'.parent = d.parent ∧ ∀ q, d'.state q = .zombie → d.state q = .zombie) :
    Place init d' t l := by
  cases l with
  | none => trivial
  | run => exact hself h
  | panicked => exact hself h
  | forking np =>
    obtain ⟨hl, hs, hp⟩ := h
    obtain ⟨hs', hp'⟩ := hmakes np rfl
    exact ⟨hself hl, by rw [hs', hs], by rw [hp', hp]⟩
  | forked np =>
    obtain ⟨hl, hs, hp⟩ := h
    obtain ⟨hs', hp'⟩ := hmakes np rfl
    exact ⟨hself hl, by rw [hs', hs], by rw [hp', hp]⟩
  | exiting status => exact ⟨hself h.1, h.2⟩
  | reparenting status rest =>
    obtain ⟨hp, -⟩ := hmid rfl
    refine ⟨hself h.1, h.2.1, ?_⟩
    rw [hp]
    exact h.2.2
  | dying me status =>
    obtain ⟨hp, -⟩ := hmid rfl
    refine ⟨hself h.1, h.2.1, h.2.2.1, ?_⟩
    rw [hp]
    exact h.2.2.2
  | waiting me => exact ⟨hself h.1, h.2⟩
  | scanning me havekids rest =>
    obtain ⟨hp, hz⟩ := hmid rfl
    obtain ⟨hl, hme, hseen, hkids⟩ := h
    refine ⟨hself hl, hme, ?_, ?_⟩
    · rw [hp]
      exact fun q hq hpq hzq => hseen q hq hpq (hz q hzq)
    · rw [hp]
      exact hkids

/-- The table and the places of the processes; an entry is filled by one
process at a time. -/
structure Family (init : T) (d : Procs T) (f : T → Loc T) : Prop where
  table : Table init d
  place : ∀ t, Place init d t (f t)
  makes : ∀ t u np, (f t).makes = some np → (f u).makes = some np → t = u

variable {f : T → Loc T} {l' : Loc T} {procs : List T}

/-- A step of process `t`, from what the others see of it. -/
theorem Family.step (h : Family init d f) (ht : Table init d') (hl : Place init d' t l')
    (hself : ∀ u, u ≠ t → d.state u = .live → d'.state u = .live)
    (hmakes : ∀ u np, u ≠ t → (f u).makes = some np →
      d'.state np = d.state np ∧ d'.parent np = d.parent np)
    (hmid : ∀ u, u ≠ t → mid (f u) = true →
      d'.parent = d.parent ∧ ∀ q, d'.state q = .zombie → d.state q = .zombie)
    (hnew : ∀ np, l'.makes = some np → (f t).makes = some np ∨ ∀ u, (f u).makes ≠ some np) :
    Family init d' (Function.update f t l') := by
  refine ⟨ht, fun u => ?_, fun u v np hu hv => ?_⟩
  · by_cases hut : u = t
    · subst hut
      rw [Function.update_self]
      exact hl
    · rw [Function.update_of_ne hut]
      exact (h.place u).frame (hself u hut) (fun np => hmakes u np hut) (hmid u hut)
  · have key : ∀ w, w ≠ t → (f w).makes = some np → l'.makes = some np → False := by
      intro w hw hwn hl'
      obtain hold | hnone := hnew np hl'
      · exact hw (h.makes w t np hwn hold)
      · exact hnone w hwn
    by_cases hut : u = t
    · by_cases hvt : v = t
      · rw [hut, hvt]
      · subst hut
        rw [Function.update_self] at hu
        rw [Function.update_of_ne hvt] at hv
        exact (key v hvt hv hu).elim
    · rw [Function.update_of_ne hut] at hu
      by_cases hvt : v = t
      · subst hvt
        rw [Function.update_self] at hv
        exact (key u hut hu hv).elim
      · rw [Function.update_of_ne hvt] at hv
        exact h.makes u v np hu hv

/-- A step that leaves the table. -/
theorem Family.stay (h : Family init d f) (hl : Place init d t l') (hm : l'.makes = none) :
    Family init d (Function.update f t l') :=
  h.step h.table hl (fun _ _ hs => hs) (fun _ _ _ _ => ⟨rfl, rfl⟩)
    (fun _ _ _ => ⟨rfl, fun _ => id⟩) (by simp [hm])

omit [DecidableEq T] in
/-- An entry that somebody fills is in use, and not yet a process. -/
theorem Family.filling (h : Family init d f) {u : T} (hu : (f u).makes = some np) :
    d.state np = .used := by
  have hp := h.place u
  cases hl : f u with
  | forking np' =>
    rw [hl] at hu hp
    obtain rfl : np' = np := Option.some_inj.mp hu
    exact hp.2.1
  | forked np' =>
    rw [hl] at hu hp
    obtain rfl : np' = np := Option.some_inj.mp hu
    exact hp.2.1
  | _ => rw [hl] at hu; cases hu

omit [DecidableEq T] in
theorem ne_of_state {q r : T} {s s' : ProcState} (hq : d.state q = s) (hr : d.state r = s')
    (hne : s ≠ s') : q ≠ r := by
  rintro rfl
  exact hne (hq.symm.trans hr)

/-- The steps without the lock. -/
theorem Family.goes (h : Family init d f) {i : Input T} (hg : Goes init t d (f t) i d' l') :
    Family init d' (Function.update f t l') := by
  have hpl := h.place t
  have hmk := h.makes t
  generalize hl : f t = l at hg hpl hmk
  have hinit := h.table.root.1
  cases hg with
  | born hlive => exact h.stay hlive rfl
  | @fork np hnp =>
    -- `np` was unused: nobody had it as a parent or was filling it in
    have hs : d.state t = .live := hpl
    have htn : t ≠ np := ne_of_state hs hnp (by decide)
    refine h.step (h.table.alloc hnp) ?_ (fun u _ hu => ?_) (fun u q _ hq => ?_) (fun u _ _ => ?_)
      (fun q hq => .inr fun u hu => ?_)
    · exact ⟨by simpa [Procs.alloc, htn] using hs, by simp [Procs.alloc], h.table.no_parent hnp⟩
    · have hun : u ≠ np := ne_of_state hu hnp (by decide)
      simpa [Procs.alloc, hun] using hu
    · have hqn : q ≠ np := ne_of_state (h.filling hq) hnp (by decide)
      simp [Procs.alloc, hqn]
    · refine ⟨rfl, fun q hq => ?_⟩
      have hqn : q ≠ np := by
        rintro rfl
        simp [Procs.alloc] at hq
      simpa [Procs.alloc, hqn] using hq
    · obtain rfl : np = q := Option.some_inj.mp hq
      rw [h.filling hu] at hnp
      cases hnp
  | @nomem np =>
    -- the entry given back is the one this process was filling in, and nobody else's
    obtain ⟨hs, hnp, hpar⟩ := hpl
    have htn : t ≠ np := ne_of_state hs hnp (by decide)
    have hin : np ≠ init := ne_of_state hnp hinit (by decide)
    refine h.step (h.table.free hpar (h.table.no_child (by rw [hnp]; decide)) hin) ?_
      (fun u _ hu => ?_) (fun u q hut hq => ?_) (fun u _ _ => ?_) (by simp [Loc.makes])
    · simpa [Place, Procs.free, htn] using hs
    · have hun : u ≠ np := ne_of_state hu hnp (by decide)
      simpa [Procs.free, hun] using hu
    · have hqn : q ≠ np := by
        rintro rfl
        exact hut (hmk u q rfl hq).symm
      simp [Procs.free, hqn]
    · refine ⟨rfl, fun q hq => ?_⟩
      have hqn : q ≠ np := by
        rintro rfl
        simp [Procs.free] at hq
      simpa [Procs.free, hqn] using hq
  | @forked np =>
    obtain ⟨hs, hnp, hpar⟩ := hpl
    have htn : t ≠ np := ne_of_state hs hnp (by decide)
    refine h.step (h.table.start hpar) ?_ (fun u _ hu => ?_) (fun u q hut hq => ?_)
      (fun u _ _ => ?_) (by simp [Loc.makes])
    · simpa [Place, Procs.start, htn] using hs
    · have hun : u ≠ np := ne_of_state hu hnp (by decide)
      simpa [Procs.start, hun] using hu
    · have hqn : q ≠ np := by
        rintro rfl
        exact hut (hmk u q rfl hq).symm
      simp [Procs.start, hqn]
    · refine ⟨rfl, fun q hq => ?_⟩
      have hqn : q ≠ np := by
        rintro rfl
        simp [Procs.start] at hq
      simpa [Procs.start, hqn] using hq
  | exit hi => exact h.stay ⟨hpl, hi⟩ rfl
  | panic _ => exact h.stay hpl rfl
  | wait => exact h.stay ⟨hpl, rfl⟩ rfl

/-- The steps of the holder of the lock. -/
theorem Family.does (h : Family init d f) (hall : ∀ t, t ∈ procs)
    (halone : ∀ u, u ≠ t → mid (f u) = false) {o : Out (Procs T) (Loc T) T}
    (hd : Does procs init t d (f t) o) :
    Family init o.shared (Function.update f t o.loc) := by
  have hpl := h.place t
  have hmk := h.makes t
  generalize hl : f t = l at hd hpl hmk
  have hinit := h.table.root.1
  have hmid : ∀ {d' : Procs T} u, u ≠ t → mid (f u) = true →
      d'.parent = d.parent ∧ ∀ q, d'.state q = .zombie → d.state q = .zombie := by
    intro d' u hut hm
    rw [halone u hut] at hm
    cases hm
  cases hd with
  | @adopt np =>
    -- an entry that is being filled in has no parent yet
    obtain ⟨hs, hnp, hpar⟩ := hpl
    have hin : np ≠ init := ne_of_state hnp hinit (by decide)
    refine h.step (h.table.adopt hs (by rw [hnp]; decide) hin (.inl hpar))
      ⟨hs, hnp, by simp [Out.shared, Procs.adopt]⟩ (fun u _ hu => hu) (fun u q hut hq => ?_) hmid
      (fun q hq => .inl (by rw [hl]; exact hq))
    have hqn : q ≠ np := by
      rintro rfl
      exact hut (hmk u q rfl hq).symm
    simp [Out.shared, Procs.adopt, hqn]
  | exit => exact h.stay ⟨hpl.1, hpl.2, fun q _ => hall q⟩ rfl
  | @orphan status pp rest hp =>
    -- `pp` goes from the exiting process to `initproc`
    obtain ⟨hs, hti, hrest⟩ := hpl
    have hu := h.table.child_used pp t hp
    have hpi : pp ≠ init := by
      rintro rfl
      rw [h.table.root.2] at hp
      cases hp
    refine h.step (h.table.adopt hinit hu hpi (.inr rfl)) ⟨hs, hti, fun q hq => ?_⟩
      (fun u _ hu => hu) (fun u q hut hq => ?_) hmid (by simp [Out.loc, Loc.makes])
    · have hqp : q ≠ pp := by
        rintro rfl
        simp only [Out.shared, Procs.adopt, Function.update_self, Option.some_inj] at hq
        exact hti hq.symm
      have hq' : d.parent q = some t := by
        simpa [Out.shared, Procs.adopt, hqp] using hq
      exact (List.mem_cons.mp (hrest q hq')).resolve_left hqp
    · have hqp : q ≠ pp := by
        rintro rfl
        have hplu := h.place u
        -- who fills in `pp` is not its parent yet, or is, and then it is this process
        cases hfu : f u with
        | forking np =>
          rw [hfu] at hq hplu
          obtain rfl : np = q := Option.some_inj.mp hq
          rw [hplu.2.2] at hp
          cases hp
        | forked np =>
          rw [hfu] at hq hplu
          obtain rfl : np = q := Option.some_inj.mp hq
          rw [hplu.2.2] at hp
          exact hut (Option.some_inj.mp hp)
        | _ => rw [hfu] at hq; cases hq
      simp [Out.shared, Procs.adopt, hqp]
  | other hp =>
    refine h.stay ⟨hpl.1, hpl.2.1, fun q hq => ?_⟩ rfl
    refine (List.mem_cons.mp (hpl.2.2 q hq)).resolve_left ?_
    rintro rfl
    exact hp hq
  | notify _ =>
    refine h.stay ⟨hpl.1, hpl.2.1, rfl, fun q hq => ?_⟩ rfl
    cases hpl.2.2 q hq
  | nobody _ =>
    refine h.stay ⟨hpl.1, hpl.2.1, rfl, fun q hq => ?_⟩ rfl
    cases hpl.2.2 q hq
  | die =>
    -- the children are gone: `reparent` went over the whole table before
    obtain ⟨hs, hti, -, hno⟩ := hpl
    refine h.step (h.table.die hs hti hno) trivial (fun u hut hu => ?_) (fun u q hut hq => ?_) hmid
      (by simp [Out.loc, Loc.makes])
    · simpa [Out.shared, Procs.die, hut] using hu
    · have hqt : q ≠ t := ne_of_state (h.filling hq) hs (by decide)
      simp [Out.shared, Procs.die, hqt]
  | look => exact h.stay ⟨hpl.1, rfl, fun q hq => absurd (hall q) hq, by simp⟩ rfl
  | @collect me havekids pp rest hp hz =>
    -- a zombie has no children left, so its entry can go
    have hs := hpl.1
    have htp : t ≠ pp := ne_of_state hs hz (by decide)
    have hpi : pp ≠ init := ne_of_state hz hinit (by decide)
    refine h.step (h.table.remove (h.table.no_child (by rw [hz]; decide)) hpi) ?_
      (fun u _ hu => ?_) (fun u q hut hq => ?_) hmid (by simp [Out.loc, Loc.makes])
    · simpa [Place, Out.shared, Out.loc, Procs.free, Procs.adopt, htp] using hs
    · have hup : u ≠ pp := ne_of_state hu hz (by decide)
      simpa [Out.shared, Procs.free, Procs.adopt, hup] using hu
    · have hqp : q ≠ pp := ne_of_state (h.filling hq) hz (by decide)
      simp [Out.shared, Procs.free, Procs.adopt, hqp]
  | fault _ _ => exact h.stay hpl.1 rfl
  | @child me havekids pp rest hp hz =>
    refine h.stay ⟨hpl.1, rfl, fun q hq hqt => ?_, fun _ => ⟨pp, hp⟩⟩ rfl
    by_cases hqp : q = pp
    · rw [hqp]
      exact hz
    · exact hpl.2.2.1 q (by simp [hqp, hq]) hqt
  | @pass me havekids pp rest hp =>
    refine h.stay ⟨hpl.1, rfl, fun q hq hqt => ?_, hpl.2.2.2⟩ rfl
    have hqp : q ≠ pp := by
      rintro rfl
      exact hp hqt
    exact hpl.2.2.1 q (by simp [hqp, hq]) hqt
  | giveUp => exact h.stay hpl.1 rfl
  | sleep => exact h.stay ⟨hpl.1, rfl⟩ rfl

/-! ### Every run -/

theorem monitor_private : Monitor.Private (monitor procs init) mid where
  init h t := by rw [h.2 t]; rfl
  outside h := by cases outside_goes h <;> rfl
  leave h := by
    have := inside_does h
    cases this <;> rfl
  wait h := by
    have := inside_does h
    cases this
    rfl

theorem boot_table {init : T} {d : Procs T} (h : Boot init d) : Table init d := by
  obtain ⟨hs, hp, -⟩ := h
  refine ⟨fun q p hq => ?_, fun q p hq => ?_, ⟨?_, hp init⟩, fun q hq => ?_⟩
  · rw [hp q] at hq
    cases hq
  · rw [hp q] at hq
    cases hq
  · rw [hs init, if_pos rfl]
  · have hqi : q = init := by
      by_contra hqi
      rw [hs q, if_neg hqi] at hq
      simp at hq
    rw [hqi]

theorem boot_family {init : T} {d : Procs T} (h : Boot init d ∧ ∀ t, f t = .none) :
    Family init d f :=
  ⟨boot_table h.1, fun t => by rw [h.2 t]; trivial,
    fun t u np hu => by rw [h.2 t] at hu; cases hu⟩

variable {s : St T (Loc T) (Procs T) T}

/-- The tree and the places, in every interleaving. -/
theorem family (hall : ∀ t, t ∈ procs) (h : (monitor procs init).sys.Reachable s) :
    Family init s.shared s.locs := by
  refine Monitor.view_invariant monitor_private (J := Family init) ?_ ?_ ?_ h
  · intro d f hinit
    exact boot_family hinit
  · intro d f t i d' l' hJ ho
    exact hJ.goes (outside_goes ho)
  · intro d f t i o hJ halone ho
    exact hJ.does hall halone (inside_does ho)

/-! ### Pids -/

/-- Where a pid is given out, the next one is an `int`. -/
def counted : Loc T → Procs T → Input T → Bool
  | _, d, .fork _ => d.nextpid != Int32.maxValue
  | _, _, _ => true

/-- The pids of the entries in use. -/
structure Numbers (d : Procs T) : Prop where
  below : ∀ q, d.state q ≠ .unused → d.pid q < d.nextpid
  unique : ∀ q r, d.state q ≠ .unused → d.state r ≠ .unused → d.pid q = d.pid r → q = r

omit [DecidableEq T] in
/-- A step that gives out no pid. -/
theorem Numbers.move (h : Numbers d) (hn : d'.nextpid = d.nextpid)
    (hu : ∀ q, d'.state q ≠ .unused → d.state q ≠ .unused ∧ d'.pid q = d.pid q) : Numbers d' := by
  refine ⟨fun q hq => ?_, fun q r hq hr he => ?_⟩
  · obtain ⟨hq, hpid⟩ := hu q hq
    rw [hpid, hn]
    exact h.below q hq
  · obtain ⟨hq, hpq⟩ := hu q hq
    obtain ⟨hr, hpr⟩ := hu r hr
    exact h.unique q r hq hr (by rw [← hpq, ← hpr, he])

theorem Numbers.alloc (h : Numbers d) (hmax : d.nextpid ≠ Int32.maxValue) :
    Numbers (d.alloc np) := by
  have hnew : (d.alloc np).pid np = d.nextpid := by simp [Procs.alloc]
  have hold : ∀ q, q ≠ np → (d.alloc np).state q ≠ .unused →
      d.state q ≠ .unused ∧ (d.alloc np).pid q = d.pid q := by
    intro q hqn hq
    exact ⟨by simpa [Procs.alloc, hqn] using hq, by simp [Procs.alloc, hqn]⟩
  have hlt : ∀ q, q ≠ np → (d.alloc np).state q ≠ .unused → (d.alloc np).pid q < d.nextpid := by
    intro q hqn hq
    obtain ⟨hq, hpid⟩ := hold q hqn hq
    rw [hpid]
    exact h.below q hq
  refine ⟨fun q hq => ?_, fun q r hq hr he => ?_⟩
  · refine (Counter.lt_add_one_iff hmax).mpr ?_
    by_cases hqn : q = np
    · rw [hqn, hnew]
      exact Int32.le_refl d.nextpid
    · exact Int32.le_of_lt (hlt q hqn hq)
  · -- the new pid is larger than all others
    by_cases hqn : q = np
    · by_cases hrn : r = np
      · rw [hqn, hrn]
      · rw [hqn, hnew] at he
        exact absurd he.symm (Int32.ne_of_lt (hlt r hrn hr))
    · by_cases hrn : r = np
      · rw [hrn, hnew] at he
        exact absurd he (Int32.ne_of_lt (hlt q hqn hq))
      · obtain ⟨hq, hpq⟩ := hold q hqn hq
        obtain ⟨hr, hpr⟩ := hold r hrn hr
        exact h.unique q r hq hr (by rw [← hpq, ← hpr, he])

/-- Giving an entry back. -/
theorem Numbers.free (h : Numbers d) : Numbers (d.free np) := by
  refine h.move rfl fun q hq => ?_
  have hqn : q ≠ np := by
    rintro rfl
    simp [Procs.free] at hq
  exact ⟨by simpa [Procs.free, hqn] using hq, by simp [Procs.free, hqn]⟩

theorem Numbers.goes {l : Loc T} {i : Input T} (h : Numbers d) (hpl : Place init d t l)
    (hg : Goes init t d l i d' l') (hc : counted l d i = true) : Numbers d' := by
  cases hg with
  | fork _ => exact h.alloc (by simpa [counted] using hc)
  | nomem => exact h.free
  | @forked np =>
    refine h.move rfl fun q hq => ⟨?_, rfl⟩
    by_cases hqn : q = np
    · rw [hqn, hpl.2.1]
      decide
    · simpa [Procs.start, hqn] using hq
  | _ => exact h

theorem Numbers.does {l : Loc T} {o : Out (Procs T) (Loc T) T} (h : Numbers d)
    (hpl : Place init d t l) (hd : Does procs init t d l o) : Numbers o.shared := by
  cases hd with
  | adopt => exact h.move rfl fun q hq => ⟨hq, rfl⟩
  | orphan _ => exact h.move rfl fun q hq => ⟨hq, rfl⟩
  | die =>
    refine h.move rfl fun q hq => ⟨?_, rfl⟩
    by_cases hqt : q = t
    · rw [hqt, hpl.1]
      decide
    · simpa [Out.shared, Procs.die, hqt] using hq
  | @collect me havekids pp rest _ _ =>
    have hadopt : Numbers (d.adopt pp none) := h.move rfl fun q hq => ⟨hq, rfl⟩
    exact hadopt.free
  | _ => exact h

theorem boot_numbers {init : T} {d : Procs T} (h : Boot init d) : Numbers d := by
  obtain ⟨hs, -, hpid, hnext⟩ := h
  have hused : ∀ q, d.state q ≠ .unused → q = init := by
    intro q hq
    by_contra hqi
    rw [hs q, if_neg hqi] at hq
    exact hq rfl
  refine ⟨fun q hq => ?_, fun q r hq hr _ => (hused q hq).trans (hused r hr).symm⟩
  rw [hused q hq, hpid init, if_pos rfl, hnext]
  decide

/-- The pids, in every interleaving in which `nextpid` does not overflow. -/
theorem numbers (hall : ∀ t, t ∈ procs)
    (h : ((monitor procs init).guard counted).sys.Reachable s) : Numbers s.shared := by
  have hJ : Family init s.shared s.locs ∧ Numbers s.shared := by
    refine Monitor.view_invariant (monitor_private.guard counted)
      (J := fun d f => Family init d f ∧ Numbers d) ?_ ?_ ?_ h
    · intro d f hinit
      exact ⟨boot_family hinit, boot_numbers hinit.1⟩
    · rintro d f t i d' l' ⟨hF, hN⟩ ho
      obtain ⟨hc, ho⟩ := Monitor.guard_outside.mp ho
      exact ⟨hF.goes (outside_goes ho), hN.goes (hF.place t) (outside_goes ho) hc⟩
    · rintro d f t i o ⟨hF, hN⟩ halone ho
      exact ⟨hF.does hall halone (inside_does ho), hN.does (hF.place t) (inside_does ho)⟩
  exact hJ.2

/-- **No process is lost.**  In every interleaving of `kfork`, `kexit` and
`kwait`, every process, alive or a zombie, descends from `initproc` through
parents that are all alive; and as long as `nextpid` does not overflow, two
entries in use never have the same pid. -/
theorem descends_from_initproc (hall : ∀ t, t ∈ procs) :
    (∀ s, (monitor procs init).sys.Reachable s →
      ∀ q, s.shared.state q = .live ∨ s.shared.state q = .zombie →
        ReflTransGen (LiveChild s.shared) q init) ∧
    ∀ s, ((monitor procs init).guard counted).sys.Reachable s →
      ∀ q r, s.shared.state q ≠ .unused → s.shared.state r ≠ .unused →
        s.shared.pid q = s.shared.pid r → q = r :=
  ⟨fun _ h => (family hall h).table.descends, fun _ h => (numbers hall h).unique⟩

theorem descends_forkAndWait : ∃ s : St Bool (Loc Bool) (Procs Bool) Bool,
    ((monitor [false, true] true).guard counted).sys.Reachable s ∧ s.shared.state false = .live ∧
    ReflTransGen (LiveChild s.shared) false true ∧ s.shared.pid false ≠ s.shared.pid true := by
  obtain ⟨s, hs, hlive, hinit⟩ := Sys.exists_of_run ((monitor [false, true] true).guard counted).sys
    forkAndWait (p := fun s => s.shared.state false = .live ∧ s.shared.state true = .live)
    (.init boot_init) (by decide)
  obtain ⟨hdesc, hpid⟩ := @descends_from_initproc Bool _ true [false, true] (by decide)
  refine ⟨s, hs, hlive, hdesc s (Monitor.reachable_of_guard hs) false (.inl hlive), fun he => ?_⟩
  cases hpid s hs false true (by rw [hlive]; decide) (by rw [hinit]; decide) he

end Xv6.Procs
