/-
Runs of a pipe: what goes in comes out.

A run is logged: the calls the processes make, and the bytes that go into the
buffer and come out of it, each with the process that moves it.

* `Pipe.fifo_bytes` — the bytes that came out, followed by the at most 512 bytes
  between `nread` and `nwrite`, are the bytes that went in;
* `Pipe.returned` — what a call has returned is the number of bytes it moved:
  `pipewrite` moved the first bytes of the caller's buffer and stops short
  only where `copyin` fails;
* `Pipe.end_of_file` — `piperead` gives up with 0 only on an empty pipe whose
  write end is closed.
-/
import CshellXv6.Xv6.Pipe

namespace Xv6.Pipe

open Monitor (Out St)

/-- What happens in a pipe. -/
inductive What where
  | call (c : Call)
  | put (ch : UInt8)
  | got (ch : UInt8)

variable {T : Type}

/-- The bytes that a step of the holder moves, read off the counters. -/
def moved (p p' : Pipe) : List What :=
  if p'.nwrite ≠ p.nwrite then [.put (p'.data (p.nwrite % PIPESIZE).toNat)]
  else if p'.nread ≠ p.nread then [.got p.next]
  else []

/-- The events of one step of process `t`. -/
def ev (t : T) (l : Loc) (p : Pipe) (i : Input) : List (T × What) :=
  match i with
  | .call c => [(t, .call c)]
  | .killed _ =>
    match inside l p i with
    | some o => (moved p o.shared).map (Prod.mk t)
    | none => []

/-- The bytes that went in, in order; the log has the latest event first. -/
def putBytes : List (T × What) → List UInt8
  | [] => []
  | (_, .put ch) :: e => putBytes e ++ [ch]
  | _ :: e => putBytes e

/-- The bytes that came out, in order. -/
def gotBytes : List (T × What) → List UInt8
  | [] => []
  | (_, .got ch) :: e => gotBytes e ++ [ch]
  | _ :: e => gotBytes e

/-- The bytes in the buffer, from `nread` up to `nwrite`. -/
def contents (p : Pipe) : List UInt8 :=
  (List.range (p.nwrite - p.nread).toNat).map fun i => p.data ((p.nread.toNat + i) % 512)

variable {p p' : Pipe} {xs : List UInt8}

/-- The buffer determines what it holds. -/
theorem Stores.eq_contents (h : Stores p xs) : xs = contents p := by
  refine List.ext_getElem (by simp [contents, CounterRing.Stores.length_eq h]) fun i hi hi' => ?_
  have hslot := h.slots i hi
  rw [List.getElem?_eq_getElem hi, Option.some_inj] at hslot
  have hn : (((p.nread.toNat : ℤ) + i) % (PIPESIZE.toNat : ℕ)).toNat =
      (p.nread.toNat + i) % 512 := by
    show (((p.nread.toNat : ℤ) + i) % 512).toNat = _
    omega
  rw [hn] at hslot
  simp [contents, hslot]

theorem add_one_ne (a : UInt32) : a + 1 ≠ a := by
  intro h
  simp at h

/-- What a step moves, case by case. -/
theorem moved_put (ch : UInt8) : moved p (p.put ch) = [.put ch] := by
  have hne : (p.put ch).nwrite ≠ p.nwrite := add_one_ne p.nwrite
  rw [moved, if_pos hne]
  simp [put]

theorem moved_got : moved p { p with nread := p.nread + 1 } = [.got p.next] := by
  simp [moved]

theorem moved_same (hr : p'.nread = p.nread) (hw : p'.nwrite = p.nwrite) : moved p p' = [] := by
  simp [moved, hr, hw]

/-- One step of the holder, on the queue and on the two histories. -/
theorem Effect.fifo (h : Effect p p') (hs : Stores p xs) {e : List (T × What)} (t : T)
    (he : putBytes e = gotBytes e ++ xs) :
    ∃ ys, Stores p' ys ∧ putBytes ((moved p p').map (Prod.mk t) ++ e) =
      gotBytes ((moved p p').map (Prod.mk t) ++ e) ++ ys := by
  cases h with
  | same hd hr hw =>
    refine ⟨xs, ⟨hs.room, by rw [hr, hw]; exact hs.count, by rw [hd, hr]; exact hs.slots⟩, ?_⟩
    rw [moved_same hr hw]
    exact he
  | put ch hfull =>
    refine ⟨xs ++ [ch], hs.put hfull ch, ?_⟩
    rw [moved_put]
    simp [putBytes, gotBytes, he]
  | got hne =>
    obtain ⟨ys, rfl, hys⟩ := hs.got hne
    refine ⟨ys, hys, ?_⟩
    rw [moved_got]
    simp [putBytes, gotBytes, he]

/-- The local states behind `acquire`. -/
def mid : Loc → Bool
  | .writing _ _ _ | .full _ _ _ | .wrote _ | .reading _ _ _ | .didRead _ | .leaving _
  | .closing => true
  | .idle | .write _ _ _ | .read _ _ | .close _ | .ret _ | .closed _ => false

theorem start_mid (c : Call) : mid c.start = false := by
  cases c <;> rfl

variable {procs : List T}

theorem monitor_private : Monitor.Private (monitor procs) mid where
  init h t := by rw [h.2 t]; rfl
  outside h := by
    obtain ⟨-, c, -, rfl⟩ := outside_shared h
    exact start_mid c
  leave h := by
    obtain ⟨k, -, hd⟩ := inside_does h
    cases hd <;> rfl
  wait h := by
    obtain ⟨k, -, hd⟩ := inside_does h
    cases hd <;> rfl

variable [DecidableEq T]

/-- The runs of a pipe with their events. -/
def runs (procs : List T) : Sys (St T Loc Pipe Chan × List (T × What)) (Monitor.Act T Input) :=
  (monitor procs).sys.logged (Monitor.events ev)

omit [DecidableEq T] in
theorem ev_inside {t : T} {l : Loc} {i : Input} {o : Out Pipe Loc Chan} (h : inside l p i = some o) :
    ev t l p i = (moved p o.shared).map (Prod.mk t) := by
  obtain ⟨k, rfl, -⟩ := inside_does h
  simp only [ev, h]

/-- **First in, first out.**  However readers, writers and closers take turns,
and however often the 32-bit counters have wrapped around: the bytes that came
out, followed by those in the buffer, are the bytes that went in, and the
buffer never holds more than 512. -/
theorem fifo_bytes {x : St T Loc Pipe Chan × List (T × What)} (h : (runs procs).Reachable x) :
    putBytes x.2 = gotBytes x.2 ++ contents x.1.shared ∧ (contents x.1.shared).length ≤ 512 := by
  have hJ : ∃ xs, Stores x.1.shared xs ∧ putBytes x.2 = gotBytes x.2 ++ xs := by
    refine Monitor.logged_view_invariant monitor_private
      (J := fun p _ e => ∃ xs, Stores p xs ∧ putBytes e = gotBytes e ++ xs) ?_ ?_ ?_ h
    · rintro p f ⟨⟨hr, hw, -⟩, -⟩
      exact ⟨[], .nil hr hw, rfl⟩
    · rintro p f e t i p' l' hJ ho
      obtain ⟨rfl, c, rfl, -⟩ := outside_shared ho
      exact hJ
    · rintro p f e t i o ⟨xs, hs, he⟩ - ho
      obtain ⟨k, -, hd⟩ := inside_does ho
      rw [ev_inside ho]
      exact hd.effect.fifo hs t he
  obtain ⟨xs, hs, he⟩ := hJ
  obtain rfl := hs.eq_contents
  exact ⟨he, hs.room⟩

/-! ### What a call has done -/

/-- The last call of process `t`. -/
def callOf (t : T) : List (T × What) → Option Call
  | [] => none
  | (u, .call c) :: e => if u = t then some c else callOf t e
  | (_, .put _) :: e | (_, .got _) :: e => callOf t e

/-- The bytes that process `t` has moved since its last call. -/
def bytesOf (t : T) : List (T × What) → List UInt8
  | [] => []
  | (u, .call _) :: e => if u = t then [] else bytesOf t e
  | (u, .put ch) :: e | (u, .got ch) :: e => if u = t then bytesOf t e ++ [ch] else bytesOf t e

/-- `pipewrite` that returns `r` has moved the first `r` bytes of the caller's
buffer; these are all, unless `copyin` failed there. -/
def Wrote (src : ℕ → Option UInt8) (n : ℤ) (bs : List UInt8) (r : ℤ) : Prop :=
  0 ≤ r → bs.map some = (List.range r.toNat).map src ∧ (r = max n 0 ∨ src r.toNat = none)

/-- `piperead` that returns `r` has moved `r` bytes. -/
def Took (n : ℤ) (bs : List UInt8) (r : ℤ) : Prop :=
  0 ≤ r → bs.length = r ∧ r ≤ max n 0

/-- What is known at each place: `c` is the call, `bs` the bytes it has moved
so far. -/
def Account (p : Pipe) (c : Option Call) (bs : List UInt8) : Loc → Prop
  | .write src n i | .writing src n i | .full src n i =>
    c = some (.pipewrite src n) ∧ bs.map some = (List.range i).map src ∧ (i : ℤ) ≤ max n 0
  | .wrote r => ∃ src n, c = some (.pipewrite src n) ∧ Wrote src n bs r
  | .read dst n => c = some (.piperead dst n) ∧ bs = []
  | .reading dst n i => c = some (.piperead dst n) ∧ bs.length = i ∧ (i : ℤ) ≤ max n 0 ∧
      (i = 0 → p.nread ≠ p.nwrite ∨ p.writeopen = false)
  | .didRead r => ∃ dst n, c = some (.piperead dst n) ∧ Took n bs r ∧
      (r = 0 → 0 < n → p.nread = p.nwrite ∧ p.writeopen = false)
  | .leaving r | .ret r => (∃ src n, c = some (.pipewrite src n) ∧ Wrote src n bs r) ∨
      ∃ dst n, c = some (.piperead dst n) ∧ Took n bs r
  | .close w => c = some (.pipeclose w)
  | .closing | .closed _ => ∃ w, c = some (.pipeclose w)
  | .idle => True

/-- A process that is not inside knows nothing about the buffer. -/
theorem Account.frame {c : Option Call} {bs : List UInt8} {l : Loc} (h : Account p c bs l)
    (hl : mid l = false) (p' : Pipe) : Account p' c bs l := by
  cases l with
  | reading dst n i => cases hl
  | didRead r => cases hl
  | _ => exact h

theorem Account.head {c : Option Call} {bs : List UInt8} {l : Loc} {src : ℕ → Option UInt8} {n : ℤ}
    {i : ℕ} (hl : l.Head src n i) (h : Account p c bs l) :
    c = some (.pipewrite src n) ∧ bs.map some = (List.range i).map src ∧ (i : ℤ) ≤ max n 0 := by
  obtain rfl | rfl := hl
  · exact h
  · exact h

theorem wrote_neg (src : ℕ → Option UInt8) (n : ℤ) (bs : List UInt8) : Wrote src n bs (-1) :=
  fun h => absurd h (by decide)

theorem took_neg (n : ℤ) (bs : List UInt8) : Took n bs (-1) :=
  fun h => absurd h (by decide)

/-- The bytes of a step. -/
def What.byte : What → Option UInt8
  | call _ => none
  | put ch | got ch => some ch

/-- The holder's step keeps its account. -/
theorem Does.account {k : Bool} {l : Loc} {o : Out Pipe Loc Chan} (h : Does p k l o)
    {c : Option Call} {bs : List UInt8} (ha : Account p c bs l) :
    Account o.shared c (bs ++ (moved p o.shared).filterMap What.byte) o.loc := by
  have hsame : bs ++ (moved p p).filterMap What.byte = bs := by simp [moved]
  cases h with
  | refuse hl hi _ =>
    obtain ⟨hc, -, -⟩ := ha.head hl
    exact .inl ⟨_, _, hc, wrote_neg _ _ _⟩
  | full hl hi _ _ =>
    obtain ⟨hc, hb, hle⟩ := ha.head hl
    rw [Out.shared, hsame]
    exact ⟨hc, hb, hle⟩
  | @fault l src n i hl hi hsrc =>
    obtain ⟨hc, hb, -⟩ := ha.head hl
    rw [Out.shared, hsame]
    refine ⟨src, n, hc, fun hr => ?_⟩
    -- -1 is returned when nothing was written before
    split at hr
    · exact absurd hr (by decide)
    · rename_i hi0
      rw [if_neg hi0]
      exact ⟨hb, .inr hsrc⟩
  | @put l src n i ch hl hi _ hsrc =>
    obtain ⟨hc, hb, hle⟩ := ha.head hl
    rw [Out.shared, moved_put]
    refine ⟨hc, ?_, by push_cast; omega⟩
    simp [What.byte, List.range_succ, hb, hsrc]
  | @done l src n i hl hi =>
    obtain ⟨hc, hb, hle⟩ := ha.head hl
    rw [Out.shared, hsame]
    exact ⟨src, n, hc, fun _ => ⟨hb, .inl (by omega)⟩⟩
  | waitRoom =>
    rw [Out.shared, hsame]
    exact ha
  | wrote =>
    rw [Out.shared, hsame]
    exact .inl ha
  | giveUp _ =>
    exact .inr ⟨_, _, ha.1, took_neg _ _⟩
  | waitByte _ _ _ =>
    rw [Out.shared, hsame]
    exact ha
  | enter he =>
    obtain ⟨hc, rfl⟩ := ha
    rw [Out.shared, hsame]
    exact ⟨hc, rfl, by simp, fun _ => he⟩
  | @empty dst n i hi he =>
    obtain ⟨hc, hb, hle, hne⟩ := ha
    rw [Out.shared, hsame]
    -- nothing was taken, so the loop was entered with the write end closed
    refine ⟨dst, n, hc, fun _ => ⟨by rw [hb], hle⟩, fun h0 _ => ⟨he, ?_⟩⟩
    exact (hne (by exact_mod_cast h0)).resolve_left (by simpa using he)
  | @got dst n i hi _ _ =>
    obtain ⟨hc, hb, hle, -⟩ := ha
    rw [Out.shared, moved_got]
    exact ⟨hc, by simp [What.byte, hb], by push_cast; omega, by simp⟩
  | @noRoom dst n i hi _ =>
    obtain ⟨hc, hb, hle, -⟩ := ha
    rw [Out.shared, hsame]
    refine ⟨dst, n, hc, ?_, ?_⟩
    · split
      · exact took_neg _ _
      · exact fun _ => ⟨by rw [hb], hle⟩
    · intro h0
      split at h0
      · exact absurd h0 (by decide)
      · rename_i hi0
        exact absurd (by exact_mod_cast h0) hi0
  | @filled dst n i hi =>
    obtain ⟨hc, hb, hle, -⟩ := ha
    rw [Out.shared, hsame]
    refine ⟨dst, n, hc, fun _ => ⟨by rw [hb], hle⟩, fun h0 hn => ?_⟩
    omega
  | didRead =>
    obtain ⟨dst, n, hc, ht, -⟩ := ha
    rw [Out.shared, hsame]
    exact .inr ⟨dst, n, hc, ht⟩
  | leaving =>
    rw [Out.shared, hsame]
    exact ha
  | closeWrite => exact ⟨_, ha⟩
  | closeRead => exact ⟨_, ha⟩
  | closing => exact ha

/-- The bytes of a step are put to the account of the process that takes it. -/
theorem log_moved (t u : T) (e : List (T × What)) :
    callOf u ((moved p p').map (Prod.mk t) ++ e) = callOf u e ∧
    bytesOf u ((moved p p').map (Prod.mk t) ++ e) =
      bytesOf u e ++ if u = t then (moved p p').filterMap What.byte else [] := by
  unfold moved
  split
  · refine ⟨rfl, ?_⟩
    by_cases hu : u = t
    · simp [bytesOf, What.byte, hu]
    · simp [bytesOf, hu, Ne.symm hu]
  · split
    · refine ⟨rfl, ?_⟩
      by_cases hu : u = t
      · simp [bytesOf, What.byte, hu]
      · simp [bytesOf, hu, Ne.symm hu]
    · simp

/-- In every run, every process is at a place that agrees with its account. -/
theorem account {x : St T Loc Pipe Chan × List (T × What)} (h : (runs procs).Reachable x) (t : T) :
    Account x.1.shared (callOf t x.2) (bytesOf t x.2) (x.1.locs t) := by
  refine Monitor.logged_view_invariant monitor_private
    (J := fun p f e => ∀ t, Account p (callOf t e) (bytesOf t e) (f t)) ?_ ?_ ?_ h t
  · rintro p f ⟨-, hidle⟩ t
    rw [hidle t]
    trivial
  · rintro p f e t i p' l' hJ ho u
    obtain ⟨rfl, c, rfl, rfl⟩ := outside_shared ho
    by_cases hu : u = t
    · subst hu
      cases c with
      | pipewrite src n => simp [ev, callOf, bytesOf, Call.start, Account]
      | piperead dst n => simp [ev, callOf, bytesOf, Call.start, Account]
      | pipeclose w => simp [ev, callOf, Call.start, Account]
    · simpa [ev, callOf, bytesOf, hu, Ne.symm hu] using hJ u
  · rintro p f e t i o hJ hmid ho u
    obtain ⟨k, -, hd⟩ := inside_does ho
    rw [ev_inside ho, (log_moved t u e).1, (log_moved t u e).2]
    by_cases hu : u = t
    · subst hu
      simpa using hd.account (hJ u)
    · simpa [hu] using (hJ u).frame (hmid u hu) o.shared

/-- A writer puts two bytes, and a reader takes one of them. -/
def oneOfTwo : List (Monitor.Act Bool Input) :=
  [.outside true (.call (.pipewrite (fun i => some (65 + .ofNat i)) 2)), .acquire true] ++
    List.replicate 4 (.inside true (.killed false)) ++ List.replicate 3 (.scan true) ++
    [.inside true (.killed false), .outside false (.call (.piperead (fun _ => true) 1)),
    .acquire false, .inside false (.killed false), .inside false (.killed false),
    .inside false (.killed false), .inside false (.killed false)] ++
    List.replicate 3 (.scan false) ++ [.inside false (.killed false)]

theorem fifo_two : ∃ x : St Bool Loc Pipe Chan × List (Bool × What),
    (runs [false, true]).Reachable x ∧ putBytes x.2 = [65, 66] ∧ gotBytes x.2 = [65] ∧
    putBytes x.2 = gotBytes x.2 ++ contents x.1.shared ∧ (contents x.1.shared).length ≤ 512 := by
  obtain ⟨x, hx, hput, hgot⟩ := Sys.exists_of_run (runs [false, true]) oneOfTwo
    (p := fun x => putBytes x.2 = [65, 66] ∧ gotBytes x.2 = [65])
    (.init (show (runs [false, true]).init (start, []) from ⟨start_init, rfl⟩)) (by decide)
  exact ⟨x, hx, hput, hgot, fifo_bytes hx⟩

/-- **What a call returns is what it moved.**  In every run, a process whose
call has returned `r ≥ 0` has moved exactly `r` bytes in it: for `pipewrite`,
the first `r` of its buffer, and `r` is less than asked for only where
`copyin` failed; for `piperead`, at most as many as asked for. -/
theorem returned {x : St T Loc Pipe Chan × List (T × What)} (h : (runs procs).Reachable x) {t : T}
    {r : ℤ} (hr : x.1.locs t = .ret r) (h0 : 0 ≤ r) :
    (∃ src n, callOf t x.2 = some (.pipewrite src n) ∧
      (bytesOf t x.2).map some = (List.range r.toNat).map src ∧
      (r = max n 0 ∨ src r.toNat = none)) ∨
    ∃ dst n, callOf t x.2 = some (.piperead dst n) ∧ (bytesOf t x.2).length = r ∧ r ≤ max n 0 := by
  have ha := account h t
  rw [hr] at ha
  obtain ⟨src, n, hc, hw⟩ | ⟨dst, n, hc, ht⟩ := ha
  · exact .inl ⟨src, n, hc, hw h0⟩
  · exact .inr ⟨dst, n, hc, ht h0⟩

theorem returned_one : ∃ x : St Bool Loc Pipe Chan × List (Bool × What),
    (runs [false, true]).Reachable x ∧
    ((∃ src n, callOf false x.2 = some (.pipewrite src n) ∧
      (bytesOf false x.2).map some = (List.range (1 : ℤ).toNat).map src ∧
      (1 = max n 0 ∨ src (1 : ℤ).toNat = none)) ∨
    ∃ dst n, callOf false x.2 = some (.piperead dst n) ∧ (bytesOf false x.2).length = (1 : ℤ) ∧
      1 ≤ max n 0) := by
  obtain ⟨x, hx, hloc⟩ := Sys.exists_of_run (runs [false, true]) oneOfTwo
    (p := fun x => (match x.1.locs false with | .ret r => r == 1 | _ => false) = true)
    (.init (show (runs [false, true]).init (start, []) from ⟨start_init, rfl⟩)) (by decide)
  split at hloc
  · rename_i r hr
    rw [beq_iff_eq] at hloc
    subst hloc
    exact ⟨x, hx, returned hx hr (by decide)⟩
  · cases hloc

/-- **End of file.**  A reader that asked for bytes and is about to return 0
has found the pipe empty with its write end closed. -/
theorem end_of_file {x : St T Loc Pipe Chan × List (T × What)} (h : (runs procs).Reachable x)
    {t : T} (hr : x.1.locs t = .didRead 0) :
    ∃ dst n, callOf t x.2 = some (.piperead dst n) ∧
      (0 < n → contents x.1.shared = [] ∧ x.1.shared.writeopen = false) := by
  have ha := account h t
  rw [hr] at ha
  obtain ⟨dst, n, hc, -, heof⟩ := ha
  refine ⟨dst, n, hc, fun hn => ?_⟩
  obtain ⟨he, hw⟩ := heof rfl hn
  exact ⟨by simp [contents, he], hw⟩

/-- The writer closes its end, and the reader comes. -/
def closedEnd : List (Monitor.Act Bool Input) :=
  [.outside true (.call (.pipeclose true)), .acquire true, .inside true (.killed false)] ++
    List.replicate 3 (.scan true) ++
    [.inside true (.killed false), .outside false (.call (.piperead (fun _ => true) 1)),
    .acquire false, .inside false (.killed false), .inside false (.killed false)]

theorem end_of_file_closed : ∃ x : St Bool Loc Pipe Chan × List (Bool × What),
    (runs [false, true]).Reachable x ∧ ∃ dst n, callOf false x.2 = some (.piperead dst n) ∧
      (0 < n → contents x.1.shared = [] ∧ x.1.shared.writeopen = false) := by
  obtain ⟨x, hx, hloc⟩ := Sys.exists_of_run (runs [false, true]) closedEnd
    (p := fun x => (match x.1.locs false with | .didRead r => r == 0 | _ => false) = true)
    (.init (show (runs [false, true]).init (start, []) from ⟨start_init, rfl⟩)) (by decide)
  split at hloc
  · rename_i r hr
    rw [beq_iff_eq] at hloc
    subst hloc
    exact ⟨x, hx, end_of_file hx hr⟩
  · cases hloc

end Xv6.Pipe
