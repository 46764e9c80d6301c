/-
Runs of the console: lines come in, are edited, and are read.

A run is logged: the calls that are made, the keys that `consoleintr` is
through with, and the bytes that readers take out of the ring.

* `Cons.refines_tty` — the ring and its three counters are the two lists that
  the keys and the readers make of an empty terminal;
* `Cons.echo_shows` — the cursor stands behind the bytes that were taken, those
  that are ready and the line that is being edited; what was handed over to the
  readers stays where it is for the rest of the run;
* `Cons.read_line` — a read ends with its line: what it returns has no end of
  file in it and nothing behind a newline;
* `Cons.readers_sleep` — a reader sleeps only while nothing is ready.
-/
import CshellXv6.Xv6.Console

namespace Xv6.Cons

open Monitor (Out St)

/-- What happens at the console. -/
inductive What where
  | call (c : Call)
  | key (c : UInt8)
  | took (c : UInt8)
  | eof

variable {T : Type} {s s' : Cons} {t : Tty} {k : Bool} {l : Loc} {o : Out Cons Loc Chan}

/-- The key that `consoleintr` is through with, going from one place to the
next. -/
def heard : Loc → Loc → List What
  | .intr _, .killing | .killing, .killing => []
  | .intr c, _ => [.key c]
  | .killing, _ => [.key (C 'U')]
  | _, _ => []

/-- The byte that a reader takes out of the ring. -/
def taken (s s' : Cons) : List What :=
  if s'.r ≠ s.r then [.took s.next] else []

/-- The end of file that a reader finds. -/
def found (s : Cons) : Loc → List What
  | .read _ n bs => if bs.length < n ∧ s.r ≠ s.w ∧ s.next = C 'D' then [.eof] else []
  | _ => []

/-- The events of one step of caller `u`. -/
def ev (u : T) (l : Loc) (s : Cons) (i : Input) : List (T × What) :=
  match i with
  | .call c => [(u, .call c)]
  | .killed _ =>
    match inside l s i with
    | some o => (heard l o.loc ++ found s l ++ taken s o.shared).map (Prod.mk u)
    | none => []

/-- The runs of the console with their events. -/
def runs [DecidableEq T] (procs : List T) :
    Sys (St T Loc Cons Chan × List (T × What)) (Monitor.Act T Input) :=
  (monitor procs).sys.logged (Monitor.events ev)

/-- The terminal after the keys and the reads of a log, whose latest event
comes first. -/
def tty : List (T × What) → Tty
  | [] => ⟨[], []⟩
  | (_, .key c) :: e => (tty e).type c
  | (_, .took _) :: e => { tty e with queue := (tty e).queue.tail }
  | (_, .call _) :: e | (_, .eof) :: e => tty e

/-- The bytes that readers took, in order. -/
def tookBytes : List (T × What) → List UInt8
  | [] => []
  | (_, .took c) :: e => tookBytes e ++ [c]
  | (_, .key _) :: e | (_, .call _) :: e | (_, .eof) :: e => tookBytes e

/-- The bytes handed over to the readers, taken or still ready. -/
def handed (e : List (T × What)) : List UInt8 := tookBytes e ++ (tty e).queue

/-! ### A screen -/

/-- The cells of a screen on both sides of the cursor. -/
structure Screen where
  before : List UInt8
  after : List UInt8
  deriving DecidableEq

/-- A byte is written over the cell at the cursor; the control character
backspace moves the cursor to the left. -/
def Screen.feed (v : Screen) (c : UInt8) : Screen :=
  if c = '\x08'.toUInt8 then
    match v.before.getLast? with
    | some d => ⟨v.before.dropLast, d :: v.after⟩
    | none => v
  else ⟨v.before ++ [c], v.after.tail⟩

/-- The screen after the bytes that were sent to it. -/
def shown (bs : List UInt8) : Screen := bs.foldl Screen.feed ⟨[], []⟩

/-- The screen shows `xs` in front of the cursor and nothing behind it. -/
def Shows (bs xs : List UInt8) : Prop :=
  (shown bs).before = xs ∧ ∀ c ∈ (shown bs).after, c = ' '.toUInt8

variable {bs xs : List UInt8} {c : UInt8}

theorem shown_append (bs ys : List UInt8) : shown (bs ++ ys) = ys.foldl Screen.feed (shown bs) := by
  rw [shown, List.foldl_append]
  rfl

/-- A byte other than backspace appears. -/
theorem Shows.put (h : Shows bs xs) (hc : c ≠ '\x08'.toUInt8) : Shows (bs ++ [c]) (xs ++ [c]) := by
  obtain ⟨rfl, hafter⟩ := h
  rw [Shows, shown_append, List.foldl_cons, List.foldl_nil, Screen.feed, if_neg hc]
  exact ⟨rfl, fun d hd => hafter d (List.mem_of_mem_tail hd)⟩

/-- `BACKSPACE` blanks out the last byte. -/
theorem Shows.erase (h : Shows bs (xs ++ [c])) :
    Shows (bs ++ ['\x08'.toUInt8, ' '.toUInt8, '\x08'.toUInt8]) xs := by
  obtain ⟨hbefore, hafter⟩ := h
  rw [Shows, shown_append]
  have hfeed : ['\x08'.toUInt8, ' '.toUInt8, '\x08'.toUInt8].foldl Screen.feed (shown bs) =
      ⟨xs, ' '.toUInt8 :: (shown bs).after⟩ := by
    have hback : (shown bs).feed '\x08'.toUInt8 = ⟨xs, c :: (shown bs).after⟩ := by
      rw [Screen.feed, if_pos rfl, hbefore]
      simp
    have hblank : Screen.feed ⟨xs, c :: (shown bs).after⟩ ' '.toUInt8 =
        ⟨xs ++ [' '.toUInt8], (shown bs).after⟩ := by
      rw [Screen.feed, if_neg (by decide)]
      rfl
    have hagain : Screen.feed ⟨xs ++ [' '.toUInt8], (shown bs).after⟩ '\x08'.toUInt8 =
        ⟨xs, ' '.toUInt8 :: (shown bs).after⟩ := by
      rw [Screen.feed, if_pos rfl]
      simp
    rw [List.foldl_cons, List.foldl_cons, List.foldl_cons, List.foldl_nil, hback, hblank, hagain]
  rw [hfeed]
  refine ⟨rfl, fun d hd => ?_⟩
  obtain rfl | hd := List.mem_cons.mp hd
  · rfl
  · exact hafter d hd

theorem Shows.erase_of {ys zs : List UInt8} (h : Shows bs (xs ++ (ys ++ zs))) {zs' : List UInt8}
    (hz : zs = zs' ++ [c]) :
    Shows (bs ++ ['\x08'.toUInt8, ' '.toUInt8, '\x08'.toUInt8]) (xs ++ (ys ++ zs')) := by
  rw [hz, ← List.append_assoc, ← List.append_assoc] at h
  rw [← List.append_assoc]
  exact h.erase

/-! ### The keys, one by one -/

theorem cooked_ne_backspace (hc : Typed c) : cooked c ≠ '\x08'.toUInt8 := by
  unfold cooked
  split
  · decide
  · exact fun h => hc.2.2.1 (.inl h)

/-- The keys that change nothing on the ring change nothing on the terminal. -/
theorem type_ignored (h : Rep s t) (hc : Ignored s c) : t.type c = t := by
  unfold Tty.type
  split
  · rfl
  · rename_i hP
    obtain hP' | ⟨hH, he⟩ | ⟨hU, hH, hroom⟩ := hc
    · exact absurd hP' hP
    · have hU : c ≠ C 'U' := by
        obtain rfl | rfl := hH <;> decide
      have hnil : t.edit = [] := h.edit.eq_nil_iff.mp he.symm
      rw [if_neg hU, if_pos hH, hnil]
      obtain ⟨q, ed⟩ := t
      obtain rfl := hnil
      rfl
    · have hfull : c = 0 ∨ 128 ≤ t.queue.length + t.edit.length := by
        refine hroom.imp id fun hr => ?_
        rw [h.length_lt_iff] at hr
        omega
      rw [if_neg hU, if_neg hH, if_pos hfull]

theorem type_rubout (hc : c = C 'H' ∨ c = '\x7f'.toUInt8) :
    t.type c = { t with edit := t.edit.dropLast } := by
  have hP : c ≠ C 'P' := by obtain rfl | rfl := hc <;> decide
  have hU : c ≠ C 'U' := by obtain rfl | rfl := hc <;> decide
  rw [Tty.type, if_neg hP, if_neg hU, if_pos hc]

/-- A byte that is stored, with or without handing the line over. -/
theorem type_typed (h : Rep s t) (hc : Typed c) (hlt : s.e - s.r < INPUT_BUF_SIZE) :
    (Ends s c → t.type c = ⟨t.queue ++ (t.edit ++ [cooked c]), []⟩) ∧
      (¬ Ends s c → t.type c = { t with edit := t.edit ++ [cooked c] }) := by
  obtain ⟨hP, hU, hH, h0⟩ := hc
  have hroom : ¬ (c = 0 ∨ 128 ≤ t.queue.length + t.edit.length) := by
    have := h.length_lt_iff.mp hlt
    rintro (hc | hc)
    · exact h0 hc
    · omega
  have hends : Ends s c ↔ (cooked c = '\n'.toUInt8 ∨ cooked c = C 'D' ∨
      t.queue.length + (t.edit ++ [cooked c]).length = 128) := by
    rw [Ends, h.full_iff hlt]
  rw [Tty.type, if_neg hP, if_neg hU, if_neg hH, if_neg hroom, hends]
  exact ⟨fun he => if_pos he, fun he => if_neg he⟩

/-! ### The ring and the screen over a run -/

/-- The local states behind `acquire` in which the ring is not what the keys
make of it. -/
def mid : Loc → Bool
  | .killing | .stored => true
  | .idle | .read _ _ _ | .ret _ _ | .intr _ | .done => false

variable {procs : List T}

theorem monitor_private : Monitor.Private (monitor procs) mid where
  init h t := by rw [h.2 t]; rfl
  outside h := by
    obtain ⟨-, c, -, rfl⟩ := outside_shared h
    cases c <;> rfl
  leave h := by
    obtain ⟨k, -, hd⟩ := inside_does h
    cases hd <;> rfl
  wait h := by
    obtain ⟨k, -, hd⟩ := inside_does h
    cases hd
    rfl

variable {u : T} {f : T → Loc} {e : List (T × What)}

theorem ev_inside {i : Input} (h : inside l s i = some o) :
    ev u l s i = (heard l o.loc ++ found s l ++ taken s o.shared).map (Prod.mk u) := by
  obtain ⟨k, rfl, -⟩ := inside_does h
  simp only [ev, h]

/-- The two lists are those of the terminal; while a line is being killed, only
the part of it that is left is there. -/
structure Line (s : Cons) (f : T → Loc) (e : List (T × What)) (ed : List UInt8) : Prop where
  rep : Rep s { tty e with edit := ed }
  edit : ed = (tty e).edit ∨ ∃ u, f u = .killing
  screen : Shows s.uart (tookBytes e ++ ((tty e).queue ++ ed))

theorem taken_same (h : s'.r = s.r) : taken s s' = [] := by
  simp [taken, h]

theorem taken_take : taken s s.take = [.took s.next] := by
  simp [taken, take]

/-- Calls and ends of file do not move the terminal. -/
theorem Line.congr {e' : List (T × What)} {ed : List UInt8} (h : Line s f e ed)
    (ht : tty e' = tty e) (hb : tookBytes e' = tookBytes e) : Line s f e' ed :=
  ⟨by rw [ht]; exact h.rep, by rw [ht]; exact h.edit, by rw [ht, hb]; exact h.screen⟩

/-- What a reader does, as an event of the terminal. -/
theorem Line.read {dst : ℕ → Bool} {n : ℤ} {l' : Loc} {ed : List UInt8}
    (h : Line s' f ((taken s s').map (Prod.mk u) ++ e) ed) :
    Line s' f ((heard (.read dst n bs) l' ++ found s (.read dst n bs) ++ taken s s').map
      (Prod.mk u) ++ e) ed := by
  simp only [heard, found, List.nil_append]
  split
  · exact h.congr rfl rfl
  · exact h

/-- What `consoleintr` does, as an event of the terminal. -/
theorem intr_events (u : T) (c : UInt8) (e : List (T × What)) (s s' : Cons) (h : s'.r = s.r) :
    (heard (.intr c) .done ++ found s (.intr c) ++ taken s s').map (Prod.mk u) ++ e =
      (u, .key c) :: e := by
  rw [taken_same h]
  rfl

theorem Loc.Kills.events (hl : l.Kills) (u : T) (e : List (T × What)) (s s' : Cons)
    (h : s'.r = s.r) :
    (heard l .killing ++ found s l ++ taken s s').map (Prod.mk u) ++ e = e ∧
    (heard l .done ++ found s l ++ taken s s').map (Prod.mk u) ++ e = (u, .key (C 'U')) :: e := by
  rw [taken_same h]
  obtain rfl | rfl := hl
  · exact ⟨rfl, rfl⟩
  · exact ⟨rfl, rfl⟩

variable [DecidableEq T] {ed : List UInt8}

/-- The reader takes a byte. -/
theorem Line.take (h : Line s f e ed) (hne : s.r ≠ s.w) (hed : ed = (tty e).edit) (l' : Loc) :
    Line s.take (Function.update f u l') ((taken s s.take).map (Prod.mk u) ++ e) ed := by
  obtain ⟨q, hq, hrep⟩ := h.rep.take hne
  have hqueue : (tty e).queue = s.next :: q := hq
  have htty : tty ((u, .took s.next) :: e) = { tty e with queue := q } := by
    rw [tty, hqueue]
    rfl
  rw [taken_take]
  refine ⟨?_, .inl ?_, ?_⟩
  · simp only [List.map_cons, List.map_nil, List.singleton_append, htty]
    exact hrep
  · simp only [List.map_cons, List.map_nil, List.singleton_append, htty]
    exact hed
  · have hscreen := h.screen
    rw [hqueue] at hscreen
    simp only [List.map_cons, List.map_nil, List.singleton_append, htty, tookBytes]
    rw [List.append_assoc]
    exact hscreen

/-- The handler is through with a key. -/
theorem Line.key {l' : Loc} (ht : (tty e).type c = t) (hrep : Rep s t)
    (hscreen : Shows s.uart (tookBytes e ++ (t.queue ++ t.edit))) :
    Line s (Function.update f u l') ((u, .key c) :: e) t.edit := by
  have htty : tty ((u, .key c) :: e) = t := ht
  refine ⟨?_, .inl ?_, ?_⟩
  · rw [htty]
    exact hrep
  · rw [htty]
  · rw [htty]
    exact hscreen

/-- Nobody else is killing the line. -/
theorem Line.edit_of_ne (h : Line s f e ed) (hmid : ∀ v, v ≠ u → mid (f v) = false)
    (hne : f u ≠ .killing) : ed = (tty e).edit := by
  refine h.edit.resolve_right ?_
  rintro ⟨v, hv⟩
  by_cases hvu : v = u
  · subst hvu
    exact hne hv
  · have := hmid v hvu
    rw [hv] at this
    cases this

/-- The step of the holder, on the ring, the terminal and the screen. -/
theorem Does.keeps_line (h : Does s k l o) (hl : f u = l)
    (hmid : ∀ v, v ≠ u → mid (f v) = false) (hline : Line s f e ed) :
    ∃ ed', Line o.shared (Function.update f u o.loc)
      ((heard l o.loc ++ found s l ++ taken s o.shared).map (Prod.mk u) ++ e) ed' := by
  have hed : l ≠ .killing → ed = (tty e).edit := fun hne =>
    hline.edit_of_ne hmid (by rw [hl]; exact hne)
  -- a reader that takes nothing, and one that takes a byte
  have hstay : ∀ {l' : Loc}, l ≠ .killing →
      Line s (Function.update f u l') ((taken s s).map (Prod.mk u) ++ e) ed := by
    intro l' hne
    rw [taken_same rfl]
    exact ⟨hline.rep, .inl (hed hne), hline.screen⟩
  cases h with
  | asked _ => exact ⟨ed, (hstay (by simp)).read⟩
  | giveUp _ _ => exact ⟨ed, (hstay (by simp)).read⟩
  | wait _ => exact ⟨ed, (hstay (by simp)).read⟩
  | eof _ hne _ =>
    refine ⟨ed, Line.read ?_⟩
    simp only [Out.shared]
    split
    · exact hstay (by simp)
    · exact hline.take hne (hed (by simp)) _
  | fault _ hne _ _ => exact ⟨ed, (hline.take hne (hed (by simp)) _).read⟩
  | line _ hne _ _ => exact ⟨ed, (hline.take hne (hed (by simp)) _).read⟩
  | byte _ hne _ _ => exact ⟨ed, (hline.take hne (hed (by simp)) _).read⟩
  | kill hk hne =>
    obtain ⟨ed', hed', hrep⟩ := hline.rep.erase hne
    refine ⟨ed', ?_⟩
    rw [Out.shared, Out.loc, (hk.events u e s s.erase rfl).1]
    exact ⟨hrep, .inr ⟨u, Function.update_self ..⟩, hline.screen.erase_of hed'⟩
  | killed hk hend =>
    have hnil : ed = [] := by
      by_contra hne
      have hew : s.e ≠ s.w := fun he => hne (hline.rep.edit.eq_nil_iff.mp he.symm)
      obtain ⟨ed', hed', -⟩ := hline.rep.erase hew
      refine hline.rep.plain ?_
      rw [← hend.resolve_left hew, hed']
      simp
    obtain rfl := hnil
    rw [Out.shared, Out.loc, (hk.events u e s s rfl).2]
    exact ⟨[], hline.rep, .inl rfl, hline.screen⟩
  | @rubout c hc hne =>
    obtain rfl := hed (by simp)
    obtain ⟨ed', hed', hrep⟩ := hline.rep.erase hne
    have htype : (tty e).type c = { tty e with edit := ed' } := by
      rw [type_rubout hc, hed', List.dropLast_concat]
    rw [Out.shared, Out.loc, intr_events u c e s s.erase rfl]
    exact ⟨ed', .key htype hrep (hline.screen.erase_of hed')⟩
  | @ignored c hc =>
    obtain rfl := hed (by simp)
    rw [Out.shared, Out.loc, intr_events u c e s s rfl]
    exact ⟨(tty e).edit, .key (type_ignored hline.rep hc) hline.rep hline.screen⟩
  | @store c hc hlt hend =>
    obtain rfl := hed (by simp)
    have hcooked : cooked c ≠ '\n'.toUInt8 := fun h => hend (.inl h)
    rw [Out.shared, Out.loc, intr_events u c e s (s.store (cooked c)) rfl]
    refine ⟨(tty e).edit ++ [cooked c], .key ((type_typed hline.rep hc hlt).2 hend)
      (hline.rep.store hlt hcooked) ?_⟩
    have hscreen := hline.screen.put (cooked_ne_backspace hc)
    rw [List.append_assoc, List.append_assoc] at hscreen
    exact hscreen
  | @commit c hc hlt hend =>
    obtain rfl := hed (by simp)
    have hevents : (heard (.intr c) .stored ++ found s (.intr c) ++
        taken s (s.store (cooked c)).commit).map (Prod.mk u) ++ e = (u, .key c) :: e :=
      intr_events u c e s (s.store (cooked c)).commit rfl
    rw [Out.shared, Out.loc, hevents]
    refine ⟨[], .key ((type_typed hline.rep hc hlt).1 hend) (hline.rep.commit hlt _) ?_⟩
    have hscreen := hline.screen.put (cooked_ne_backspace hc)
    rw [List.append_assoc, List.append_assoc] at hscreen
    rw [List.append_nil]
    exact hscreen
  | stored =>
    exact ⟨ed, hstay (by simp)⟩

/-- In every run, the ring is the terminal's two lists. -/
theorem line_of_run {x : St T Loc Cons Chan × List (T × What)} (h : (runs procs).Reachable x) :
    ∃ ed, Line x.1.shared x.1.locs x.2 ed := by
  refine Monitor.logged_view_invariant monitor_private
    (J := fun s f e => ∃ ed, Line s f e ed) ?_ ?_ ?_ h
  · rintro s f ⟨hfresh, -⟩
    refine ⟨[], .fresh hfresh, .inl rfl, ?_⟩
    rw [hfresh.2.2.2]
    exact ⟨rfl, fun c hc => absurd hc List.not_mem_nil⟩
  · rintro s f e t i s' l' ⟨ed, hline⟩ ho
    have hstay : ∀ v, f v = .killing → Function.update f t l' v = .killing := by
      intro v hv
      have hvt : v ≠ t := by
        rintro rfl
        rw [hv] at ho
        cases i <;> cases ho
      rw [Function.update_of_ne hvt, hv]
    obtain ⟨rfl, c, rfl, -⟩ := outside_shared ho
    refine ⟨ed, Line.congr (e := e) ⟨hline.rep, ?_, hline.screen⟩ rfl rfl⟩
    exact hline.edit.imp id fun ⟨v, hv⟩ => ⟨v, hstay v hv⟩
  · rintro s f e t i o ⟨ed, hline⟩ hmid ho
    obtain ⟨k, -, hd⟩ := inside_does ho
    rw [ev_inside ho]
    exact hd.keeps_line rfl hmid hline

/-- **The ring is the terminal.**  In every interleaving of readers and keys,
and however often the 32-bit counters have wrapped around: whenever the lock
is free, the bytes from `r` to `w` and those from `w` to `e` are the two lists
that the keys and the readers make of an empty terminal, and the ring never
holds more than 128 bytes. -/
theorem refines_tty {x : St T Loc Cons Chan × List (T × What)} (h : (runs procs).Reachable x)
    (hlock : x.1.lock = none) :
    CounterRing.Stores INPUT_BUF_SIZE x.1.shared.buf x.1.shared.r x.1.shared.w (tty x.2).queue ∧
    CounterRing.Stores INPUT_BUF_SIZE x.1.shared.buf x.1.shared.w x.1.shared.e (tty x.2).edit ∧
    (tty x.2).queue.length + (tty x.2).edit.length ≤ 128 := by
  obtain ⟨ed, hline⟩ := line_of_run h
  have hed : ed = (tty x.2).edit := by
    refine hline.edit.resolve_right ?_
    rintro ⟨u, hu⟩
    have hfree := monitor_private.free (Sys.reachable_of_logged _ h) hlock u
    rw [hu] at hfree
    cases hfree
  obtain rfl := hed
  have hroom := hline.rep.stores.room
  rw [List.length_append] at hroom
  exact ⟨hline.rep.queue, hline.rep.edit, hroom⟩

/-- A key that needs one step inside. -/
def press (c : UInt8) : List (Monitor.Act Bool Input) :=
  [.outside true (.call (.consoleintr c)), .acquire true, .inside true (.killed false)]

/-- `a` is taken back, `b` is handed over, `c` is being edited, and a reader
takes one byte. -/
def session : List (Monitor.Act Bool Input) :=
  press 'a'.toUInt8 ++ press '\x7f'.toUInt8 ++ press 'b'.toUInt8 ++ press '\r'.toUInt8 ++
    List.replicate 3 (.scan true) ++ [.inside true (.killed false)] ++ press 'c'.toUInt8 ++
    [.outside false (.call (.consoleread (fun _ => true) 1)), .acquire false,
    .inside false (.killed false), .inside false (.killed false)]

theorem refines_tty_session : ∃ x : St Bool Loc Cons Chan × List (Bool × What),
    (runs [false, true]).Reachable x ∧ tty x.2 = ⟨['\n'.toUInt8], ['c'.toUInt8]⟩ ∧
    CounterRing.Stores INPUT_BUF_SIZE x.1.shared.buf x.1.shared.r x.1.shared.w (tty x.2).queue ∧
    CounterRing.Stores INPUT_BUF_SIZE x.1.shared.buf x.1.shared.w x.1.shared.e (tty x.2).edit ∧
    (tty x.2).queue.length + (tty x.2).edit.length ≤ 128 := by
  obtain ⟨x, hx, hlock, htty⟩ := Sys.exists_of_run (runs [false, true]) session
    (p := fun x => x.1.lock = none ∧ tty x.2 = ⟨['\n'.toUInt8], ['c'.toUInt8]⟩)
    (.init (show (runs [false, true]).init (start, []) from ⟨start_init, rfl⟩)) (by decide +kernel)
  exact ⟨x, hx, htty, refines_tty hx hlock⟩

/-! ### What was handed over -/

omit [DecidableEq T] in
theorem taken_spec (h : Does s k l o) :
    taken s o.shared = [] ∨ s.r ≠ s.w ∧ taken s o.shared = [.took s.next] := by
  cases h with
  | eof _ hne _ =>
    simp only [Out.shared]
    split
    · exact .inl (taken_same rfl)
    · exact .inr ⟨hne, taken_take⟩
  | fault _ hne _ _ => exact .inr ⟨hne, taken_take⟩
  | line _ hne _ _ => exact .inr ⟨hne, taken_take⟩
  | byte _ hne _ _ => exact .inr ⟨hne, taken_take⟩
  | _ => exact .inl (taken_same rfl)

/-- No key takes a byte out of the queue. -/
theorem queue_type (t : Tty) (c : UInt8) : t.queue <+: (t.type c).queue := by
  unfold Tty.type
  split
  · exact List.prefix_rfl
  · split
    · exact List.prefix_rfl
    · split
      · exact List.prefix_rfl
      · split
        · exact List.prefix_rfl
        · dsimp only
          split
          · exact List.prefix_append _ _
          · exact List.prefix_rfl

omit [DecidableEq T] in
/-- A reader takes what was handed over first. -/
theorem handed_taken (h : Does s k l o) (hline : Line s f e ed) :
    handed ((taken s o.shared).map (Prod.mk u) ++ e) = handed e := by
  obtain htaken | ⟨hne, htaken⟩ := taken_spec h
  · rw [htaken]
    rfl
  · obtain ⟨q, hq, -⟩ := hline.rep.take hne
    have hqueue : (tty e).queue = s.next :: q := hq
    rw [htaken]
    simp [handed, tookBytes, tty, hqueue]

omit [DecidableEq T] in
theorem handed_heard (l l' : Loc) (e : List (T × What)) :
    handed e <+: handed ((heard l l').map (Prod.mk u) ++ e) := by
  have hkey : ∀ c, handed e <+: handed ((u, .key c) :: e) := fun c =>
    (List.prefix_append_right_inj _).mpr (queue_type (tty e) c)
  unfold heard
  split
  · exact List.prefix_rfl
  · exact List.prefix_rfl
  · exact hkey _
  · exact hkey _
  · exact List.prefix_rfl

omit [DecidableEq T] in
/-- The step of the holder takes nothing back. -/
theorem Does.handed (h : Does s k l o) (hline : Line s f e ed) :
    handed e <+: handed ((heard l o.loc ++ found s l ++ taken s o.shared).map (Prod.mk u) ++ e) := by
  have hfound : ∀ e' : List (T × What),
      Cons.handed ((found s l).map (Prod.mk u) ++ e') = Cons.handed e' := by
    intro e'
    unfold found
    split
    · split <;> rfl
    · rfl
  rw [List.map_append, List.map_append, List.append_assoc, List.append_assoc,
    ← handed_taken (u := u) h hline, ← hfound]
  exact handed_heard l o.loc _

theorem handed_step {x x' : St T Loc Cons Chan × List (T × What)} {a : Monitor.Act T Input}
    (h : (runs procs).Reachable x) (ha : (runs procs).step x a = some x') :
    handed x.2 <+: handed x'.2 := by
  obtain ⟨hs, hlog⟩ := (Sys.logged_step _).mp ha
  obtain ⟨ed, hline⟩ := line_of_run h
  rw [hlog]
  obtain ⟨-, -, hne⟩ | ⟨t, i, l', rfl, ho, -⟩ | ⟨t, i, o, rfl, -, ho, -⟩ := Monitor.step_view hs
  · cases a with
    | outside t i => exact absurd rfl (hne t i).1
    | inside t i => exact absurd rfl (hne t i).2
    | _ => exact List.prefix_rfl
  · obtain ⟨-, c, rfl, -⟩ := outside_shared ho
    exact List.prefix_rfl
  · obtain ⟨k, -, hd⟩ := inside_does ho
    rw [Monitor.events, ev_inside ho]
    exact hd.handed hline

/-- Nothing is taken back in the rest of a run. -/
theorem handed_run {x x' : St T Loc Cons Chan × List (T × What)} {as : List (Monitor.Act T Input)}
    (h : (runs procs).Reachable x) (hr : (runs procs).runFrom x as = some x') :
    handed x.2 <+: handed x'.2 := by
  induction as generalizing x with
  | nil =>
    rw [Sys.runFrom_nil, Option.some_inj] at hr
    rw [hr]
  | cons a as ih =>
    obtain ⟨y, hy, hr⟩ := Option.bind_eq_some_iff.mp hr
    exact (handed_step h hy).trans (ih (.step h hy) hr)

/-- **The screen does not lie.**  In every interleaving, the echo of the keys
shows, in front of the cursor, the bytes that readers took, followed by those
in the ring, whether they are ready or being edited; behind the cursor it is
blank.  What was handed over to the readers is never erased: it stays the
beginning of what is shown in the rest of the run. -/
theorem echo_shows {x : St T Loc Cons Chan × List (T × What)} (h : (runs procs).Reachable x) :
    (∃ ed, CounterRing.Stores INPUT_BUF_SIZE x.1.shared.buf x.1.shared.r x.1.shared.w
        (tty x.2).queue ∧
      CounterRing.Stores INPUT_BUF_SIZE x.1.shared.buf x.1.shared.r x.1.shared.e
        ((tty x.2).queue ++ ed) ∧
      Shows x.1.shared.uart (tookBytes x.2 ++ ((tty x.2).queue ++ ed))) ∧
    ∀ as x', (runs procs).runFrom x as = some x' → handed x.2 <+: handed x'.2 := by
  obtain ⟨ed, hline⟩ := line_of_run h
  exact ⟨⟨ed, hline.rep.queue, hline.rep.stores, hline.screen⟩, fun _ _ hr => handed_run h hr⟩

theorem echo_session : ∃ x : St Bool Loc Cons Chan × List (Bool × What),
    (runs [false, true]).Reachable x ∧ tookBytes x.2 = ['b'.toUInt8] ∧
    (∃ ed, CounterRing.Stores INPUT_BUF_SIZE x.1.shared.buf x.1.shared.r x.1.shared.w
        (tty x.2).queue ∧
      CounterRing.Stores INPUT_BUF_SIZE x.1.shared.buf x.1.shared.r x.1.shared.e
        ((tty x.2).queue ++ ed) ∧
      Shows x.1.shared.uart (tookBytes x.2 ++ ((tty x.2).queue ++ ed))) ∧
    ∀ as x', (runs [false, true]).runFrom x as = some x' → handed x.2 <+: handed x'.2 := by
  obtain ⟨x, hx, htook⟩ := Sys.exists_of_run (runs [false, true]) session
    (p := fun x => tookBytes x.2 = ['b'.toUInt8])
    (.init (show (runs [false, true]).init (start, []) from ⟨start_init, rfl⟩)) (by decide +kernel)
  exact ⟨x, hx, htook, echo_shows hx⟩

/-! ### What a read returns -/

/-- The last call of `u`. -/
def callOf (u : T) : List (T × What) → Option Call
  | [] => none
  | (v, .call c) :: e => if v = u then some c else callOf u e
  | (_, .key _) :: e | (_, .took _) :: e | (_, .eof) :: e => callOf u e

/-- The bytes that `u` took since its last call. -/
def bytesOf (u : T) : List (T × What) → List UInt8
  | [] => []
  | (v, .call _) :: e => if v = u then [] else bytesOf u e
  | (v, .took c) :: e => if v = u then bytesOf u e ++ [c] else bytesOf u e
  | (_, .key _) :: e | (_, .eof) :: e => bytesOf u e

/-- Whether `u` found an end of file since its last call. -/
def eofOf (u : T) : List (T × What) → Bool
  | [] => false
  | (v, .call _) :: e => if v = u then false else eofOf u e
  | (v, .eof) :: e => if v = u then true else eofOf u e
  | (_, .key _) :: e | (_, .took _) :: e => eofOf u e

/-- The bytes `bs` that a read for `n` bytes has copied when it returns `r`,
having taken `ts` out of the ring.  It stops where it has what was asked for,
behind a newline, in front of an end of file, which stays for the next read
unless this one has nothing, or where the caller's buffer ends, and then the
byte is lost. -/
def LineRead (dst : ℕ → Bool) (n : ℤ) (bs ts : List UInt8) (eof : Bool) (r : ℤ) : Prop :=
  bs.length = r ∧ r ≤ max n 0 ∧ C 'D' ∉ bs ∧ '\n'.toUInt8 ∉ bs.dropLast ∧
    ((ts = bs ∧ (r = max n 0 ∨ bs.getLast? = some '\n'.toUInt8 ∨ (bs ≠ [] ∧ eof = true))) ∨
      (bs = [] ∧ ts = [C 'D'] ∧ eof = true) ∨
      (dst bs.length = false ∧ ∃ c, ts = bs ++ [c]))

/-- What is known of a reader: `c` is its call, `ts` the bytes it has taken
since, `eof` whether it found an end of file. -/
def Account (c : Option Call) (ts : List UInt8) (eof : Bool) : Loc → Prop
  | .read dst n bs => c = some (.consoleread dst n) ∧ ts = bs ∧ bs.length ≤ max n 0 ∧
      C 'D' ∉ bs ∧ '\n'.toUInt8 ∉ bs
  | .ret bs r => ∃ dst n, c = some (.consoleread dst n) ∧ (0 ≤ r → LineRead dst n bs ts eof r)
  | _ => True

/-- The events of a step are put to the account of the caller that takes it. -/
theorem log_same (v : T) {ws : List What} (hws : ∀ c, .call c ∉ ws) (hv : v ≠ u) :
    callOf v (ws.map (Prod.mk u) ++ e) = callOf v e ∧
      bytesOf v (ws.map (Prod.mk u) ++ e) = bytesOf v e ∧
      eofOf v (ws.map (Prod.mk u) ++ e) = eofOf v e := by
  induction ws with
  | nil => exact ⟨rfl, rfl, rfl⟩
  | cons w ws ih =>
    obtain ⟨hc, hb, he⟩ := ih fun c hc => hws c (List.mem_cons_of_mem _ hc)
    cases w with
    | call c => exact absurd List.mem_cons_self (hws c)
    | key c => exact ⟨hc, hb, he⟩
    | took c => exact ⟨hc, by simpa [bytesOf, hv.symm] using hb, he⟩
    | eof => exact ⟨hc, hb, by simpa [eofOf, hv.symm] using he⟩

/-- None of the events of a step inside is a call. -/
theorem not_call (c : Call) (l l' : Loc) (s s' : Cons) :
    .call c ∉ heard l l' ++ found s l ++ taken s s' := by
  rw [List.mem_append, List.mem_append, not_or, not_or]
  refine ⟨⟨?_, ?_⟩, ?_⟩
  · unfold heard
    split <;> simp
  · unfold found
    split
    · split <;> simp
    · exact List.not_mem_nil
  · unfold taken
    split <;> simp

/-- The events of a reader that finds no end of file. -/
theorem read_events {dst : ℕ → Bool} {n : ℤ} (l' : Loc)
    (h : ¬ (bs.length < n ∧ s.r ≠ s.w ∧ s.next = C 'D')) (s' : Cons) :
    heard (.read dst n bs) l' ++ found s (.read dst n bs) ++ taken s s' = taken s s' := by
  simp only [heard, found, if_neg h, List.nil_append]

/-- The holder's step keeps its account. -/
theorem Does.account (h : Does s k l o) (ha : Account (callOf u e) (bytesOf u e) (eofOf u e) l) :
    Account (callOf u ((heard l o.loc ++ found s l ++ taken s o.shared).map (Prod.mk u) ++ e))
      (bytesOf u ((heard l o.loc ++ found s l ++ taken s o.shared).map (Prod.mk u) ++ e))
      (eofOf u ((heard l o.loc ++ found s l ++ taken s o.shared).map (Prod.mk u) ++ e)) o.loc := by
  cases h with
  | @asked dst n bs hn =>
    obtain ⟨hc, hts, hle, hD, hline⟩ := ha
    rw [Out.shared, Out.loc, read_events _ (by omega), taken_same rfl]
    refine ⟨dst, n, hc, fun _ => ⟨rfl, hle, hD, fun hm => hline (List.mem_of_mem_dropLast hm), ?_⟩⟩
    exact .inl ⟨hts, .inl (by omega)⟩
  | @giveUp dst n bs he _ =>
    rw [Out.shared, Out.loc, read_events _ (fun h => h.2.1 he), taken_same rfl]
    exact ⟨dst, n, ha.1, fun h => absurd h (by decide)⟩
  | @wait dst n bs he =>
    rw [Out.shared, Out.loc, read_events _ (fun h => h.2.1 he), taken_same rfl]
    exact ha
  | @eof dst n bs hn hne hD =>
    -- ^D ends the read; behind bytes it stays in the ring for the next one
    obtain ⟨hc, hts, hle, hnD, hline⟩ := ha
    have hfound : heard (.read dst n bs) (.ret bs bs.length) ++ found s (.read dst n bs) =
        [.eof] := by
      simp only [heard, found, if_pos (And.intro hn (And.intro hne hD)), List.nil_append]
    rw [Out.shared, Out.loc, hfound]
    refine ⟨dst, n, ?_, fun _ => ⟨rfl, hle, hnD, fun hm => hline (List.mem_of_mem_dropLast hm), ?_⟩⟩
    · split
      · rw [taken_same rfl]
        exact hc
      · rw [taken_take]
        exact hc
    · split
      · rename_i hpos
        rw [taken_same rfl]
        refine .inl ⟨hts, .inr (.inr ⟨List.ne_nil_of_length_pos hpos, ?_⟩)⟩
        simp [eofOf]
      · rename_i hpos
        have hnil : bs = [] := List.eq_nil_of_length_eq_zero (by omega)
        rw [taken_take, hD]
        refine .inr (.inl ⟨hnil, ?_, ?_⟩)
        · simp [bytesOf, hts, hnil]
        · simp [eofOf]
  | @fault dst n bs hn hne hD hdst =>
    -- the byte has been taken and is lost: `copyout` failed on it
    obtain ⟨hc, hts, hle, hnD, hline⟩ := ha
    rw [Out.shared, Out.loc, read_events _ (fun h => hD h.2.2), taken_take]
    refine ⟨dst, n, hc, fun _ => ⟨rfl, hle, hnD, fun hm => hline (List.mem_of_mem_dropLast hm), ?_⟩⟩
    exact .inr (.inr ⟨hdst, s.next, by simp [bytesOf, hts]⟩)
  | @line dst n bs hn hne hD hend =>
    obtain ⟨hc, hts, hle, hnD, hline⟩ := ha
    rw [Out.shared, Out.loc, read_events _ (fun h => hD h.2.2), taken_take]
    refine ⟨dst, n, hc, fun _ => ⟨by simp, by omega, ?_, ?_, ?_⟩⟩
    · rw [List.mem_append, List.mem_singleton, not_or]
      exact ⟨hnD, Ne.symm hD⟩
    · rwa [List.dropLast_concat]
    · exact .inl ⟨by simp [bytesOf, hts], .inr (.inl (by simp [hend]))⟩
  | @byte dst n bs hn hne hD hend =>
    obtain ⟨hc, hts, hle, hnD, hline⟩ := ha
    rw [Out.shared, Out.loc, read_events _ (fun h => hD h.2.2), taken_take]
    refine ⟨hc, by simp [bytesOf, hts], ?_, ?_, ?_⟩
    · rw [List.length_append, List.length_singleton]
      push_cast
      omega
    · rw [List.mem_append, List.mem_singleton, not_or]
      exact ⟨hnD, Ne.symm hD⟩
    · rw [List.mem_append, List.mem_singleton, not_or]
      exact ⟨hline, Ne.symm hend⟩
  | kill _ _ => trivial
  | killed _ _ => trivial
  | rubout _ _ => trivial
  | ignored _ => trivial
  | store _ _ _ => trivial
  | commit _ _ _ => trivial
  | stored => trivial

/-- In every run, everybody is at a place that agrees with the account. -/
theorem account {x : St T Loc Cons Chan × List (T × What)} (h : (runs procs).Reachable x) (u : T) :
    Account (callOf u x.2) (bytesOf u x.2) (eofOf u x.2) (x.1.locs u) := by
  refine Monitor.logged_view_invariant monitor_private
    (J := fun _ f e => ∀ u, Account (callOf u e) (bytesOf u e) (eofOf u e) (f u)) ?_ ?_ ?_ h u
  · rintro s f ⟨-, hidle⟩ u
    rw [hidle u]
    trivial
  · rintro s f e t i s' l' hJ ho u
    obtain ⟨-, c, rfl, rfl⟩ := outside_shared ho
    by_cases hu : u = t
    · subst hu
      cases c with
      | consoleread dst n => simp [ev, callOf, bytesOf, Call.start, Account]
      | consoleintr c => simp [Call.start, Account]
    · simpa [ev, callOf, bytesOf, eofOf, hu, Ne.symm hu] using hJ u
  · rintro s f e t i o hJ - ho u
    obtain ⟨k, -, hd⟩ := inside_does ho
    rw [ev_inside ho]
    by_cases hu : u = t
    · subst hu
      rw [Function.update_self]
      exact hd.account (hJ u)
    · obtain ⟨hc, hb, he⟩ := log_same u (e := e) (fun c => not_call c _ _ _ _) hu
      rw [hc, hb, he, Function.update_of_ne hu]
      exact hJ u

/-- **A read is a line.**  In every run, a process whose read for `n` bytes has
returned `r ≥ 0` has `r` bytes, with no end of file among them and no newline
but at the end; it has stopped short only behind a newline, in front of an end
of file, which it has left in the ring unless there was nothing else to
return, or where its buffer ends. -/
theorem read_line {x : St T Loc Cons Chan × List (T × What)} (h : (runs procs).Reachable x) {u : T}
    {bs : List UInt8} {r : ℤ} (hret : x.1.locs u = .ret bs r) (hr : 0 ≤ r) :
    ∃ dst n, callOf u x.2 = some (.consoleread dst n) ∧
      LineRead dst n bs (bytesOf u x.2) (eofOf u x.2) r := by
  have ha := account h u
  rw [hret] at ha
  obtain ⟨dst, n, hc, hread⟩ := ha
  exact ⟨dst, n, hc, hread hr⟩

theorem read_line_one : ∃ x : St Bool Loc Cons Chan × List (Bool × What),
    (runs [false, true]).Reachable x ∧ ∃ dst n,
    callOf false x.2 = some (.consoleread dst n) ∧
      LineRead dst n ['b'.toUInt8] (bytesOf false x.2) (eofOf false x.2) 1 := by
  obtain ⟨x, hx, hret⟩ := Sys.exists_of_run (runs [false, true]) session
    (p := fun x => (match x.1.locs false with
      | .ret bs r => bs == ['b'.toUInt8] && r == 1
      | _ => false) = true)
    (.init (show (runs [false, true]).init (start, []) from ⟨start_init, rfl⟩)) (by decide +kernel)
  split at hret
  · rename_i bs r hloc
    simp only [Bool.and_eq_true, beq_iff_eq] at hret
    obtain ⟨rfl, rfl⟩ := hret
    exact ⟨x, hx, read_line hx hloc (by decide)⟩
  · cases hret

/-! ### Sleeping on the console -/

open Monitor (Registered NoLoss Leaves)

/-- Every step of the holder leaves the readers that sleep something to wait
for, or wakes them. -/
theorem Does.left (h : Does s k l o) (he : s.r = s.w) (w : Loc) (c : Chan) :
    Leaves (fun s _ _ => s.r = s.w) (fun _ s _ _ => s.r = s.w) w c o := by
  cases h with
  | eof _ hne _ => exact absurd he hne
  | fault _ hne _ _ => exact absurd he hne
  | line _ hne _ _ => exact absurd he hne
  | byte _ hne _ _ => exact absurd he hne
  | commit _ _ _ =>
    cases c
    exact fun hne => absurd rfl hne
  | _ => exact he

theorem noLoss_readers (hall : ∀ t, t ∈ procs) :
    NoLoss (monitor procs) (fun s _ _ => s.r = s.w) (fun _ s _ _ => s.r = s.w) where
  all := hall
  acquire _ h := h
  outside _ _ ho _ _ := by
    obtain ⟨rfl, -⟩ := outside_shared ho
    exact ⟨id, fun _ => id⟩
  inside _ _ ho _ _ h := by
    obtain ⟨k, -, hd⟩ := inside_does ho
    exact hd.left h _ _
  waits _ _ ho := by
    obtain ⟨k, -, hd⟩ := inside_does ho
    cases hd with
    | wait he => exact he

/-- **Readers only sleep while nothing is ready.**  In every interleaving,
whenever the lock is free, a process that sleeps in `consoleread`, or is about
to, has nothing to read. -/
theorem readers_sleep (hall : ∀ t, t ∈ procs) {s : St T Loc Cons Chan}
    (h : (monitor procs).sys.Reachable s) (hlock : s.lock = none) {t : T}
    (hw : (s.pc t).waits = true) (hc : (s.chan t).isSome = true) : s.shared.r = s.shared.w := by
  obtain ⟨c, hc⟩ := Option.isSome_iff_exists.mp hc
  exact (noLoss_readers hall).reason_of_registered h hlock ⟨hw, rfl, hc⟩

/-- A reader finds nothing and falls asleep; a key comes in that does not end
its line. -/
def halfLine : List (Monitor.Act Bool Input) :=
  [.outside false (.call (.consoleread (fun _ => true) 1)), .acquire false,
    .inside false (.killed false), .release false, .sleep false] ++ press 'a'.toUInt8

theorem readers_sleep_half : ∃ s : St Bool Loc Cons Chan, (monitor [false, true]).sys.Reachable s ∧
    (s.pc false).waits = true ∧ s.shared.r ≠ s.shared.e ∧ s.shared.r = s.shared.w := by
  obtain ⟨s, hs, hlock, hw, hc, he⟩ := Sys.exists_of_run (monitor [false, true]).sys halfLine
    (p := fun s => s.lock = none ∧ (s.pc false).waits = true ∧ (s.chan false).isSome = true ∧
      s.shared.r ≠ s.shared.e)
    (.init start_init) (by decide +kernel)
  exact ⟨s, hs, hw, he, readers_sleep (by decide) hs hlock hw hc⟩

end Xv6.Cons
