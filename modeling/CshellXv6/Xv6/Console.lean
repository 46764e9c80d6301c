/-
The console (kernel/console.c).

Processes call `consoleread`; the interrupt handler calls `consoleintr` for
each key.  Both work behind `cons.lock` on a ring of 128 bytes with three
32-bit counters: what lies between `r` and `w` is for the readers, what lies
between `w` and `e` can still be edited.

* `Cons.monitor` — the readers and the interrupt handlers around the console;
* `Tty` — the console as two lists, and what each key does to them;
* `Cons.Rep` — the ring as such a pair of lists, wherever the counters are;
* `Cons.inside_does` — everything the holder of the lock can do.
-/
import CshellXv6.Lib.CounterRing
import CshellXv6.Lib.Monitor

namespace Xv6

/-- `C(x)`: Control-x -/
def C (x : Char) : UInt8 := .ofNat (x.toNat - '@'.toNat)

/-- console.c:51 -/
def INPUT_BUF_SIZE : UInt32 := 128

/-- `cons`, without its lock.  `uart` is what `consputc` has sent for the
keys that came in. -/
structure Cons where
  buf : ℕ → UInt8
  r : UInt32
  w : UInt32
  e : UInt32
  uart : List UInt8

namespace Cons

/-- The address `consoleread` sleeps on. -/
inductive Chan where
  | r
  deriving DecidableEq

/-- The calls into console.c.  `dst i` says whether `either_copyout` can write
at `dst + i`. -/
inductive Call where
  | consoleread (dst : ℕ → Bool) (n : ℤ)
  | consoleintr (c : UInt8)

/-- Where a caller is in console.c.  `bs` are the bytes copied to `dst` so
far, so that `target - n` is their number. -/
inductive Loc where
  | idle
  | read (dst : ℕ → Bool) (n : ℤ) (bs : List UInt8)
  | ret (bs : List UInt8) (r : ℤ)
  | intr (c : UInt8)
  | killing
  | stored
  | done

/-- A call begins. -/
def Call.start : Call → Loc
  | consoleread dst n => .read dst n []
  | consoleintr c => .intr c

/-- What a step is told from outside: the call that is made, or the answer of
`killed(myproc())`. -/
inductive Input where
  | call (c : Call)
  | killed (b : Bool)

/-- `consputc` (console.c:34-45); `none` stands for `BACKSPACE`. -/
def consputc (s : Cons) : Option UInt8 → Cons
  | none => { s with uart := s.uart ++ ['\x08'.toUInt8, ' '.toUInt8, '\x08'.toUInt8] }
  | some c => { s with uart := s.uart ++ [c] }

/-- `cons.buf[cons.r % INPUT_BUF_SIZE]` -/
def next (s : Cons) : UInt8 := s.buf (s.r % INPUT_BUF_SIZE).toNat

/-- `cons.r++` -/
def take (s : Cons) : Cons := { s with r := s.r + 1 }

/-- `cons.buf[(cons.e - 1) % INPUT_BUF_SIZE]` -/
def last (s : Cons) : UInt8 := s.buf ((s.e - 1) % INPUT_BUF_SIZE).toNat

/-- `cons.e--; consputc(BACKSPACE);` -/
def erase (s : Cons) : Cons := { s with e := s.e - 1 }.consputc none

/-- `consputc(c); cons.buf[cons.e++ % INPUT_BUF_SIZE] = c;` -/
def store (s : Cons) (c : UInt8) : Cons :=
  { s.consputc (some c) with
    buf := Function.update s.buf (s.e % INPUT_BUF_SIZE).toNat c
    e := s.e + 1 }

/-- `cons.w = cons.e` -/
def commit (s : Cons) : Cons := { s with w := s.e }

open Monitor (Out)

/-- One round of the loop of `consoleread` (console.c:96-134). -/
def consolereadRound (s : Cons) (dst : ℕ → Bool) (n : ℤ) (bs : List UInt8) (killed : Bool) :
    Out Cons Loc Chan :=
  if bs.length < n then
    if s.r = s.w then
      if killed then .leave s (.ret bs (-1)) else .wait .r s (.read dst n bs)
    else if s.next = C 'D' then
      -- behind other bytes, `cons.r--` takes the step back
      .leave (if 0 < bs.length then s else s.take) (.ret bs bs.length)
    else if !dst bs.length then .leave s.take (.ret bs bs.length)
    else if s.next = '\n'.toUInt8 then .leave s.take (.ret (bs ++ [s.next]) (bs.length + 1))
    else .work s.take (.read dst n (bs ++ [s.next]))
  else .leave s (.ret bs bs.length)

/-- One round of the loop for `C('U')` (console.c:156-161). -/
def killLine (s : Cons) : Out Cons Loc Chan :=
  if s.e ≠ s.w ∧ s.last ≠ '\n'.toUInt8 then .work s.erase .killing else .leave s .done

/-- `c == '\r' ? '\n' : c` -/
def cooked (c : UInt8) : UInt8 := if c = '\r'.toUInt8 then '\n'.toUInt8 else c

/-- The `switch` of `consoleintr` (console.c:151-187). -/
def consoleintr (s : Cons) (c : UInt8) : Out Cons Loc Chan :=
  if c = C 'P' then .leave s .done
  else if c = C 'U' then s.killLine
  else if c = C 'H' ∨ c = '\x7f'.toUInt8 then .leave (if s.e ≠ s.w then s.erase else s) .done
  else if c ≠ 0 ∧ s.e - s.r < INPUT_BUF_SIZE then
    let s' := s.store (cooked c)
    if cooked c = '\n'.toUInt8 ∨ cooked c = C 'D' ∨ s'.e - s'.r = INPUT_BUF_SIZE then
      .wake .r s'.commit .stored
    else .leave s' .done
  else .leave s .done

/-- What the holder of `cons.lock` does. -/
def inside (l : Loc) (s : Cons) : Input → Option (Out Cons Loc Chan)
  | .call _ => none
  | .killed k =>
    match l with
    | .read dst n bs => some (s.consolereadRound dst n bs k)
    | .intr c => some (s.consoleintr c)
    | .killing => some s.killLine
    | .stored => some (.leave s .done)
    | .idle | .ret _ _ | .done => none

/-- Outside, whoever is in no call makes one. -/
def outside (l : Loc) (s : Cons) : Input → Option (Cons × Loc)
  | .call c =>
    match l with
    | .idle | .ret _ _ | .done => some (s, c.start)
    | _ => none
  | .killed _ => none

/-- The local states in which `acquire(&cons.lock)` comes next. -/
def wants : Loc → Bool
  | .read _ _ _ | .intr _ => true
  | _ => false

/-- The console before the first key. -/
def Fresh (s : Cons) : Prop :=
  s.r = 0 ∧ s.w = 0 ∧ s.e = 0 ∧ s.uart = []

/-- The processes, and the interrupt handlers of the harts, around the
console; `procs` is the table that `wakeup` goes through. -/
def monitor {T : Type} (procs : List T) : Monitor T Loc Cons Chan Input where
  threads := procs
  init s f := Fresh s ∧ ∀ t, f t = .idle
  wants := wants
  outside _ := outside
  inside _ := inside

/-- The console with nobody around. -/
def start : Monitor.St Bool Loc Cons Chan :=
  .start (fun _ => .idle) { buf := fun _ => 0, r := 0, w := 0, e := 0, uart := [] }

theorem start_init : (monitor [false, true]).sys.init start :=
  Monitor.init_start ⟨⟨rfl, rfl, rfl, rfl⟩, fun _ => rfl⟩

end Cons

/-! ### What the keys are for -/

/-- The console as its users see it: the bytes ready to be read, and the line
that is being edited. -/
structure Tty where
  queue : List UInt8
  edit : List UInt8
  deriving DecidableEq

/-- A key: print the processes, kill the line, take back the last byte, or
append to the line.  The line is handed to the readers when it ends, at an end
of file, or when 128 bytes are there. -/
def Tty.type (t : Tty) (c : UInt8) : Tty :=
  if c = C 'P' then t
  else if c = C 'U' then { t with edit := [] }
  else if c = C 'H' ∨ c = '\x7f'.toUInt8 then { t with edit := t.edit.dropLast }
  else if c = 0 ∨ 128 ≤ t.queue.length + t.edit.length then t
  else
    let edit := t.edit ++ [Cons.cooked c]
    if Cons.cooked c = '\n'.toUInt8 ∨ Cons.cooked c = C 'D' ∨
        t.queue.length + edit.length = 128 then
      ⟨t.queue ++ edit, []⟩
    else { t with edit := edit }

namespace Cons

open Monitor (Out)

/-- The ring holds the two lists, one behind the other; a line that is being
edited has no end yet. -/
structure Rep (s : Cons) (t : Tty) : Prop where
  stores : CounterRing.Stores INPUT_BUF_SIZE s.buf s.r s.e (t.queue ++ t.edit)
  w : s.w = s.r + UInt32.ofNat t.queue.length
  plain : '\n'.toUInt8 ∉ t.edit

variable {s : Cons} {t : Tty} {c : UInt8}

theorem Rep.fresh (h : Fresh s) : Rep s ⟨[], []⟩ := by
  obtain ⟨hr, hw, he, -⟩ := h
  refine ⟨?_, by rw [hr, hw]; rfl, List.not_mem_nil⟩
  rw [hr, he]
  exact .nil

theorem Rep.queue (h : Rep s t) : CounterRing.Stores INPUT_BUF_SIZE s.buf s.r s.w t.queue :=
  (h.stores.split (by decide) h.w).1

theorem Rep.edit (h : Rep s t) : CounterRing.Stores INPUT_BUF_SIZE s.buf s.w s.e t.edit :=
  (h.stores.split (by decide) h.w).2

/-- A reader takes the first byte that is ready. -/
theorem Rep.take (h : Rep s t) (hne : s.r ≠ s.w) :
    ∃ q, t.queue = s.next :: q ∧ Rep s.take { t with queue := q } := by
  obtain ⟨queue, ed⟩ := t
  cases queue with
  | nil => exact absurd (h.queue.eq_nil_iff.mpr rfl) hne
  | cons c q =>
    obtain ⟨hc, hstores⟩ := CounterRing.Stores.got (by decide) h.stores
    obtain ⟨-, hqueue⟩ := CounterRing.Stores.got (by decide) h.queue
    exact ⟨q, by rw [← hc]; rfl, hstores, hqueue.count, h.plain⟩

/-- The last byte of the line is taken back. -/
theorem Rep.erase (h : Rep s t) (hne : s.e ≠ s.w) :
    ∃ ed, t.edit = ed ++ [s.last] ∧ Rep s.erase { t with edit := ed } := by
  obtain ⟨queue, edit⟩ := t
  cases edit using List.reverseRecOn with
  | nil => exact absurd (h.edit.eq_nil_iff.mpr rfl).symm hne
  | append_singleton ed c =>
    have hstores := h.stores
    rw [← List.append_assoc] at hstores
    obtain ⟨hc, hundo⟩ := CounterRing.Stores.undo (by decide) hstores
    refine ⟨ed, by rw [← hc]; rfl, hundo, h.w, fun hm => h.plain ?_⟩
    exact List.mem_append_left _ hm

theorem Rep.length_lt_iff (h : Rep s t) :
    s.e - s.r < INPUT_BUF_SIZE ↔ t.queue.length + t.edit.length < 128 := by
  rw [← h.stores.length_lt_iff, List.length_append]
  rfl

/-- A byte is appended to the line. -/
theorem stores_store (h : Rep s t) (hlt : s.e - s.r < INPUT_BUF_SIZE) (c : UInt8) :
    CounterRing.Stores INPUT_BUF_SIZE (s.store c).buf (s.store c).r (s.store c).e
      (t.queue ++ (t.edit ++ [c])) := by
  rw [← List.append_assoc]
  exact h.stores.put (by decide) (h.stores.length_lt_iff.mpr hlt) c

theorem Rep.store (h : Rep s t) (hlt : s.e - s.r < INPUT_BUF_SIZE) (hc : c ≠ '\n'.toUInt8) :
    Rep (s.store c) { t with edit := t.edit ++ [c] } := by
  refine ⟨stores_store h hlt c, h.w, ?_⟩
  rw [List.mem_append, List.mem_singleton, not_or]
  exact ⟨h.plain, hc.symm⟩

/-- The line is handed over. -/
theorem Rep.commit (h : Rep s t) (hlt : s.e - s.r < INPUT_BUF_SIZE) (c : UInt8) :
    Rep (s.store c).commit ⟨t.queue ++ (t.edit ++ [c]), []⟩ := by
  have hstores := stores_store h hlt c
  refine ⟨?_, hstores.count, List.not_mem_nil⟩
  rw [List.append_nil]
  exact hstores

/-- Appending fills the ring exactly when the two lists are full. -/
theorem Rep.full_iff (h : Rep s t) (hlt : s.e - s.r < INPUT_BUF_SIZE) (c : UInt8) :
    (s.store c).e - (s.store c).r = INPUT_BUF_SIZE ↔
      t.queue.length + (t.edit ++ [c]).length = 128 := by
  rw [← (stores_store h hlt c).length_eq_iff, List.length_append]
  rfl

/-! ### What the holder does -/

/-- The keys that are appended to the line. -/
def Typed (c : UInt8) : Prop :=
  c ≠ C 'P' ∧ c ≠ C 'U' ∧ ¬ (c = C 'H' ∨ c = '\x7f'.toUInt8) ∧ c ≠ 0

/-- The keys behind which the line is handed over. -/
def Ends (s : Cons) (c : UInt8) : Prop :=
  cooked c = '\n'.toUInt8 ∨ cooked c = C 'D' ∨
    (s.store (cooked c)).e - (s.store (cooked c)).r = INPUT_BUF_SIZE

/-- The keys that change nothing. -/
def Ignored (s : Cons) (c : UInt8) : Prop :=
  c = C 'P' ∨ ((c = C 'H' ∨ c = '\x7f'.toUInt8) ∧ s.e = s.w) ∨
    (c ≠ C 'U' ∧ ¬ (c = C 'H' ∨ c = '\x7f'.toUInt8) ∧ (c = 0 ∨ ¬ s.e - s.r < INPUT_BUF_SIZE))

/-- The places of the loop that kills a line. -/
def Loc.Kills (l : Loc) : Prop := l = .intr (C 'U') ∨ l = .killing

/-- Everything the holder of the lock does, by where it is; `k` is what
`killed(myproc())` says. -/
inductive Does (s : Cons) (k : Bool) : Loc → Out Cons Loc Chan → Prop
  | asked {dst} {n : ℤ} {bs : List UInt8} : n ≤ bs.length →
      Does s k (.read dst n bs) (.leave s (.ret bs bs.length))
  | giveUp {dst n bs} : s.r = s.w → k = true →
      Does s k (.read dst n bs) (.leave s (.ret bs (-1)))
  | wait {dst n bs} : s.r = s.w → Does s k (.read dst n bs) (.wait .r s (.read dst n bs))
  | eof {dst} {n : ℤ} {bs : List UInt8} : bs.length < n → s.r ≠ s.w → s.next = C 'D' →
      Does s k (.read dst n bs)
        (.leave (if 0 < bs.length then s else s.take) (.ret bs bs.length))
  | fault {dst} {n : ℤ} {bs : List UInt8} : bs.length < n → s.r ≠ s.w → s.next ≠ C 'D' →
      dst bs.length = false → Does s k (.read dst n bs) (.leave s.take (.ret bs bs.length))
  | line {dst} {n : ℤ} {bs : List UInt8} : bs.length < n → s.r ≠ s.w → s.next ≠ C 'D' →
      s.next = '\n'.toUInt8 →
      Does s k (.read dst n bs) (.leave s.take (.ret (bs ++ [s.next]) (bs.length + 1)))
  | byte {dst} {n : ℤ} {bs : List UInt8} : bs.length < n → s.r ≠ s.w → s.next ≠ C 'D' →
      s.next ≠ '\n'.toUInt8 →
      Does s k (.read dst n bs) (.work s.take (.read dst n (bs ++ [s.next])))
  | kill {l} : Loc.Kills l → s.e ≠ s.w → Does s k l (.work s.erase .killing)
  | killed {l} : Loc.Kills l → s.e = s.w ∨ s.last = '\n'.toUInt8 → Does s k l (.leave s .done)
  | rubout {c : UInt8} : c = C 'H' ∨ c = '\x7f'.toUInt8 → s.e ≠ s.w →
      Does s k (.intr c) (.leave s.erase .done)
  | ignored {c : UInt8} : Ignored s c → Does s k (.intr c) (.leave s .done)
  | store {c : UInt8} : Typed c → s.e - s.r < INPUT_BUF_SIZE → ¬ Ends s c →
      Does s k (.intr c) (.leave (s.store (cooked c)) .done)
  | commit {c : UInt8} : Typed c → s.e - s.r < INPUT_BUF_SIZE → Ends s c →
      Does s k (.intr c) (.wake .r (s.store (cooked c)).commit .stored)
  | stored : Does s k .stored (.leave s .done)

variable {k : Bool}

theorem consolereadRound_does {dst : ℕ → Bool} {n : ℤ} {bs : List UInt8} :
    Does s k (.read dst n bs) (s.consolereadRound dst n bs k) := by
  unfold consolereadRound
  split
  · rename_i hn
    split
    · rename_i he
      split
      · rename_i hk
        exact .giveUp he hk
      · exact .wait he
    · rename_i hne
      split
      · rename_i hD
        exact .eof hn hne hD
      · rename_i hD
        split
        · rename_i hdst
          exact .fault hn hne hD (by simpa using hdst)
        · split
          · rename_i hline
            exact .line hn hne hD hline
          · rename_i hline
            exact .byte hn hne hD hline
  · rename_i hn
    exact .asked (by omega)

theorem killLine_does {l : Loc} (hl : l.Kills) : Does s k l s.killLine := by
  unfold killLine
  split
  · rename_i hc
    exact .kill hl hc.1
  · rename_i hc
    refine .killed hl ?_
    by_cases he : s.e = s.w
    · exact .inl he
    · exact .inr (by simpa [he] using hc)

theorem consoleintr_does : Does s k (.intr c) (s.consoleintr c) := by
  unfold consoleintr
  split
  · rename_i hP
    exact .ignored (.inl hP)
  · rename_i hP
    split
    · rename_i hU
      exact killLine_does (.inl (by rw [hU]))
    · rename_i hU
      split
      · rename_i hH
        split
        · rename_i he
          exact .rubout hH he
        · rename_i he
          exact .ignored (.inr (.inl ⟨hH, by simpa using he⟩))
      · rename_i hH
        split
        · rename_i hroom
          have htyped : Typed c := ⟨hP, hU, hH, hroom.1⟩
          simp only
          split
          · rename_i hend
            exact .commit htyped hroom.2 hend
          · rename_i hend
            exact .store htyped hroom.2 hend
        · rename_i hroom
          refine .ignored (.inr (.inr ⟨hU, hH, ?_⟩))
          by_cases hc : c = 0
          · exact .inl hc
          · exact .inr (by simpa [hc] using hroom)

theorem inside_does {l : Loc} {i : Input} {o : Out Cons Loc Chan} (h : inside l s i = some o) :
    ∃ k, i = .killed k ∧ Does s k l o := by
  cases i with
  | call c => cases h
  | killed k =>
    refine ⟨k, rfl, ?_⟩
    cases l with
    | read dst n bs =>
      cases h
      exact consolereadRound_does
    | intr c =>
      cases h
      exact consoleintr_does
    | killing =>
      cases h
      exact killLine_does (.inr rfl)
    | stored =>
      cases h
      exact .stored
    | idle => cases h
    | ret bs r => cases h
    | done => cases h

theorem outside_shared {l l' : Loc} {s' : Cons} {i : Input} (h : outside l s i = some (s', l')) :
    s' = s ∧ ∃ c, i = .call c ∧ l' = c.start := by
  cases i with
  | call c =>
    cases l <;> simp only [outside, Option.some_inj, Prod.mk.injEq, reduceCtorEq] at h
    all_goals exact ⟨h.1.symm, c, rfl, h.2.symm⟩
  | killed k => cases h

end Cons

end Xv6
