/-
The summary of `snoop` (`c-shell/src/bins.c`).

`snoop` resumes the process it traces until the next stop, over and over.  A
stop for a system call has the signal `SIGTRAP|0x80`; such stops come in turn
for the entry and the exit, and the code toggles `in_syscall` at each.  At an
exit the call is entered in a table by its number.  In the end the table is
sorted and printed.

A number that is new gets a row with no calls and no time, and the call it
came with is not counted: a row is one call short, and its time is that of the
later calls.

* `snoopLoop`, `table` — the loop and the printed rows;
* `Tallied.record` — what a completed call does to the table;
* `table_summary` — what the table says of a trace;
* `summary_iff` — exactly when it says what it is meant to say.
-/
import Mathlib.Algebra.Order.Field.Rat
import Mathlib.Data.List.Nodup
import Mathlib.Data.List.Pairwise
import Mathlib.Data.Finset.Card
import CshellXv6.Lib.CString
import CshellXv6.Lib.InsertionSort
import CshellXv6.Shell.Lexer

namespace Cshell

namespace Snoop

/-- `struct timespec`. -/
structure Time where
  sec : ℤ
  nsec : ℤ
  deriving DecidableEq, Repr

/-- `passed`, exact. -/
def passed (entry now : Time) : ℚ := (now.sec - entry.sec : ℤ) + (now.nsec - entry.nsec : ℤ) / 1000000000

/-- `struct syscalls`: a row of the table. -/
structure Row where
  num : ℤ
  calls : ℕ
  tt : ℚ
  first : ℕ
  deriving DecidableEq, Repr

/-- The end of the branch for an exit: the table and `order`, with the call entered. -/
def record (info : List Row) (order : ℕ) (cur : ℤ) (t : ℚ) : List Row × ℕ :=
  match info.findIdx? (·.num = cur) with
  | none =>
    if info.length < 1024 then (info ++ [⟨cur, 0, 0, order + 1⟩], order + 1) else (info, order)
  | some id =>
    (info.modify id fun r => { r with calls := r.calls + 1, tt := r.tt + t }, order)

/-- The variables of the loop. -/
structure State where
  info : List Row
  order : ℕ
  inSyscall : Bool
  cur : ℤ
  entryTime : Time
  pending : ℕ
  deriving DecidableEq, Repr

def start : State := ⟨[], 0, false, -1, ⟨0, 0⟩, 0⟩

/-- `SIGTRAP|0x80`. -/
def sysTrap : ℕ := 0x85

/-- What a turn of the loop gets: the calls fail or the process is gone, or it has
stopped with a signal, with `orig_rax` and the clock at that time, or neither. -/
inductive Wait
  | failed
  | exited
  | signaled
  | other
  | stopped (sig : ℕ) (rax : ℤ) (now : Time)
  deriving DecidableEq, Repr

/-- A turn of the loop after a stop. -/
def stopped (s : State) (sig : ℕ) (rax : ℤ) (now : Time) : State :=
  if sig ≠ sysTrap then { s with pending := sig }
  else if !s.inSyscall then
    { s with pending := 0, inSyscall := true, cur := rax, entryTime := now }
  else
    let r := record s.info s.order s.cur (passed s.entryTime now)
    { s with pending := 0, inSyscall := false, info := r.1, order := r.2 }

/-- The loop. -/
def snoopLoop : List Wait → State → State
  | [], s => s
  | .failed :: _, s | .exited :: _, s | .signaled :: _, s => s
  | .other :: ws, s => snoopLoop ws { s with pending := 0 }
  | .stopped sig rax now :: ws, s => snoopLoop ws (stopped s sig rax now)

/-- The condition of the sort: `x` is moved up for `k`. -/
def movesUp (x k : Row) : Bool := x.calls < k.calls || (x.calls = k.calls && k.first < x.first)

/-- The rows in the order in which they are printed. -/
def table (ws : List Wait) : List Row := InsertionSort.sort movesUp (snoopLoop ws start).info

/-! ### What the table is meant to say -/

/-- A stop of the traced process. -/
inductive Stop
  | entry (num : ℤ) (now : Time)
  | exit (rax : ℤ) (now : Time)
  | signal (sig : ℕ) (h : sig ≠ sysTrap) (rax : ℤ) (now : Time)

/-- The stop as `waitpid` reports it. -/
def Stop.wait : Stop → Wait
  | .entry num now => .stopped sysTrap num now
  | .exit rax now => .stopped sysTrap rax now
  | .signal sig _ rax now => .stopped sig rax now

/-- Entries and exits alternate; `inside` says that the next one is an exit. -/
def Alternates : Bool → List Stop → Prop
  | _, [] => True
  | inside, .entry _ _ :: l => inside = false ∧ Alternates true l
  | inside, .exit _ _ :: l => inside = true ∧ Alternates false l
  | inside, .signal _ _ _ _ :: l => Alternates inside l

/-- The calls that complete, with their durations; `cur` is the one that is under
way. -/
def completed : Option (ℤ × Time) → List Stop → List (ℤ × ℚ)
  | _, [] => []
  | _, .entry num now :: l => completed (some (num, now)) l
  | some (num, t), .exit _ now :: l => (num, passed t now) :: completed none l
  | none, .exit _ _ :: l => completed none l
  | cur, .signal _ _ _ _ :: l => completed cur l

/-- The durations of the calls of one number. -/
def durations (ps : List (ℤ × ℚ)) (n : ℤ) : List ℚ := (ps.filter (·.1 = n)).map Prod.snd

/-- When a number completes for the first time. -/
def firstIdx (ps : List (ℤ × ℚ)) (n : ℤ) : ℕ := (ps.map Prod.fst).idxOf n

/-- The rows have one entry for each number that completes, with the number and the
time of the calls that `counted` takes of them, the number of calls descending
and ties by the first completion. -/
structure Summary (counted : List ℚ → List ℚ) (ps : List (ℤ × ℚ)) (rows : List Row) : Prop where
  nodup : (rows.map Row.num).Nodup
  mem : ∀ n, n ∈ rows.map Row.num ↔ n ∈ ps.map Prod.fst
  calls : ∀ r ∈ rows, r.calls = (counted (durations ps r.num)).length
  time : ∀ r ∈ rows, r.tt = (counted (durations ps r.num)).sum
  sorted : rows.Pairwise fun r s =>
    s.calls < r.calls ∨ r.calls = s.calls ∧ firstIdx ps r.num < firstIdx ps s.num

/-! ### Entering a call -/

/-- The table after the calls `ps`, one call short in each row. -/
structure Tallied (ps : List (ℤ × ℚ)) (info : List Row) (order : ℕ) : Prop where
  length : info.length ≤ 1024
  mem : ∀ r ∈ info, r.num ∈ ps.map Prod.fst
  all : info.length < 1024 → ∀ n ∈ ps.map Prod.fst, n ∈ info.map Row.num
  order : ∀ r ∈ info, r.first ≤ order
  sorted : info.Pairwise fun r s => r.first < s.first ∧ firstIdx ps r.num < firstIdx ps s.num
  calls : ∀ r ∈ info, r.calls = (durations ps r.num).tail.length
  time : ∀ r ∈ info, r.tt = (durations ps r.num).tail.sum

theorem tallied_nil : Tallied [] [] 0 := by
  constructor <;> simp

theorem durations_concat (ps : List (ℤ × ℚ)) (n : ℤ) (t : ℚ) (m : ℤ) :
    durations (ps ++ [(n, t)]) m = durations ps m ++ if n = m then [t] else [] := by
  by_cases h : n = m
  · simp [durations, h]
  · simp [durations, h]

theorem durations_ne (ps : List (ℤ × ℚ)) {n m : ℤ} (t : ℚ) (h : n ≠ m) :
    durations (ps ++ [(n, t)]) m = durations ps m := by
  rw [durations_concat, if_neg h, List.append_nil]

theorem durations_eq_nil {ps : List (ℤ × ℚ)} {n : ℤ} :
    durations ps n = [] ↔ n ∉ ps.map Prod.fst := by
  simp only [durations, List.map_eq_nil_iff, List.filter_eq_nil_iff, List.mem_map, not_exists, not_and]
  constructor
  · intro h p hp he
    exact h p hp (by simpa using he)
  · intro h p hp he
    exact h p hp (by simpa using he)

/-- The first completion of a number that is there does not change. -/
theorem firstIdx_concat {ps : List (ℤ × ℚ)} {m : ℤ} (h : m ∈ ps.map Prod.fst) (p : ℤ × ℚ) :
    firstIdx (ps ++ [p]) m = firstIdx ps m := by
  rw [firstIdx, List.map_append, List.idxOf_append_of_mem h]
  rfl

theorem firstIdx_lt {ps : List (ℤ × ℚ)} {m : ℤ} (h : m ∈ ps.map Prod.fst) :
    firstIdx ps m < ps.length := by
  have hlt := List.idxOf_lt_length_of_mem h
  rwa [List.length_map] at hlt

theorem firstIdx_new {ps : List (ℤ × ℚ)} {p : ℤ × ℚ} (h : p.1 ∉ ps.map Prod.fst) :
    firstIdx (ps ++ [p]) p.1 = ps.length := by
  rw [firstIdx, List.map_append, List.idxOf_append_of_notMem h]
  simp

theorem Tallied.nodup {ps : List (ℤ × ℚ)} {info : List Row} {order : ℕ} (h : Tallied ps info order) :
    (info.map Row.num).Nodup := by
  refine List.pairwise_map.mpr (h.sorted.imp ?_)
  intro r s hrs he
  rw [he] at hrs
  exact absurd hrs.2 (Nat.lt_irrefl _)

theorem ne_of_notMem {info : List Row} {n : ℤ} (hn : n ∉ info.map Row.num) {r : Row}
    (hr : r ∈ info) : n ≠ r.num := by
  rintro rfl
  exact hn (List.mem_map_of_mem hr)

/-- The row that is found is the only one of its number. -/
theorem modify_eq_map {info : List Row} {n : ℤ} {id : ℕ} (hn : (info.map Row.num).Nodup)
    (h : info.findIdx? (·.num = n) = some id) (f : Row → Row) :
    info.modify id f = info.map fun r => if r.num = n then f r else r := by
  obtain ⟨hlt, hid, -⟩ := List.findIdx?_eq_some_iff_getElem.mp h
  apply List.ext_getElem?
  intro j
  rw [List.getElem?_modify, List.getElem?_map]
  cases hj : info[j]? with
  | none => rfl
  | some r =>
    obtain ⟨hjlt, rfl⟩ := List.getElem?_eq_some_iff.mp hj
    by_cases he : id = j
    · subst he
      have hnum : info[id].num = n := by simpa using hid
      simp [hnum]
    · have hne : info[j].num ≠ n := by
        intro hnum
        have hids : info[id].num = info[j].num := by
          rw [hnum]
          simpa using hid
        have hpair := List.pairwise_iff_getElem.mp (List.pairwise_map.mp hn)
        rcases Nat.lt_or_gt_of_ne he with hlt' | hgt
        · exact hpair id j hlt hjlt hlt' hids
        · exact hpair j id hjlt hlt hgt hids.symm
      simp [he, hne]

section Record

variable {ps : List (ℤ × ℚ)} {info : List Row} {order : ℕ} {n : ℤ} (h : Tallied ps info order) (t : ℚ)
include h

/-- What a call does not change: the rows stay in the order of their first
completion. -/
theorem Tallied.sorted_concat (p : ℤ × ℚ) : info.Pairwise fun r s =>
    r.first < s.first ∧ firstIdx (ps ++ [p]) r.num < firstIdx (ps ++ [p]) s.num := by
  refine h.sorted.imp_of_mem ?_
  intro r s hr hs hrs
  rw [firstIdx_concat (h.mem r hr), firstIdx_concat (h.mem s hs)]
  exact hrs

/-- A call of another number leaves what a row says. -/
theorem Tallied.other {r : Row} (hr : r ∈ info) (hne : n ≠ r.num) :
    r.calls = (durations (ps ++ [(n, t)]) r.num).tail.length ∧
      r.tt = (durations (ps ++ [(n, t)]) r.num).tail.sum := by
  rw [durations_ne ps t hne]
  exact ⟨h.calls r hr, h.time r hr⟩

/-- A call of a number that has a row. -/
theorem Tallied.old (hn : n ∈ info.map Row.num) :
    Tallied (ps ++ [(n, t)])
      (info.map fun r => if r.num = n then { r with calls := r.calls + 1, tt := r.tt + t } else r)
      order := by
  have hps : n ∈ ps.map Prod.fst := by
    obtain ⟨r, hr, rfl⟩ := List.mem_map.mp hn
    exact h.mem r hr
  have hnum : ∀ r : Row,
      (if r.num = n then { r with calls := r.calls + 1, tt := r.tt + t } else r).num = r.num := by
    intro r
    split <;> rfl
  have hfirst : ∀ r : Row,
      (if r.num = n then { r with calls := r.calls + 1, tt := r.tt + t } else r).first = r.first := by
    intro r
    split <;> rfl
  -- the durations of the number were not empty, so the new one is a later one
  have hdur : (durations (ps ++ [(n, t)]) n).tail = (durations ps n).tail ++ [t] := by
    obtain ⟨d, ds, hd⟩ := List.exists_cons_of_ne_nil (mt durations_eq_nil.mp (not_not_intro hps))
    rw [durations_concat, if_pos rfl, hd]
    rfl
  refine ⟨?_, ?_, ?_, ?_, ?_, ?_, ?_⟩
  · rw [List.length_map]
    exact h.length
  · intro r hr
    obtain ⟨r, hr', rfl⟩ := List.mem_map.mp hr
    rw [hnum, List.map_append]
    exact List.mem_append_left _ (h.mem r hr')
  · intro hlt m hm
    rw [List.length_map] at hlt
    have hm' : m ∈ ps.map Prod.fst := by
      rw [List.map_append] at hm
      rcases List.mem_append.mp hm with hm | hm
      · exact hm
      · rw [List.mem_singleton.mp hm]
        exact hps
    simp only [List.map_map, Function.comp_def, hnum]
    exact h.all hlt m hm'
  · intro r hr
    obtain ⟨r, hr', rfl⟩ := List.mem_map.mp hr
    rw [hfirst]
    exact h.order r hr'
  · refine List.pairwise_map.mpr ((h.sorted_concat (n, t)).imp ?_)
    intro r s hrs
    simp only [hnum, hfirst]
    exact hrs
  · intro r hr
    obtain ⟨r, hr', rfl⟩ := List.mem_map.mp hr
    rw [hnum]
    by_cases he : r.num = n
    · rw [if_pos he, he, hdur, List.length_append, ← he, ← h.calls r hr']
      rfl
    · rw [if_neg he]
      exact (h.other t hr' (Ne.symm he)).1
  · intro r hr
    obtain ⟨r, hr', rfl⟩ := List.mem_map.mp hr
    rw [hnum]
    by_cases he : r.num = n
    · rw [if_pos he, he, hdur, List.sum_append, ← he, ← h.time r hr', List.sum_singleton]
    · rw [if_neg he]
      exact (h.other t hr' (Ne.symm he)).2

/-- A call of a new number gets a row without calls. -/
theorem Tallied.new (hlt : info.length < 1024) (hn : n ∉ info.map Row.num) :
    Tallied (ps ++ [(n, t)]) (info ++ [⟨n, 0, 0, order + 1⟩]) (order + 1) := by
  have hps : n ∉ ps.map Prod.fst := fun hm => hn (h.all hlt n hm)
  -- the first call of a number is not counted, so a row with no calls is right
  have hdur : (durations (ps ++ [(n, t)]) n).tail = [] := by
    rw [durations_concat, if_pos rfl, durations_eq_nil.mpr hps]
    rfl
  refine ⟨?_, ?_, ?_, ?_, ?_, ?_, ?_⟩
  · rw [List.length_append, List.length_singleton]
    omega
  · intro r hr
    rw [List.map_append]
    rcases List.mem_append.mp hr with hr | hr
    · exact List.mem_append_left _ (h.mem r hr)
    · rw [List.mem_singleton.mp hr]
      exact List.mem_append_right _ List.mem_cons_self
  · intro _ m hm
    rw [List.map_append] at hm ⊢
    rcases List.mem_append.mp hm with hm | hm
    · exact List.mem_append_left _ (h.all hlt m hm)
    · rw [List.mem_singleton.mp hm]
      exact List.mem_append_right _ List.mem_cons_self
  · intro r hr
    rcases List.mem_append.mp hr with hr | hr
    · exact Nat.le_succ_of_le (h.order r hr)
    · rw [List.mem_singleton.mp hr]
  · refine List.pairwise_append.mpr ⟨h.sorted_concat (n, t), List.pairwise_singleton _ _, ?_⟩
    intro r hr s hs
    rw [List.mem_singleton.mp hs]
    refine ⟨Nat.lt_succ_of_le (h.order r hr), ?_⟩
    show firstIdx _ r.num < firstIdx (ps ++ [(n, t)]) (n, t).1
    rw [firstIdx_concat (h.mem r hr), firstIdx_new hps]
    exact firstIdx_lt (h.mem r hr)
  · intro r hr
    rcases List.mem_append.mp hr with hr | hr
    · exact (h.other t hr (ne_of_notMem hn hr)).1
    · rw [List.mem_singleton.mp hr, hdur]
      rfl
  · intro r hr
    rcases List.mem_append.mp hr with hr | hr
    · exact (h.other t hr (ne_of_notMem hn hr)).2
    · rw [List.mem_singleton.mp hr, hdur]
      rfl

/-- A call of a number for which the table has no room. -/
theorem Tallied.full (hlt : ¬ info.length < 1024) (hn : n ∉ info.map Row.num) :
    Tallied (ps ++ [(n, t)]) info order := by
  refine ⟨h.length, ?_, fun hlt' => absurd hlt' hlt, h.order, h.sorted_concat (n, t), ?_, ?_⟩
  · intro r hr
    rw [List.map_append]
    exact List.mem_append_left _ (h.mem r hr)
  · exact fun r hr => (h.other t hr (ne_of_notMem hn hr)).1
  · exact fun r hr => (h.other t hr (ne_of_notMem hn hr)).2

/-- **What a completed call does to the table.** -/
theorem Tallied.record (n : ℤ) :
    Tallied (ps ++ [(n, t)]) (record info order n t).1 (record info order n t).2 := by
  rw [Snoop.record]
  split
  case h_1 hf =>
    have hn : n ∉ info.map Row.num := by
      intro hm
      obtain ⟨r, hr, rfl⟩ := List.mem_map.mp hm
      have := List.findIdx?_eq_none_iff.mp hf r hr
      simp at this
    split
    · exact h.new t ‹_› hn
    · exact h.full t ‹_› hn
  case h_2 id hf =>
    have hn : n ∈ info.map Row.num := by
      obtain ⟨hlt, hid, -⟩ := List.findIdx?_eq_some_iff_getElem.mp hf
      exact List.mem_map.mpr ⟨info[id], List.getElem_mem hlt, by simpa using hid⟩
    show Tallied _ (info.modify id _) order
    rw [modify_eq_map h.nodup hf]
    exact h.old t hn

end Record

/-! ### The loop and the table -/

/-- The call that is under way. -/
def State.current (s : State) : Option (ℤ × Time) :=
  if s.inSyscall then some (s.cur, s.entryTime) else none

/-- The loop over the stops of a trace enters the calls that complete. -/
theorem snoopLoop_tallied {stops : List Stop} {s : State} {ps : List (ℤ × ℚ)} (ws : List Wait)
    (ha : Alternates s.inSyscall stops) (h : Tallied ps s.info s.order) :
    ∃ s', snoopLoop (stops.map Stop.wait ++ ws) s = snoopLoop ws s' ∧
      Tallied (ps ++ completed s.current stops) s'.info s'.order := by
  induction stops generalizing s ps with
  | nil =>
    refine ⟨s, rfl, ?_⟩
    rw [completed, List.append_nil]
    exact h
  | cons x stops ih =>
    cases x with
    | entry num now =>
      obtain ⟨hin, ha⟩ := ha
      have hstep : stopped s sysTrap num now =
          { s with pending := 0, inSyscall := true, cur := num, entryTime := now } := by
        simp [stopped, hin]
      obtain ⟨s', hloop, ht⟩ :=
        @ih { s with pending := 0, inSyscall := true, cur := num, entryTime := now } ps ha h
      refine ⟨s', ?_, ?_⟩
      · rw [List.map_cons, List.cons_append, ← hloop, ← hstep]
        rfl
      · simpa [State.current, hin, completed] using ht
    | exit rax now =>
      -- the call that is under way completes, and is entered
      obtain ⟨hin, ha⟩ := ha
      have hstep : stopped s sysTrap rax now =
          { s with pending := 0, inSyscall := false,
                   info := (record s.info s.order s.cur (passed s.entryTime now)).1,
                   order := (record s.info s.order s.cur (passed s.entryTime now)).2 } := by
        simp [stopped, hin]
      obtain ⟨s', hloop, ht⟩ := @ih (stopped s sysTrap rax now)
        (ps ++ [(s.cur, passed s.entryTime now)]) (by rw [hstep]; exact ha)
        (by rw [hstep]; exact h.record (passed s.entryTime now) s.cur)
      refine ⟨s', ?_, ?_⟩
      · rw [List.map_cons, List.cons_append, ← hloop]
        rfl
      · rw [hstep] at ht
        simpa [State.current, hin, completed] using ht
    | signal sig hs rax now =>
      -- a signal is passed on; the call under way stays
      have hstep : stopped s sig rax now = { s with pending := sig } := by
        simp [stopped, hs]
      obtain ⟨s', hloop, ht⟩ := @ih { s with pending := sig } ps ha h
      refine ⟨s', ?_, ?_⟩
      · rw [List.map_cons, List.cons_append, ← hloop, ← hstep]
        rfl
      · have hcur : completed s.current (.signal sig hs rax now :: stops) =
            completed s.current stops := by
          cases s.current <;> rfl
        rw [hcur]
        exact ht

/-- The statuses that end the loop. -/
def Wait.ends : Wait → Bool
  | .failed | .exited | .signaled => true
  | .other | .stopped _ _ _ => false

/-- The calls that a trace completes. -/
def calls (stops : List Stop) : List (ℤ × ℚ) := completed none stops

theorem table_tallied {stops : List Stop} (ha : Alternates false stops) {last : Wait}
    (hl : last.ends = true) :
    ∃ info order, table (stops.map Stop.wait ++ [last]) = InsertionSort.sort movesUp info ∧
      Tallied (calls stops) info order := by
  obtain ⟨s, hloop, ht⟩ := @snoopLoop_tallied stops start [] [last] ha tallied_nil
  refine ⟨s.info, s.order, ?_, ht⟩
  rw [table, hloop]
  cases last <;> first | rfl | cases hl

/-- The order of the printed rows, with `first` in place of the first completion. -/
def InOrder (r s : Row) : Prop := s.calls < r.calls ∨ r.calls = s.calls ∧ r.first ≤ s.first

theorem sort_inOrder (info : List Row) : (InsertionSort.sort movesUp info).Pairwise InOrder := by
  refine InsertionSort.sort_pairwise ?_ ?_ ?_ info
  · intro a b c hab hbc
    simp only [InOrder] at hab hbc ⊢
    omega
  · intro x k h
    simp only [movesUp, Bool.or_eq_true, Bool.and_eq_true, decide_eq_true_eq] at h
    simp only [InOrder]
    omega
  · intro x k h
    simp only [movesUp, Bool.or_eq_false_iff, Bool.and_eq_false_iff, decide_eq_false_iff_not] at h
    simp only [InOrder]
    omega

/-- The numbers of the rows, when the table has room for all of them. -/
theorem Tallied.mem_iff {ps : List (ℤ × ℚ)} {info : List Row} {order : ℕ} (h : Tallied ps info order)
    (hd : (ps.map Prod.fst).toFinset.card ≤ 1024) (n : ℤ) :
    n ∈ info.map Row.num ↔ n ∈ ps.map Prod.fst := by
  have hsub : ∀ m ∈ info.map Row.num, m ∈ ps.map Prod.fst := by
    intro m hm
    obtain ⟨r, hr, rfl⟩ := List.mem_map.mp hm
    exact h.mem r hr
  refine ⟨hsub n, ?_⟩
  by_cases hlt : info.length < 1024
  · exact h.all hlt n
  · -- a full table has as many numbers as there are
    have hcard : (info.map Row.num).toFinset.card = info.length := by
      rw [List.toFinset_card_of_nodup h.nodup, List.length_map]
    have heq : (info.map Row.num).toFinset = (ps.map Prod.fst).toFinset := by
      refine Finset.eq_of_subset_of_card_le ?_ (by omega)
      intro m hm
      exact List.mem_toFinset.mpr (hsub m (List.mem_toFinset.mp hm))
    intro hm
    have hm' := List.mem_toFinset.mpr hm
    rw [← heq] at hm'
    exact List.mem_toFinset.mp hm'

/-- Of two rows the one that was entered first completed first. -/
theorem Tallied.first_le {ps : List (ℤ × ℚ)} {info : List Row} {order : ℕ} (h : Tallied ps info order)
    {r s : Row} (hr : r ∈ info) (hs : s ∈ info) (hne : r ≠ s) (hle : r.first ≤ s.first) :
    firstIdx ps r.num < firstIdx ps s.num := by
  let Apart (r s : Row) : Prop := r.first < s.first ∧ firstIdx ps r.num < firstIdx ps s.num ∨
    s.first < r.first ∧ firstIdx ps s.num < firstIdx ps r.num
  have hsymm : Std.Symm Apart := ⟨fun _ _ => Or.symm⟩
  have hapart : info.Pairwise Apart := h.sorted.imp Or.inl
  rcases hapart.forall hr hs hne with hlt | hlt
  · exact hlt.2
  · omega

/-- **What the table says of a trace**: the numbers that completed, each with all its
calls but the first, in the order of the calls and of the first completion. -/
theorem table_summary {stops : List Stop} (ha : Alternates false stops)
    (hd : ((calls stops).map Prod.fst).toFinset.card ≤ 1024) {last : Wait} (hl : last.ends = true) :
    Summary List.tail (calls stops) (table (stops.map Stop.wait ++ [last])) := by
  obtain ⟨info, order, htable, h⟩ := table_tallied ha hl
  have hperm : (table (stops.map Stop.wait ++ [last])).Perm info :=
    htable ▸ InsertionSort.sort_perm movesUp info
  have hnodup : (table (stops.map Stop.wait ++ [last])).Nodup :=
    hperm.nodup_iff.mpr (List.Nodup.of_map _ h.nodup)
  refine ⟨?_, ?_, ?_, ?_, ?_⟩
  · exact (hperm.map Row.num).nodup_iff.mpr h.nodup
  · intro n
    rw [(hperm.map Row.num).mem_iff]
    exact h.mem_iff hd n
  · exact fun r hr => h.calls r (hperm.mem_iff.mp hr)
  · exact fun r hr => h.time r (hperm.mem_iff.mp hr)
  · have hsorted := sort_inOrder info
    rw [← htable] at hsorted
    refine (hsorted.and hnodup).imp_of_mem ?_
    rintro r s hr hs ⟨hrs, hne⟩
    refine hrs.imp_right ?_
    rintro ⟨hc, hle⟩
    exact ⟨hc, h.first_le (hperm.mem_iff.mp hr) (hperm.mem_iff.mp hs) hne hle⟩

/-- **When the table counts every call**: for every trace in which entries and exits
alternate, with any other stops between them and at most 1024 numbers, the table
has a row for each number that completed, with the number of its calls, their
time, and the rows in order, if and only if no call completed at all. -/
theorem summary_iff {stops : List Stop} (ha : Alternates false stops)
    (hd : ((calls stops).map Prod.fst).toFinset.card ≤ 1024) {last : Wait} (hl : last.ends = true) :
    Summary id (calls stops) (table (stops.map Stop.wait ++ [last])) ↔ calls stops = [] := by
  have hcode := table_summary ha hd hl
  constructor
  · intro h
    by_contra hne
    obtain ⟨p, ps, hp⟩ := List.exists_cons_of_ne_nil hne
    -- the row of the first call is one short
    have hmem : p.1 ∈ (calls stops).map Prod.fst := by
      rw [hp]
      exact List.mem_cons_self
    obtain ⟨r, hr, hnum⟩ := List.mem_map.mp ((hcode.mem p.1).mpr hmem)
    have hcalls : (durations (calls stops) r.num).length =
        (durations (calls stops) r.num).tail.length := (h.calls r hr).symm.trans (hcode.calls r hr)
    have hdur : durations (calls stops) r.num ≠ [] :=
      mt durations_eq_nil.mp (not_not_intro (hnum ▸ hmem))
    have hpos := List.length_pos_of_ne_nil hdur
    rw [List.length_tail] at hcalls
    omega
  · intro h
    rw [h] at hcode ⊢
    refine ⟨hcode.nodup, hcode.mem, ?_, ?_, hcode.sorted⟩
    · intro r hr
      exact absurd ((hcode.mem r.num).mp (List.mem_map_of_mem hr)) (by simp)
    · intro r hr
      exact absurd ((hcode.mem r.num).mp (List.mem_map_of_mem hr)) (by simp)

/-- A signal, and a call that the process does not come back from. -/
theorem summary_unfinished :
    Summary id [] (table [.stopped 17 0 ⟨0, 0⟩, .stopped sysTrap 231 ⟨1, 0⟩, .exited]) :=
  (@summary_iff [.signal 17 (by decide) 0 ⟨0, 0⟩, .entry 231 ⟨1, 0⟩] ⟨rfl, trivial⟩ (by decide) .exited
    rfl).mpr rfl

/-- One call of `getpid`: its row says 0. -/
theorem one_call_not_counted :
    table [.stopped sysTrap 39 ⟨0, 0⟩, .stopped sysTrap 39 ⟨0, 500⟩, .exited] = [⟨39, 0, 0, 1⟩] ∧
      ¬ Summary id (calls [.entry 39 ⟨0, 0⟩, .exit 39 ⟨0, 500⟩])
        (table [.stopped sysTrap 39 ⟨0, 0⟩, .stopped sysTrap 39 ⟨0, 500⟩, .exited]) := by
  have htable : table [.stopped sysTrap 39 ⟨0, 0⟩, .stopped sysTrap 39 ⟨0, 500⟩, .exited] =
      [⟨39, 0, 0, 1⟩] := by decide
  refine ⟨htable, ?_⟩
  intro h
  rw [htable] at h
  exact absurd (h.calls _ List.mem_cons_self) (by decide)

end Snoop

end Cshell
