/-
The rings hold the deques.

`Represents r d` says that the rings `r` hold the deques `d`: the indices are in
range, `tail` is `head + len` modulo `NPROC`, and the slots of each row from
`head` on are the list.  `push` and `pop` keep it (`Represents.pushTail`,
`Represents.pushHead`, `Represents.popHead`), with one exception: C's `%`
truncates toward zero, so `push(p,q,0)` with `head[q]` equal to 0 writes
`mlfqi[q][-1]`, a slot of the row before, and leaves `head[q]` at -1.
-/
import CshellXv6.Lib.CircularBuffer
import CshellXv6.Mlfq.Queue

namespace Mlfq

open CircularBuffer

/-- Row `q` of the block, as the slots `mlfqi[q][i]`. -/
def Rings.row (r : Rings) (q : Level) (i : ℤ) : Option ProcId := r.mlfqi (Rings.cell q i)

/-- Ring `q` holds the list `xs`. -/
structure RowHolds (r : Rings) (q : Level) (xs : List ProcId) : Prop where
  head_nonneg : 0 ≤ r.head q
  head_lt : r.head q < NPROC
  len : r.len q = xs.length
  len_le : xs.length ≤ NPROC
  tail : r.tail q = (r.head q + r.len q) % NPROC
  slots : Holds NPROC (r.row q) (r.head q) xs

/-- The rings `r` hold the deques `d`. -/
def Represents (r : Rings) (d : Deques) : Prop := ∀ q, RowHolds r q (d q)

theorem represents_zero : Represents Rings.zero fun _ => [] := fun q =>
  { head_nonneg := le_rfl
    head_lt := by show (0 : ℤ) < NPROC; decide
    len := rfl
    len_le := Nat.zero_le _
    tail := rfl
    slots := Holds.nil }

theorem slot_range (i : ℤ) : 0 ≤ i % NPROC ∧ i % NPROC < NPROC :=
  ⟨Int.emod_nonneg _ (by decide), Int.emod_lt_of_pos _ (by decide)⟩

theorem RowHolds.tail_range {r : Rings} {q : Level} {xs : List ProcId} (h : RowHolds r q xs) :
    0 ≤ r.tail q ∧ r.tail q < NPROC := by
  rw [h.tail]
  exact slot_range _

/-- Rows do not overlap inside their range. -/
theorem cell_inj {q q' : Level} {i j : ℤ} (hi : 0 ≤ i ∧ i < NPROC) (hj : 0 ≤ j ∧ j < NPROC)
    (h : Rings.cell q i = Rings.cell q' j) : q = q' ∧ i = j := by
  have hn : ((NPROC : ℕ) : ℤ) = 64 := rfl
  simp only [Rings.cell, hn] at h hi hj
  have hq : (q : ℕ) = q' := by omega
  exact ⟨Fin.ext hq, by omega⟩

/-- A write to a slot of its own row in range changes that slot. -/
theorem row_write {r r' : Rings} {q : Level} {i : ℤ} {v : Option ProcId}
    (hw : r'.mlfqi = Function.update r.mlfqi (Rings.cell q i) v) (hi : 0 ≤ i ∧ i < NPROC)
    {j : ℤ} (hj : 0 ≤ j ∧ j < NPROC) : r'.row q j = Function.update (r.row q) i v j := by
  rw [Rings.row, hw]
  by_cases hji : j = i
  · subst hji
    simp
  · have hne : Rings.cell q j ≠ Rings.cell q i := fun he => hji (cell_inj hj hi he).2
    rw [Function.update_of_ne hne, Function.update_of_ne hji]
    rfl

/-- A write to a slot in range leaves the other rows alone. -/
theorem row_write_other {r r' : Rings} {q q' : Level} {i : ℤ} {v : Option ProcId}
    (hw : r'.mlfqi = Function.update r.mlfqi (Rings.cell q i) v) (hi : 0 ≤ i ∧ i < NPROC)
    (hq : q' ≠ q) {j : ℤ} (hj : 0 ≤ j ∧ j < NPROC) : r'.row q' j = r.row q' j := by
  have hne : Rings.cell q' j ≠ Rings.cell q i := fun he => hq (cell_inj hj hi he).1
  rw [Rings.row, hw, Function.update_of_ne hne]
  rfl

/-- A ring whose indices and slots are left alone. -/
theorem RowHolds.frame {r r' : Rings} {q : Level} {xs : List ProcId} (h : RowHolds r q xs)
    (hh : r'.head q = r.head q) (ht : r'.tail q = r.tail q) (hl : r'.len q = r.len q)
    (hs : ∀ j : ℤ, 0 ≤ j ∧ j < NPROC → r'.row q j = r.row q j) : RowHolds r' q xs where
  head_nonneg := hh ▸ h.head_nonneg
  head_lt := hh ▸ h.head_lt
  len := hl ▸ h.len
  len_le := h.len_le
  tail := by rw [ht, hh, hl, h.tail]
  slots := by
    rw [hh]
    exact h.slots.congr fun i _ => hs _ (slot_range _)

/-- What a call writes into `mlfqi`: nothing, or a slot in range of the row of
the queue it pushes to. -/
def Rings.WritesInRow (r r' : Rings) : Prop :=
  r'.mlfqi = r.mlfqi ∨ ∃ (q : Level) (i : ℤ) (p : ProcId), 0 ≤ i ∧ i < NPROC ∧
    r'.len q = r.len q + 1 ∧ r'.mlfqi = Function.update r.mlfqi (Rings.cell q i) (some p)

/-! ### `push` and `pop` -/

theorem Represents.pushTail {r : Rings} {d : Deques} (h : Represents r d) {q : Level} {p : ProcId}
    (hlt : (d q).length < NPROC) :
    Represents (r.pushTail q p) (Function.update d q (d q ++ [p])) := by
  have ht := (h q).tail_range
  have hw : (r.pushTail q p).mlfqi =
    Function.update r.mlfqi (Rings.cell q (r.tail q)) (some p) := rfl
  intro q'
  by_cases hq : q' = q
  · subst hq
    rw [Function.update_self]
    have hlen : (r.pushTail q' p).len q' = r.len q' + 1 := Function.update_self ..
    have htail : (r.pushTail q' p).tail q' = (r.tail q' + 1).tmod NPROC := Function.update_self ..
    refine ⟨(h q').head_nonneg, (h q').head_lt, ?_, ?_, ?_, ?_⟩
    · rw [hlen, (h q').len]
      simp
    · rw [List.length_append, List.length_singleton]
      exact hlt
    · rw [htail, hlen, Int.tmod_eq_emod_of_nonneg (by omega), (h q').tail, Int.emod_add_emod,
        add_assoc]
      rfl
    · refine ((h q').slots.append hlt p).congr ?_
      intro i _
      rw [row_write hw ht (slot_range _), (h q').tail, (h q').len]
  · rw [Function.update_of_ne hq]
    exact (h q').frame rfl (Function.update_of_ne hq ..) (Function.update_of_ne hq ..)
      fun j hj => row_write_other hw ht hq hj

/-- Away from index 0 the head push writes the slot before the head. -/
theorem headSlot_eq {r : Rings} {q : Level} (h : 0 < r.head q) (hlt : r.head q < NPROC) :
    r.headSlot q = r.head q - 1 ∧ (r.head q - 1) % NPROC = r.head q - 1 := by
  have hm : (r.head q - 1) % NPROC = r.head q - 1 := Int.emod_eq_of_lt (by omega) (by omega)
  refine ⟨?_, hm⟩
  rw [Rings.headSlot, Int.tmod_eq_emod_of_nonneg (by omega), hm]

theorem Represents.pushHead {r : Rings} {d : Deques} (h : Represents r d) {q : Level} {p : ProcId}
    (hlt : (d q).length < NPROC) (hh : r.head q ≠ 0) :
    Represents (r.pushHead q p) (Function.update d q (p :: d q)) := by
  have h₀ := (h q).head_nonneg
  have h₁ := (h q).head_lt
  obtain ⟨hslot, hmod⟩ := headSlot_eq (q := q) (by omega) h₁
  have hr : 0 ≤ r.head q - 1 ∧ r.head q - 1 < NPROC := by omega
  have hw : (r.pushHead q p).mlfqi =
      Function.update r.mlfqi (Rings.cell q (r.head q - 1)) (some p) := by
    rw [← hslot]
    rfl
  intro q'
  by_cases hq : q' = q
  · subst hq
    rw [Function.update_self]
    have hlen : (r.pushHead q' p).len q' = r.len q' + 1 := Function.update_self ..
    have hhead : (r.pushHead q' p).head q' = r.head q' - 1 := by
      rw [← hslot]
      exact Function.update_self ..
    have htail : (r.pushHead q' p).tail q' = r.tail q' := rfl
    refine ⟨hhead ▸ hr.1, hhead ▸ hr.2, ?_, hlt, ?_, ?_⟩
    · rw [hlen, (h q').len]
      simp
    · rw [htail, hhead, hlen, (h q').tail]
      congr 1
      ring
    · rw [hhead]
      refine ((h q').slots.cons hlt p).congr ?_
      intro i _
      rw [row_write hw hr (slot_range _), hmod]
  · rw [Function.update_of_ne hq]
    exact (h q').frame (Function.update_of_ne hq ..) rfl (Function.update_of_ne hq ..)
      fun j hj => row_write_other hw hr hq hj

/-- `pop` takes the first element; it never meets a null slot. -/
theorem Represents.popHead {r : Rings} {d : Deques} (h : Represents r d) (q : Level) :
    ∃ o r' d', r.popHead q = some (o, r') ∧ dequeOps.popHead d q = some (o, d') ∧
      r'.mlfqi = r.mlfqi ∧ Represents r' d' := by
  have hlen := (h q).len
  cases hd : d q with
  | nil =>
    refine ⟨none, r, d, ?_, by simp [dequeOps, hd], rfl, h⟩
    rw [hd] at hlen
    simp [Rings.popHead, hlen]
  | cons p ps =>
    have hs := (h q).slots
    have hle := (h q).len_le
    rw [hd] at hs hlen hle
    obtain ⟨hp, hs⟩ := hs.tail
    have h₀ := (h q).head_nonneg
    rw [Int.emod_eq_of_lt h₀ (h q).head_lt] at hp
    -- the element at `head` is the first one, so no null slot is met
    have hne : r.len q ≠ 0 := by
      rw [hlen, List.length_cons]
      omega
    have hmod : (r.head q + 1).tmod NPROC = (r.head q + 1) % NPROC :=
      Int.tmod_eq_emod_of_nonneg (by omega)
    have hpop : r.popHead q = some (some p,
        { r with
          head := Function.update r.head q ((r.head q + 1) % NPROC)
          len := Function.update r.len q (r.len q - 1) }) := by
      rw [Rings.popHead, if_neg hne, ← Rings.row, hp, hmod]
    refine ⟨some p, _, Function.update d q ps, hpop, by simp [dequeOps, hd], rfl, ?_⟩
    intro q'
    by_cases hq : q' = q
    · subst hq
      rw [Function.update_self]
      have hl : r.len q' - 1 = ps.length := by
        rw [hlen]
        simp
      refine ⟨?_, ?_, ?_, Nat.le_of_succ_le hle, ?_, ?_⟩ <;> simp only [Function.update_self]
      · exact (slot_range _).1
      · exact (slot_range _).2
      · exact hl
      · rw [(h q').tail, Int.emod_add_emod]
        congr 1
        ring
      · exact hs.emod
    · rw [Function.update_of_ne hq]
      exact (h q').frame (Function.update_of_ne hq ..) rfl (Function.update_of_ne hq ..)
        fun j _ => rfl

end Mlfq
