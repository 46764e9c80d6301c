/-
Rings indexed by 32-bit counters.

A ring of `n` slots is filled at position `b % n` and emptied at `a % n`; the
counters `a` and `b` only ever step by one and wrap around, which `n` has to
divide.  The list in between is read and written at its ends.

* `CounterRing.Stores` — the slots from `a` up to `b` hold a list;
* `Stores.put`, `Stores.got` and `Stores.undo` — appending at `b`, taking from
  the front and taking back what was appended last.
-/
import CshellXv6.Lib.CircularBuffer
import Mathlib.Data.UInt

namespace CounterRing

variable {β : Type} {n : UInt32} {data : ℕ → β} {a b : UInt32} {xs : List β} {x : β}

/-- The ring holds `xs`, from `a` up to `b`. -/
structure Stores (n : UInt32) (data : ℕ → β) (a b : UInt32) (xs : List β) : Prop where
  room : xs.length ≤ n.toNat
  count : b = a + UInt32.ofNat xs.length
  slots : CircularBuffer.Holds n.toNat (fun z => some (data z.toNat)) a.toNat xs

theorem Stores.nil : Stores n data a a [] :=
  ⟨Nat.zero_le _, by simp, .nil⟩

/-- The counters tell the length. -/
theorem Stores.length_eq (h : Stores n data a b xs) : (b - a).toNat = xs.length := by
  have hroom := h.room
  have hlt := n.toNat_lt
  rw [h.count, add_sub_cancel_left, UInt32.toNat_ofNat']
  omega

theorem Stores.eq_nil_iff (h : Stores n data a b xs) : a = b ↔ xs = [] := by
  rw [← List.length_eq_zero_iff, ← h.length_eq]
  constructor
  · rintro rfl
    simp
  · intro hz
    have hsub : b - a = 0 := UInt32.toNat_inj.mp hz
    exact (sub_eq_zero.mp hsub).symm

theorem Stores.length_lt_iff (h : Stores n data a b xs) : xs.length < n.toNat ↔ b - a < n := by
  rw [UInt32.lt_iff_toNat_lt, h.length_eq]

theorem Stores.length_eq_iff (h : Stores n data a b xs) : xs.length = n.toNat ↔ b - a = n := by
  rw [← UInt32.toNat_inj, h.length_eq]

/-- The ring's size divides 2³², so that wrapping around does not move a slot. -/
theorem slot_add (hn : n.toNat ∣ 2 ^ 32) (a : UInt32) (k : ℕ) :
    (((a + UInt32.ofNat k) % n).toNat : ℤ) = (a.toNat + k : ℤ) % n.toNat := by
  have h : ((a + UInt32.ofNat k) % n).toNat = (a.toNat + k) % n.toNat := by
    rw [UInt32.toNat_mod, UInt32.toNat_add, UInt32.toNat_ofNat', Nat.mod_mod_of_dvd _ hn,
      Nat.add_mod, Nat.mod_mod_of_dvd _ hn, ← Nat.add_mod]
  rw [h]
  push_cast
  rfl

/-- Writing the array at a slot, seen by the integer positions of a circular
buffer. -/
theorem slots_update (d : ℕ → β) (k : ℕ) (x : β) {z : ℤ} (hz : 0 ≤ z) :
    some (Function.update d k x z.toNat) =
      Function.update (fun z : ℤ => some (d z.toNat)) (k : ℤ) (some x) z := by
  by_cases he : z = k
  · subst he
    simp
  · have hne : z.toNat ≠ k := by omega
    rw [Function.update_of_ne hne, Function.update_of_ne he]

/-- Appending: the slot of `b` is written, and `b` steps on. -/
theorem Stores.put (hn : n.toNat ∣ 2 ^ 32) (h : Stores n data a b xs)
    (hlt : xs.length < n.toNat) (x : β) :
    Stores n (Function.update data (b % n).toNat x) a (b + 1) (xs ++ [x]) := by
  refine ⟨by rw [List.length_append, List.length_singleton]; exact hlt, ?_, ?_⟩
  · rw [h.count, List.length_append, List.length_singleton, UInt32.ofNat_add, ← add_assoc]
    rfl
  · have hslot := slot_add hn a xs.length
    rw [← h.count] at hslot
    refine (h.slots.append hlt x).congr fun i _ => ?_
    have hpos : 0 ≤ (a.toNat + i : ℤ) % n.toNat := Int.emod_nonneg _ (by omega)
    have hupd := slots_update data (b % n).toNat x hpos
    rw [hslot] at hupd
    exact hupd

/-- Taking from the front: the slot of `a` is read, and `a` steps on. -/
theorem Stores.got (hn : n.toNat ∣ 2 ^ 32) (h : Stores n data a b (x :: xs)) :
    data (a % n).toNat = x ∧ Stores n data (a + 1) b xs := by
  have hroom := h.room
  rw [List.length_cons] at hroom
  obtain ⟨hx, htail⟩ := h.slots.tail
  refine ⟨?_, by omega, ?_, fun i hi => ?_⟩
  · have hslot : ((a % n).toNat : ℤ) = (a.toNat : ℤ) % n.toNat := by simp
    rw [← hslot, Int.toNat_natCast, Option.some_inj] at hx
    exact hx
  · rw [h.count, List.length_cons, Nat.add_comm, UInt32.ofNat_add, add_assoc]
    rfl
  · -- the counter may wrap around here
    have hsame : a + 1 + UInt32.ofNat i = a + UInt32.ofNat (i + 1) := by
      rw [Nat.add_comm i 1, UInt32.ofNat_add, add_assoc]
      rfl
    have hpos : ((a + 1).toNat + i : ℤ) % n.toNat = (a.toNat + 1 + i : ℤ) % n.toNat := by
      rw [← slot_add hn (a + 1) i, hsame, slot_add hn a (i + 1)]
      push_cast
      congr 1
      ring
    rw [← htail i hi, hpos]

/-- Taking back what was appended last: `b` steps back to its slot. -/
theorem Stores.undo (hn : n.toNat ∣ 2 ^ 32) (h : Stores n data a b (xs ++ [x])) :
    data ((b - 1) % n).toNat = x ∧ Stores n data a (b - 1) xs := by
  have hroom := h.room
  rw [List.length_append, List.length_singleton] at hroom
  have hb : b - 1 = a + UInt32.ofNat xs.length := by
    rw [h.count, List.length_append, List.length_singleton, UInt32.ofNat_add, ← add_assoc]
    exact add_sub_cancel_right _ _
  refine ⟨?_, by omega, hb, fun i hi => ?_⟩
  · have hslot : some (data ((a.toNat + xs.length : ℤ) % n.toNat).toNat) =
        (xs ++ [x])[xs.length]? := h.slots xs.length (by simp)
    rw [← slot_add hn a xs.length, Int.toNat_natCast, ← hb, List.getElem?_append_right le_rfl,
      Nat.sub_self] at hslot
    exact Option.some_inj.mp hslot
  · rw [h.slots i (by rw [List.length_append]; omega), List.getElem?_append_left hi]

/-- A counter in between splits the list. -/
theorem Stores.split {c : UInt32} {ys : List β} (hn : n.toNat ∣ 2 ^ 32)
    (h : Stores n data a b (xs ++ ys)) (hc : c = a + UInt32.ofNat xs.length) :
    Stores n data a c xs ∧ Stores n data c b ys := by
  have hroom := h.room
  rw [List.length_append] at hroom
  refine ⟨⟨by omega, hc, fun i hi => ?_⟩, ⟨by omega, ?_, fun i hi => ?_⟩⟩
  · rw [h.slots i (by rw [List.length_append]; omega), List.getElem?_append_left hi]
  · rw [h.count, hc, List.length_append, UInt32.ofNat_add, add_assoc]
  · have hslot := h.slots (xs.length + i) (by rw [List.length_append]; omega)
    rw [List.getElem?_append_right (by omega), Nat.add_sub_cancel_left] at hslot
    rw [← hslot, ← slot_add hn c i, hc, add_assoc, ← UInt32.ofNat_add, slot_add hn]

end CounterRing
