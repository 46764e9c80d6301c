/-
Signed 32-bit counters.

A counter that is only incremented below `INT_MAX` grows with every increment.

* `Counter.toInt_add_one` — the increment, as an integer;
* `Counter.lt_add_one_iff` and `Counter.add_one_le_iff` — the order around the next value.
-/
import Mathlib.Data.Int.Notation

namespace Counter

variable {x y : Int32}

theorem toInt_add_one (h : x ≠ Int32.maxValue) : (x + 1).toInt = x.toInt + 1 := by
  have hlo := x.le_toInt
  have hhi := x.toInt_lt
  have hne : x.toInt ≠ 2 ^ 31 - 1 := fun e => h (Int32.toInt_inj.mp e)
  rw [Int32.toInt_add]
  exact Int.bmod_eq_of_le (by simp; omega) (by simp; omega)

theorem lt_add_one_iff (h : x ≠ Int32.maxValue) : y < x + 1 ↔ y ≤ x := by
  rw [Int32.lt_iff_toInt_lt, Int32.le_iff_toInt_le, toInt_add_one h]
  omega

theorem add_one_le_iff (h : x ≠ Int32.maxValue) : x + 1 ≤ y ↔ x < y := by
  rw [Int32.lt_iff_toInt_lt, Int32.le_iff_toInt_le, toInt_add_one h]
  omega

end Counter
