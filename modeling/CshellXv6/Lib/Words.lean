/-
Bytes as little-endian words of 32 bits.

* `word_setWord_self`, `word_setWord_of_ne` — writing a word and reading it, or
  another one;
* `splice_lt`, `splice_in`, `splice_ge` — a run of bytes put at a place.
-/
import Mathlib.Algebra.Group.Nat.Defs
import Mathlib.Data.List.Basic

namespace Words

/-- The `j`-th word. -/
def word (d : ℕ → UInt8) (j : ℕ) : ℕ :=
  (d (4 * j)).toNat + 256 * (d (4 * j + 1)).toNat + 256 ^ 2 * (d (4 * j + 2)).toNat +
    256 ^ 3 * (d (4 * j + 3)).toNat

/-- Write the `j`-th word. -/
def setWord (d : ℕ → UInt8) (j v : ℕ) (p : ℕ) : UInt8 :=
  if p / 4 = j then .ofNat (v / 256 ^ (p % 4)) else d p

/-- Put the bytes `bs` at place `a`. -/
def splice (d : ℕ → UInt8) (a : ℕ) (bs : List UInt8) (p : ℕ) : UInt8 :=
  if p < a then d p else bs.getD (p - a) (d p)

variable {d d' : ℕ → UInt8} {j k v a p : ℕ} {bs : List UInt8}

theorem word_zero (j : ℕ) : word (fun _ => 0) j = 0 := rfl

theorem word_setWord_self (hv : v < 2 ^ 32) : word (setWord d j v) j = v := by
  have hbyte : ∀ r < 4, (setWord d j v (4 * j + r)).toNat = v / 256 ^ r % 256 := by
    intro r hr
    have hq : (4 * j + r) / 4 = j := by omega
    have hm : (4 * j + r) % 4 = r := by omega
    rw [setWord, if_pos hq, hm, UInt8.toNat_ofNat']
  have h₀ := hbyte 0 (by decide)
  rw [Nat.add_zero] at h₀
  rw [word, h₀, hbyte 1 (by decide), hbyte 2 (by decide), hbyte 3 (by decide)]
  omega

theorem word_setWord_of_ne (h : k ≠ j) : word (setWord d j v) k = word d k := by
  have hbyte : ∀ r < 4, setWord d j v (4 * k + r) = d (4 * k + r) := by
    intro r hr
    exact if_neg (by omega)
  have h₀ := hbyte 0 (by decide)
  rw [Nat.add_zero] at h₀
  rw [word, h₀, hbyte 1 (by decide), hbyte 2 (by decide), hbyte 3 (by decide), word]

theorem splice_lt (h : p < a) : splice d a bs p = d p := if_pos h

theorem splice_in (h : a ≤ p) (hp : p - a < bs.length) : splice d a bs p = bs[p - a] := by
  rw [splice, if_neg (by omega), List.getD_eq_getElem?_getD, List.getElem?_eq_getElem hp]
  rfl

theorem splice_ge (h : a + bs.length ≤ p) : splice d a bs p = d p := by
  rw [splice, if_neg (by omega), List.getD_eq_getElem?_getD, List.getElem?_eq_none (by omega)]
  rfl

end Words
