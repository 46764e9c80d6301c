/-
Numbers in strings, as the C library reads and prints them.

`strtol` skips white space, takes a sign and then digits; what it returns is
cut off at the ends of `long`, and the end pointer is the rest of the string.
A string without a number gives 0 and itself as the rest.

* `strtol_decimal` — reading a printed number back;
* `scanInt_signed` — the same for `sscanf`, with a text after the number.
-/
import Mathlib.Data.List.Basic
import Mathlib.Data.List.TakeWhile
import Mathlib.Algebra.Order.Ring.Int

namespace CString

/-- `isspace`. -/
def isSpace (c : Char) : Bool :=
  c = ' ' || c = '\t' || c = '\n' || c = '\x0b' || c = '\x0c' || c = '\r'

/-- The nearest `long`. -/
def clamp (v : ℤ) : ℤ := max (-2 ^ 63) (min v (2 ^ 63 - 1))

/-- The conversion to `int`. -/
def toInt (v : ℤ) : ℤ := v.bmod (2 ^ 32)

/-- The sign, and what follows it. -/
def sign : List Char → ℤ × List Char
  | '-' :: cs => (-1, cs)
  | '+' :: cs => (1, cs)
  | cs => (1, cs)

/-- `strtol(s, &end, 10)`: the number and the string at `end`. -/
def strtol (s : List Char) : ℤ × List Char :=
  let (sgn, cs) := sign (s.dropWhile isSpace)
  let digits := cs.takeWhile Char.isDigit
  if digits = [] then (0, s)
  else (clamp (sgn * Nat.ofDigitChars 10 digits 0), cs.dropWhile Char.isDigit)

/-- `%ld` of `sscanf`: the number and what follows it, `none` where there is no
digit. -/
def scanInt (s : List Char) : Option (ℤ × List Char) :=
  let (sgn, cs) := sign (s.dropWhile isSpace)
  let digits := cs.takeWhile Char.isDigit
  if digits = [] then none
  else some (clamp (sgn * Nat.ofDigitChars 10 digits 0), cs.dropWhile Char.isDigit)

/-- `%d` and `%lld` of a number that is not negative. -/
def decimal (n : ℕ) : List Char := Nat.toDigits 10 n

/-- `%d` and `%lld`. -/
def signed (v : ℤ) : List Char := if v < 0 then '-' :: decimal v.natAbs else decimal v.natAbs

theorem isDigit_of_mem_decimal {n : ℕ} {c : Char} (h : c ∈ decimal n) : c.isDigit = true :=
  Nat.isDigit_of_mem_toDigits (by omega) (by omega) h

/-- A printed number has digits and a minus sign only. -/
theorem not_mem_signed {c : Char} (hd : c.isDigit = false) (hm : c ≠ '-') (v : ℤ) :
    c ∉ signed v := by
  have hdigits : c ∉ decimal v.natAbs := by
    intro h
    rw [isDigit_of_mem_decimal h] at hd
    cases hd
  unfold signed
  split
  · intro h
    rcases List.mem_cons.mp h with h | h
    · exact hm h
    · exact hdigits h
  · exact hdigits

/-- A digit is no white space and no sign. -/
theorem sign_digits {c : Char} {cs : List Char} (h : c.isDigit = true) :
    sign ((c :: cs).dropWhile isSpace) = (1, c :: cs) := by
  have hs : isSpace c = false := by
    cases hc : isSpace c with
    | false => rfl
    | true =>
      simp only [isSpace, Bool.or_eq_true, decide_eq_true_eq] at hc
      obtain ((((rfl | rfl) | rfl) | rfl) | rfl) | rfl := hc <;> exact absurd h (by decide)
  rw [List.dropWhile_cons_of_neg (by simp [hs])]
  unfold sign
  split
  · rename_i he
    cases he
    exact absurd h (by decide)
  · rename_i he
    cases he
    exact absurd h (by decide)
  · rfl

/-- A printed number is read back, up to the largest `long`. -/
theorem strtol_decimal (n : ℕ) : strtol (decimal n) = (min (n : ℤ) (2 ^ 63 - 1), []) := by
  obtain ⟨c, cs, hd⟩ : ∃ c cs, decimal n = c :: cs := List.exists_cons_of_ne_nil Nat.toDigits_ne_nil
  have hall : ∀ x ∈ c :: cs, x.isDigit = true := fun x hx => isDigit_of_mem_decimal (hd ▸ hx)
  have htake : (c :: cs).takeWhile Char.isDigit = c :: cs := List.takeWhile_eq_self_iff.mpr hall
  have hdrop : (c :: cs).dropWhile Char.isDigit = [] := List.dropWhile_eq_nil_iff.mpr hall
  have hval : Nat.ofDigitChars 10 (c :: cs) 0 = n := by
    rw [← hd]
    exact Nat.ofDigitChars_ten_toDigits
  rw [hd]
  simp only [strtol, sign_digits (hall c List.mem_cons_self), htake, hdrop, hval, one_mul]
  rw [if_neg (List.cons_ne_nil c cs), clamp]
  simp only [Prod.mk.injEq, and_true]
  omega

/-- The digits of a number, up to a text that does not go on with one. -/
theorem takeWhile_decimal (n : ℕ) {rest : List Char} (hr : ∀ c ∈ rest.head?, c.isDigit = false) :
    (decimal n ++ rest).takeWhile Char.isDigit = decimal n ∧
      (decimal n ++ rest).dropWhile Char.isDigit = rest := by
  have hall : ∀ x ∈ decimal n, x.isDigit = true := fun x hx => isDigit_of_mem_decimal hx
  rw [List.takeWhile_append_of_pos hall, List.dropWhile_append_of_pos hall]
  cases rest with
  | nil => simp
  | cons c cs =>
    have hc : ¬ c.isDigit = true := by simp [hr c rfl]
    rw [List.takeWhile_cons_of_neg hc, List.dropWhile_cons_of_neg hc]
    simp

/-- **A printed `long` is read back.** -/
theorem scanInt_signed {v : ℤ} (hlo : -2 ^ 63 ≤ v) (hhi : v < 2 ^ 63) {rest : List Char}
    (hr : ∀ c ∈ rest.head?, c.isDigit = false) : scanInt (signed v ++ rest) = some (v, rest) := by
  obtain ⟨c, cs, hd⟩ : ∃ c cs, decimal v.natAbs = c :: cs :=
    List.exists_cons_of_ne_nil Nat.toDigits_ne_nil
  have hc : c.isDigit = true := isDigit_of_mem_decimal (n := v.natAbs) (by rw [hd]; simp)
  obtain ⟨htake, hdrop⟩ := takeWhile_decimal v.natAbs hr
  have hval : Nat.ofDigitChars 10 (decimal v.natAbs) 0 = v.natAbs := Nat.ofDigitChars_ten_toDigits
  have hne : decimal v.natAbs ≠ [] := Nat.toDigits_ne_nil
  unfold signed
  split
  case isTrue hneg =>
    have hsign : sign (('-' :: decimal v.natAbs ++ rest).dropWhile isSpace) =
        (-1, decimal v.natAbs ++ rest) := by
      rw [List.cons_append, List.dropWhile_cons_of_neg (by decide)]
      rfl
    simp only [scanInt, hsign, htake, hdrop, hval, if_neg hne, clamp]
    congr 2
    omega
  case isFalse hpos =>
    have hsign : sign ((decimal v.natAbs ++ rest).dropWhile isSpace) =
        (1, decimal v.natAbs ++ rest) := by
      rw [hd, List.cons_append]
      exact sign_digits hc
    simp only [scanInt, hsign, htake, hdrop, hval, if_neg hne, clamp]
    congr 2
    omega

end CString
