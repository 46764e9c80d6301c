/-
Arrays of C, as lists of their elements.

An allocated block is the list of what it holds; elements that were never
written hold an indeterminate value, here any `junk`.  The operations are the
ones programs delete from an array with: `memmove` over the element and
`realloc` to one element less, or a loop that moves the later elements down by
one.  Both come to `List.eraseIdx`:

* `realloc_memmove` — the first way, with the block cut to the elements left;
* `take_shiftDown` — the second, where the block keeps its size and a count of
  the elements in use goes down by one;
* `realloc_set` — the other direction, an element added at the end;
* `take_copyLoop` — filling a block element by element.
-/
import Mathlib.Data.List.Basic
import Mathlib.Data.List.TakeDrop

namespace CArray

variable {α : Type}

/-- `realloc` to `n` elements. -/
def realloc (junk : α) (a : List α) (n : ℕ) : List α :=
  a.take n ++ List.replicate (n - a.length) junk

/-- `malloc` of `n` elements. -/
def malloc (junk : α) (n : ℕ) : List α := List.replicate n junk

/-- `memmove(&a[dst], &a[src], n * sizeof(a[0]))`. -/
def memmove (a : List α) (dst src n : ℕ) : List α :=
  a.take dst ++ (a.drop src).take n ++ a.drop (dst + n)

/-- `a[m] = x`, for an `x` that was read from an array. -/
def write (a : List α) (m : ℕ) (x : Option α) : List α := x.elim a (a.set m)

/-- `k` rounds of the loop `a[m] = a[m + 1]; m++`. -/
def shiftDown (a : List α) (m : ℕ) : ℕ → List α
  | 0 => a
  | k + 1 => shiftDown (write a m a[m + 1]?) (m + 1) k

/-- `k` rounds of the loop `a[i] = b[i]; i++`. -/
def copyLoop (b a : List α) (i : ℕ) : ℕ → List α
  | 0 => a
  | k + 1 => copyLoop b (write a i b[i]?) (i + 1) k

theorem write_some (a : List α) (m : ℕ) (x : α) : write a m (some x) = a.set m x := rfl

/-- Adding an element. -/
theorem realloc_set {a : List α} {n : ℕ} (junk x : α) (h : a.length = n) :
    (realloc junk a (n + 1)).set n x = a ++ [x] := by
  have hk : n + 1 - a.length = 1 := by omega
  have ht : a.take (n + 1) = a := List.take_of_length_le (by omega)
  rw [realloc, hk, ht, ← h, List.set_append_right _ _ (Nat.le_refl _), Nat.sub_self]
  rfl

/-- Deleting the element at `i`. -/
theorem realloc_memmove {a : List α} {i n : ℕ} (junk : α) (h : a.length = n) (hi : i < n) :
    realloc junk (memmove a i (i + 1) (n - i - 1)) (n - 1) = a.eraseIdx i := by
  have hd : (a.drop (i + 1)).length = n - i - 1 := by
    rw [List.length_drop]
    omega
  have htail : (a.drop (i + 1)).take (n - i - 1) = a.drop (i + 1) :=
    List.take_of_length_le (by omega)
  have hlen : (a.take i ++ a.drop (i + 1)).length = n - 1 := by
    rw [List.length_append, List.length_take, hd]
    omega
  have hlast : (a.drop (i + (n - i - 1))).length = 1 := by
    rw [List.length_drop]
    omega
  rw [realloc, memmove, htail, List.eraseIdx_eq_take_drop_succ, List.take_left' hlen,
    List.length_append, hlen, hlast]
  simp

/-- What the loop leaves at each place: the elements from `m` on have moved down. -/
theorem getElem?_shiftDown {a : List α} {m k : ℕ} (h : m + k < a.length) (j : ℕ) :
    (shiftDown a m k)[j]? = if m ≤ j ∧ j < m + k then a[j + 1]? else a[j]? := by
  induction k generalizing a m with
  | zero =>
    rw [shiftDown, if_neg]
    omega
  | succ k ih =>
    have hm : a[m + 1]? = some a[m + 1] := List.getElem?_eq_getElem (by omega)
    have hlt : m + 1 + k < (a.set m a[m + 1]).length := by
      rw [List.length_set]
      omega
    rw [shiftDown, hm, write_some, ih hlt]
    -- the first round has written `m`, the later ones write above it and read above `m + 1`
    by_cases hj : j = m
    · subst hj
      rw [if_neg (by omega), if_pos (by omega), List.getElem?_set_self (by omega), hm]
    · by_cases hin : m + 1 ≤ j ∧ j < m + 1 + k
      · rw [if_pos hin, if_pos (by omega), List.getElem?_set_ne (by omega)]
      · rw [if_neg hin, if_neg (by omega), List.getElem?_set_ne (by omega)]

/-- Deleting the element at `m` of the `n` in use. -/
theorem take_shiftDown {a : List α} {m n : ℕ} (hm : m < n) (hn : n ≤ a.length) :
    (shiftDown a m (n - 1 - m)).take (n - 1) = (a.take n).eraseIdx m := by
  apply List.ext_getElem?
  intro j
  rw [List.getElem?_take, List.getElem?_eraseIdx, getElem?_shiftDown (by omega)]
  simp only [List.getElem?_take]
  by_cases hjm : j < m
  · rw [if_pos (by omega), if_neg (by omega), if_pos hjm, if_pos (by omega)]
  · rw [if_neg hjm]
    by_cases hjn : j < n - 1
    · rw [if_pos hjn, if_pos (by omega), if_pos (by omega)]
    · rw [if_neg hjn, if_neg (by omega)]

theorem getElem?_copyLoop {b a : List α} {i k : ℕ} (hb : i + k ≤ b.length) (ha : i + k ≤ a.length)
    (j : ℕ) : (copyLoop b a i k)[j]? = if i ≤ j ∧ j < i + k then b[j]? else a[j]? := by
  induction k generalizing a i with
  | zero =>
    rw [copyLoop, if_neg]
    omega
  | succ k ih =>
    have hi : b[i]? = some b[i] := List.getElem?_eq_getElem (by omega)
    have hlen : i + 1 + k ≤ (a.set i b[i]).length := by
      rw [List.length_set]
      omega
    rw [copyLoop, hi, write_some, ih (by omega) hlen]
    by_cases hj : j = i
    · subst hj
      rw [if_neg (by omega), if_pos (by omega), List.getElem?_set_self (by omega), hi]
    · rw [List.getElem?_set_ne (by omega)]
      by_cases hin : i + 1 ≤ j ∧ j < i + 1 + k
      · rw [if_pos hin, if_pos (by omega)]
      · rw [if_neg hin, if_neg (by omega)]

/-- A fresh block filled from `b`. -/
theorem copyLoop_malloc {b : List α} {n : ℕ} (junk : α) (h : n ≤ b.length) :
    copyLoop b (malloc junk n) 0 n = b.take n := by
  apply List.ext_getElem?
  intro j
  rw [getElem?_copyLoop (by omega) (by simp [malloc]), List.getElem?_take]
  by_cases hj : j < n
  · rw [if_pos (by omega), if_pos hj]
  · rw [if_neg (by omega), if_neg hj]
    exact List.getElem?_eq_none (by simp [malloc]; omega)

end CArray
