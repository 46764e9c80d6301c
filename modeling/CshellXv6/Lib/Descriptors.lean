/-
Tables of file descriptors.

A descriptor is a number, and the table gives the open file behind it.  A new
descriptor is the lowest number that is not in use; `dup2` puts an open file
behind a given number, and `close` takes it away.

What a table says is the function `Descriptors.get`, and every operation is an
update of that function, so that a sequence of them is computed with
`Function.update`.

* `Descriptors.alloc`, `dup2`, `close`, `closeAll` — the operations;
* `get_alloc`, `get_dup2`, `get_close`, `get_closeAll` — what they do;
* `get_alloc_close`, `get_alloc_dup2_close` — a file that is opened, moved and closed.
-/
import Mathlib.Data.List.Basic
import Mathlib.Logic.Function.Basic

/-- A table of descriptors: the open file of each, `none` for a closed one.  All
beyond the list are closed. -/
structure Descriptors (F : Type) where
  files : List (Option F)
  deriving DecidableEq, Repr

namespace Descriptors

variable {F : Type} (t : Descriptors F)

def get (fd : ℕ) : Option F := t.files[fd]?.getD none

def put (fd : ℕ) (x : Option F) : Descriptors F :=
  ⟨if fd < t.files.length then t.files.set fd x
    else t.files ++ List.replicate (fd - t.files.length) none ++ [x]⟩

theorem get_put (fd : ℕ) (x : Option F) : (t.put fd x).get = Function.update t.get fd x := by
  funext k
  rw [Function.update_apply, get, put]
  by_cases h : fd < t.files.length
  · rw [if_pos h, List.getElem?_set]
    by_cases hk : k = fd
    · subst hk
      simp [h]
    · rw [if_neg (Ne.symm hk), if_neg hk, get]
  · rw [if_neg h]
    rcases Nat.lt_trichotomy k fd with hlt | rfl | hgt
    · rw [if_neg (by omega), get, List.append_assoc, List.getElem?_append]
      split
      · rfl
      · have hend : t.files[k]? = none := List.getElem?_eq_none (by omega)
        rw [List.getElem?_append_left (by rw [List.length_replicate]; omega),
          List.getElem?_replicate, if_pos (by omega), hend]
        rfl
    · rw [if_pos rfl, List.getElem?_append_right (by simp; omega)]
      simp [show k - (t.files.length + (k - t.files.length)) = 0 by omega]
    · rw [if_neg (by omega), get, List.getElem?_eq_none (by simp; omega),
        List.getElem?_eq_none (by omega)]

/-- The lowest descriptor that is not in use. -/
def lowest : ℕ := t.files.findIdx Option.isNone

theorem get_lowest : t.get t.lowest = none := by
  rw [get, lowest]
  by_cases h : t.files.findIdx Option.isNone < t.files.length
  · have hnone := List.findIdx_getElem (w := h)
    rw [List.getElem?_eq_getElem h, Option.getD_some]
    exact Option.isNone_iff_eq_none.mp hnone
  · rw [List.getElem?_eq_none (by omega)]
    rfl

/-- `open` and `dup`: the lowest free descriptor gets the file. -/
def alloc (f : F) : ℕ × Descriptors F := (t.lowest, t.put t.lowest (some f))

/-- `dup2`. -/
def dup2 (old new : ℕ) : Descriptors F :=
  match t.get old with
  | none => t
  | some f => t.put new (some f)

/-- `close`. -/
def close (fd : ℕ) : Descriptors F := t.put fd none

/-- `close` for one after the other. -/
def closeAll (fds : List ℕ) : Descriptors F := fds.foldl close t

theorem get_alloc (f : F) : (t.alloc f).2.get = Function.update t.get t.lowest (some f) :=
  t.get_put _ _

theorem get_dup2 {old : ℕ} {f : F} (h : t.get old = some f) (new : ℕ) :
    (t.dup2 old new).get = Function.update t.get new (some f) := by
  rw [dup2, h]
  exact t.get_put _ _

theorem get_close (fd : ℕ) : (t.close fd).get = Function.update t.get fd none := t.get_put _ _

theorem get_closeAll (fds : List ℕ) (fd : ℕ) :
    (t.closeAll fds).get fd = if fd ∈ fds then none else t.get fd := by
  induction fds generalizing t with
  | nil => rfl
  | cons x fds ih =>
    show ((t.close x).closeAll fds).get fd = _
    rw [ih, get_close, Function.update_apply]
    by_cases hm : fd ∈ fds
    · simp [hm]
    · by_cases hx : fd = x
      · simp [hx]
      · simp [hm, hx]

/-- A file that is opened and closed again. -/
theorem get_alloc_close (f : F) : ((t.alloc f).2.close t.lowest).get = t.get := by
  rw [get_close, get_alloc, Function.update_idem, Function.update_eq_self_iff]
  exact t.get_lowest.symm

/-- A file that is opened and moved to a descriptor in use. -/
theorem get_alloc_dup2_close (f : F) {n : ℕ} (hn : t.get n ≠ none) :
    (((t.alloc f).2.dup2 t.lowest n).close t.lowest).get = Function.update t.get n (some f) := by
  have hne : n ≠ t.lowest := by
    rintro rfl
    exact hn t.get_lowest
  have hget : (t.alloc f).2.get t.lowest = some f := by rw [get_alloc, Function.update_self]
  rw [get_close, get_dup2 _ hget, get_alloc, Function.update_comm hne.symm, Function.update_idem,
    Function.update_eq_self_iff, Function.update_of_ne hne.symm]
  exact t.get_lowest.symm

end Descriptors
