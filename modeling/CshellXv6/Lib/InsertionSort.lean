/-
Insertion sort as loops over an array do it.

The elements before the one in hand are sorted.  From the right, those that go
after it are moved up by one, and it is put in the place left.

* `insertBack_perm`, `sort_perm` — nothing is lost;
* `sort_pairwise` — the result is sorted, for any order that the comparison of
  the loop decides.
-/
import Mathlib.Data.List.DropRight
import Mathlib.Data.List.Perm.Basic

namespace InsertionSort

variable {α : Type} (after : α → α → Bool)

/-- Put `k` in its place among the sorted elements `p`; `after x k` says that `x` is
to be moved up. -/
def insertBack (p : List α) (k : α) : List α :=
  p.rdropWhile (after · k) ++ k :: p.rtakeWhile (after · k)

/-- The outer loop. -/
def sort (l : List α) : List α := l.foldl (insertBack after) []

theorem insertBack_perm (p : List α) (k : α) : (insertBack after p k).Perm (k :: p) := by
  have hp : p.rdropWhile (after · k) ++ p.rtakeWhile (after · k) = p :=
    List.rdropWhile_append_rtakeWhile
  conv_rhs => rw [← hp]
  exact List.perm_middle

theorem foldl_insertBack_perm (l p : List α) : (l.foldl (insertBack after) p).Perm (p ++ l) := by
  induction l generalizing p with
  | nil => simp
  | cons k l ih =>
    have hstep := (insertBack_perm after p k).append_right l
    exact (ih (insertBack after p k)).trans (hstep.trans List.perm_middle.symm)

theorem sort_perm (l : List α) : (sort after l).Perm l := foldl_insertBack_perm after l []

variable {after} {r : α → α → Prop} (trans : ∀ a b c, r a b → r b c → r a c)
  (hafter : ∀ x k, after x k = true → r k x) (hbefore : ∀ x k, after x k = false → r x k)
include trans hafter hbefore

theorem insertBack_pairwise {p : List α} (hp : p.Pairwise r) (k : α) :
    (insertBack after p k).Pairwise r := by
  have hsub : (p.rdropWhile (after · k)).Sublist p := (List.rdropWhile_prefix _ _).sublist
  have hsub' : (p.rtakeWhile (after · k)).Sublist p := (List.rtakeWhile_suffix _ _).sublist
  have hmoved : ∀ x ∈ p.rtakeWhile (after · k), r k x := by
    intro x hx
    have hx' := List.mem_rtakeWhile_imp hx
    exact hafter x k hx'
  -- the last element that stays is before `k`, and so are those before it
  have hkept : ∀ x ∈ p.rdropWhile (after · k), r x k := by
    intro x hx
    have hne : p.rdropWhile (after · k) ≠ [] := List.ne_nil_of_mem hx
    have hlast : r ((p.rdropWhile (after · k)).getLast hne) k :=
      hbefore _ _ (by simpa using List.rdropWhile_last_not _ p hne)
    have hpair := hp.sublist hsub
    rw [← List.dropLast_append_getLast hne] at hx hpair
    rcases List.mem_append.mp hx with hx | hx
    · exact trans _ _ _ ((List.pairwise_append.mp hpair).2.2 x hx _ List.mem_cons_self) hlast
    · rw [List.mem_singleton.mp hx]
      exact hlast
  refine List.pairwise_append.mpr ⟨hp.sublist hsub, ?_, ?_⟩
  · exact List.pairwise_cons.mpr ⟨hmoved, hp.sublist hsub'⟩
  · intro x hx y hy
    rcases List.mem_cons.mp hy with rfl | hy
    · exact hkept x hx
    · exact trans _ _ _ (hkept x hx) (hmoved y hy)

theorem sort_pairwise (l : List α) : (sort after l).Pairwise r := by
  have hfold : ∀ (l p : List α), p.Pairwise r → (l.foldl (insertBack after) p).Pairwise r := by
    intro l
    induction l with
    | nil => exact fun p hp => hp
    | cons k l ih => exact fun p hp => ih _ (insertBack_pairwise trans hafter hbefore hp k)
  exact hfold l [] List.Pairwise.nil

end InsertionSort
