/-
Items added to a text unless the text has them.

A loop goes over a list of items and adds the print of each to a text, but
passes over an item whose print occurs somewhere in the text so far.  An item
that comes a second time is passed over; so is one whose print happens to be
part of what the others left.

* `addNew_eraseDups` — an item that comes again makes no difference;
* `addNew_eq_self_iff` — when every item is added.
-/
import Mathlib.Data.List.Basic
import Mathlib.Data.List.Infix

namespace SeenText

variable {α β : Type} [DecidableEq α] (print : β → List α)

/-- The items that the loop adds to the text `s`. -/
def addNew : List α → List β → List β
  | _, [] => []
  | s, x :: xs => if print x <:+: s then addNew s xs else x :: addNew (s ++ print x) xs

/-- No item has its print in the text that stands when its turn comes. -/
def Fresh (s : List α) (xs : List β) : Prop :=
  ∀ l x r, xs = l ++ x :: r → ¬ print x <:+: s ++ l.flatMap print

variable {print}

theorem addNew_sublist (s : List α) (xs : List β) : (addNew print s xs).Sublist xs := by
  induction xs generalizing s with
  | nil => exact .slnil
  | cons x xs ih =>
    rw [addNew]
    split
    · exact (ih s).cons x
    · exact (ih (s ++ print x)).cons_cons x

/-- An item that the text has is passed over from then on. -/
theorem addNew_filter [BEq β] [LawfulBEq β] {s : List α} {a : β} (h : print a <:+: s) (xs : List β) :
    addNew print s (xs.filter fun b => !b == a) = addNew print s xs := by
  induction xs generalizing s with
  | nil => rfl
  | cons x xs ih =>
    rw [List.filter_cons]
    by_cases hx : x = a
    · subst hx
      rw [if_neg (by simp), addNew, if_pos h]
      exact ih h
    · rw [if_pos (by simp [hx]), addNew, addNew]
      by_cases hp : print x <:+: s
      · rw [if_pos hp, if_pos hp]
        exact ih h
      · have hs : print a <:+: s ++ print x := h.trans (List.prefix_append s (print x)).isInfix
        rw [if_neg hp, if_neg hp, ih hs]

/-- **An item that comes again makes no difference.** -/
theorem addNew_eraseDups [BEq β] [LawfulBEq β] (s : List α) (xs : List β) :
    addNew print s xs.eraseDups = addNew print s xs := by
  match xs with
  | [] => rfl
  | x :: xs =>
    rw [List.eraseDups_cons, addNew, addNew]
    by_cases hp : print x <:+: s
    · rw [if_pos hp, if_pos hp, addNew_eraseDups s (xs.filter fun b => !b == x)]
      exact addNew_filter hp xs
    · have hs : print x <:+: s ++ print x := (List.suffix_append s (print x)).isInfix
      rw [if_neg hp, if_neg hp, addNew_eraseDups (s ++ print x) (xs.filter fun b => !b == x),
        addNew_filter hs xs]
termination_by xs.length
-- the rest without the copies of `x` is shorter
decreasing_by all_goals exact Nat.lt_succ_of_le (List.length_filter_le _ xs)

/-- Every place of a list is the first one, or a place of the rest. -/
theorem forall_split_cons {γ : Type} {P : List γ → γ → Prop} {y : γ} {ys : List γ} :
    (∀ l x r, y :: ys = l ++ x :: r → P l x) ↔
      P [] y ∧ ∀ l x r, ys = l ++ x :: r → P (y :: l) x := by
  constructor
  · intro h
    refine ⟨h [] y ys rfl, ?_⟩
    intro l x r hys
    exact h (y :: l) x r (by rw [hys, List.cons_append])
  · rintro ⟨hy, h⟩ l x r hys
    cases l with
    | nil =>
      cases hys
      exact hy
    | cons z l =>
      cases hys
      exact h l x r rfl

omit [DecidableEq α] in
theorem fresh_cons {s : List α} {x : β} {xs : List β} :
    Fresh print s (x :: xs) ↔ ¬ print x <:+: s ∧ Fresh print (s ++ print x) xs := by
  unfold Fresh
  rw [forall_split_cons]
  simp only [List.flatMap_nil, List.append_nil, List.flatMap_cons, List.append_assoc]

/-- **When every item is added.** -/
theorem addNew_eq_self_iff {s : List α} {xs : List β} :
    addNew print s xs = xs ↔ Fresh print s xs := by
  induction xs generalizing s with
  | nil =>
    refine ⟨?_, fun _ => rfl⟩
    intro _ l x r h
    cases l <;> cases h
  | cons x xs ih =>
    rw [addNew, fresh_cons]
    by_cases hp : print x <:+: s
    · rw [if_pos hp]
      constructor
      · intro h
        have hle := (@addNew_sublist α β _ print s xs).length_le
        rw [h, List.length_cons] at hle
        omega
      · intro h
        exact absurd hp h.1
    · rw [if_neg hp, ← ih]
      constructor
      · intro h
        exact ⟨hp, (List.cons.inj h).2⟩
      · intro h
        rw [h.2]

end SeenText
