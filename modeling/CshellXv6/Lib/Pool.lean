/-
A pool of things that are marked as used, and the places that hold them.

Every place holds one thing or nothing.  The marks are right when what a place
holds is marked, no two places hold the same, and every marked thing is held by
some place: nothing is shared and nothing is lost.

* `Pool.grow` — a thing that was not marked is marked and put in an empty place;
* `Pool.shrink` — places are emptied, and what they held is no longer marked.
-/
import Mathlib.Logic.Function.Basic

/-- The things `r` with `avail r` are those that the pool has. -/
structure Pool {R P : Type} (avail : R → Prop) (used : R → Bool) (place : P → Option R) : Prop where
  marked : ∀ {p r}, place p = some r → used r = true ∧ avail r
  unique : ∀ {p q r}, place p = some r → place q = some r → p = q
  held : ∀ {r}, avail r → used r = true → ∃ p, place p = some r

namespace Pool

variable {R P : Type} {avail : R → Prop} {used : R → Bool} {place : P → Option R}

/-- What is not marked is nowhere. -/
theorem ne_of_unused (h : Pool avail used place) {r : R} (hr : used r = false) (p : P) :
    place p ≠ some r := by
  intro hp
  rw [(h.marked hp).1] at hr
  cases hr

theorem grow [DecidableEq R] [DecidableEq P] (h : Pool avail used place) {r : R} {p : P}
    (hr : used r = false) (ha : avail r) (hp : place p = none) :
    Pool avail (Function.update used r true) (Function.update place p (some r)) := by
  refine ⟨fun {q r'} hq => ?_, fun {q q' r'} hq hq' => ?_, fun {r'} ha' hr' => ?_⟩
  · by_cases hqp : q = p
    · rw [hqp, Function.update_self, Option.some_inj] at hq
      subst hq
      exact ⟨Function.update_self .., ha⟩
    · rw [Function.update_of_ne hqp] at hq
      have hne : r' ≠ r := by
        rintro rfl
        exact h.ne_of_unused hr q hq
      rw [Function.update_of_ne hne]
      exact h.marked hq
  · by_cases hqp : q = p
    · by_cases hqp' : q' = p
      · rw [hqp, hqp']
      · rw [hqp, Function.update_self, Option.some_inj] at hq
        rw [Function.update_of_ne hqp', ← hq] at hq'
        exact absurd hq' (h.ne_of_unused hr q')
    · rw [Function.update_of_ne hqp] at hq
      by_cases hqp' : q' = p
      · rw [hqp', Function.update_self, Option.some_inj] at hq'
        rw [← hq'] at hq
        exact absurd hq (h.ne_of_unused hr q)
      · rw [Function.update_of_ne hqp'] at hq'
        exact h.unique hq hq'
  · by_cases hrr : r' = r
    · exact ⟨p, by rw [hrr, Function.update_self]⟩
    · rw [Function.update_of_ne hrr] at hr'
      obtain ⟨q, hq⟩ := h.held ha' hr'
      have hqp : q ≠ p := by
        rintro rfl
        rw [hp] at hq
        cases hq
      exact ⟨q, by rw [Function.update_of_ne hqp, hq]⟩

/-- `gone p` are the places that are emptied. -/
theorem shrink (h : Pool avail used place) {used' : R → Bool} {place' : P → Option R}
    (gone : P → Prop) (hgone : ∀ p, gone p → place' p = none)
    (hstay : ∀ p, ¬ gone p → place' p = place p)
    (hused : ∀ r, used' r = true ↔ used r = true ∧ ∀ p, gone p → place p ≠ some r) :
    Pool avail used' place' := by
  have hback : ∀ {p r}, place' p = some r → ¬ gone p ∧ place p = some r := by
    intro p r hp
    by_cases hg : gone p
    · rw [hgone p hg] at hp
      cases hp
    · rw [hstay p hg] at hp
      exact ⟨hg, hp⟩
  refine ⟨fun {p r} hp => ?_, fun {p q r} hp hq => ?_, fun {r} ha hr => ?_⟩
  · obtain ⟨hg, hp⟩ := hback hp
    refine ⟨(hused r).mpr ⟨(h.marked hp).1, fun q hq hqr => ?_⟩, (h.marked hp).2⟩
    rw [h.unique hp hqr] at hg
    exact hg hq
  · exact h.unique (hback hp).2 (hback hq).2
  · obtain ⟨hr, hnone⟩ := (hused r).mp hr
    obtain ⟨p, hp⟩ := h.held ha hr
    have hg : ¬ gone p := fun hg => hnone p hg hp
    exact ⟨p, by rw [hstay p hg, hp]⟩

end Pool
