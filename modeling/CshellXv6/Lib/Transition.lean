/-
Labelled transition systems.

A program that is run step by step is given here by its initial states and by
a guarded step: `step s a = some s'` when action `a` is enabled in `s`.  The
rules used by the models of this development are

* `Sys.invariant` — a property that holds initially and is kept by every
  enabled action holds of every reachable state;
* `Sys.restrict` — the same system, taking only the steps that meet a
  condition: its reachable states are those of the runs whose steps all meet
  the condition;
* `Sys.reachable_runFrom` — replaying a list of actions stays inside the
  reachable states, `Sys.exists_of_run` — what such a run shows exists;
* `Sys.simulation` — a relation kept step by step carries runs over;
* `Sys.logged` — the system that keeps the log of its run;
* `Steps` — the runs of a step relation, with their events.
-/
import Mathlib.Data.Option.Basic
import Mathlib.Data.List.Basic

/-- A system: its initial states and its guarded step function. -/
structure Sys (σ α : Type) where
  init : σ → Prop
  step : σ → α → Option σ

namespace Sys

variable {σ τ α : Type} (S : Sys σ α)

/-- The states that some run reaches. -/
inductive Reachable : σ → Prop
  | init {s : σ} : S.init s → Reachable s
  | step {s s' : σ} {a : α} : Reachable s → S.step s a = some s' → Reachable s'

/-- Induction over runs: what holds initially and is kept by every step holds
of every reachable state. -/
theorem invariant {I : σ → Prop} (h₀ : ∀ s, S.init s → I s)
    (hs : ∀ s a s', I s → S.step s a = some s' → I s') {s : σ}
    (h : S.Reachable s) : I s := by
  induction h with
  | init hi => exact h₀ _ hi
  | step _ ht ih => exact hs _ _ _ ih ht

/-- The same, where a step may rely on what is known of reachable states. -/
theorem invariant_of_reachable {I : σ → Prop} (h₀ : ∀ s, S.init s → I s)
    (hs : ∀ s a s', S.Reachable s → I s → S.step s a = some s' → I s') {s : σ}
    (h : S.Reachable s) : I s := by
  induction h with
  | init hi => exact h₀ _ hi
  | step hr ht ih => exact hs _ _ _ hr ih ht

/-- The system that takes only the steps meeting `good`, a condition on the
state before the step and the action. -/
def restrict (good : σ → α → Prop) [∀ s a, Decidable (good s a)] : Sys σ α where
  init := S.init
  step s a := if good s a then S.step s a else none

theorem restrict_step {good : σ → α → Prop} [∀ s a, Decidable (good s a)]
    {s s' : σ} {a : α} :
    (S.restrict good).step s a = some s' ↔ good s a ∧ S.step s a = some s' := by
  simp only [restrict]
  split
  · rename_i hg
    simp [hg]
  · rename_i hg
    simp [hg]

/-- A run of the restricted system is a run. -/
theorem reachable_of_restrict {good : σ → α → Prop} [∀ s a, Decidable (good s a)] {s : σ}
    (h : (S.restrict good).Reachable s) : S.Reachable s := by
  induction h with
  | init hi => exact .init hi
  | step _ hs ih => exact .step ih (S.restrict_step.mp hs).2

/-- Induction over the runs whose steps all meet the condition. -/
theorem restrict_invariant {good : σ → α → Prop} [∀ s a, Decidable (good s a)] {I : σ → Prop}
    (h₀ : ∀ s, S.init s → I s)
    (hs : ∀ s a s', S.Reachable s → I s → good s a → S.step s a = some s' → I s') {s : σ}
    (h : (S.restrict good).Reachable s) : I s := by
  refine (S.restrict good).invariant_of_reachable h₀ (fun s a s' hr hI ht => ?_) h
  obtain ⟨hg, ht⟩ := S.restrict_step.mp ht
  exact hs s a s' (S.reachable_of_restrict hr) hI hg ht

/-- Replay a list of actions; `none` when one of them is not enabled. -/
def runFrom (s : σ) : List α → Option σ
  | [] => some s
  | a :: as => (S.step s a).bind fun s' => runFrom s' as

@[simp] theorem runFrom_nil (s : σ) : S.runFrom s [] = some s := rfl

@[simp] theorem runFrom_cons (s : σ) (a : α) (as : List α) :
    S.runFrom s (a :: as) = (S.step s a).bind fun s' => S.runFrom s' as := rfl

theorem runFrom_append (s : σ) (as bs : List α) :
    S.runFrom s (as ++ bs) = (S.runFrom s as).bind fun s' => S.runFrom s' bs := by
  induction as generalizing s with
  | nil => simp
  | cons a as ih =>
    simp only [List.cons_append, runFrom_cons]
    cases S.step s a with
    | none => rfl
    | some s₁ => simp [ih]

/-- Replaying actions from a reachable state ends in a reachable state. -/
theorem reachable_runFrom {s s' : σ} {as : List α} (h : S.Reachable s)
    (hr : S.runFrom s as = some s') : S.Reachable s' := by
  induction as generalizing s with
  | nil =>
    rw [runFrom_nil, Option.some_inj] at hr
    exact hr ▸ h
  | cons a as ih =>
    obtain ⟨s₁, h₁, h₂⟩ := Option.bind_eq_some_iff.mp hr
    exact ih (.step h h₁) h₂

/-- A run that ends in a state with property `p`, from a reachable one. -/
theorem exists_of_run {s : σ} (as : List α) {p : σ → Prop} [DecidablePred p] (h : S.Reachable s)
    (hr : (S.runFrom s as).any (fun s' => p s') = true) : ∃ s', S.Reachable s' ∧ p s' := by
  obtain ⟨s', hs, hp⟩ := (Option.any_eq_true _ _).mp hr
  exact ⟨s', S.reachable_runFrom h hs, of_decide_eq_true hp⟩

/-- Every reachable state is the end of a run. -/
theorem Reachable.exists_run {s : σ} (h : S.Reachable s) :
    ∃ s₀ as, S.init s₀ ∧ S.runFrom s₀ as = some s := by
  induction h with
  | init hi => exact ⟨_, [], hi, rfl⟩
  | @step s s' a _ ht ih =>
    obtain ⟨s₀, as, hi, hr⟩ := ih
    refine ⟨s₀, as ++ [a], hi, ?_⟩
    rw [runFrom_append, hr]
    simpa using ht

/-- Step-by-step simulation: a run of `S` is matched by the run of `T` that
takes the same actions.  The steps of `T` may rely on what holds of its
reachable states. -/
theorem simulation {T : Sys τ α} {R : σ → τ → Prop}
    (hs : ∀ s t a s', R s t → T.Reachable t → S.step s a = some s' →
      ∃ t', T.step t a = some t' ∧ R s' t') {s s' : σ} {t : τ} {as : List α}
    (hR : R s t) (ht : T.Reachable t) (hr : S.runFrom s as = some s') :
    ∃ t', T.runFrom t as = some t' ∧ R s' t' := by
  induction as generalizing s t with
  | nil =>
    rw [runFrom_nil, Option.some_inj] at hr
    exact ⟨t, rfl, hr ▸ hR⟩
  | cons a as ih =>
    obtain ⟨s₁, h₁, h₂⟩ := Option.bind_eq_some_iff.mp hr
    obtain ⟨t₁, ht₁, hR₁⟩ := hs _ _ _ _ hR ht h₁
    obtain ⟨t', ht', hR'⟩ := ih hR₁ (.step ht ht₁) h₂
    refine ⟨t', ?_, hR'⟩
    rw [runFrom_cons, ht₁]
    exact ht'

/-- The system together with the log of its run, the latest entry first. -/
def logged {ε : Type} (log : σ → α → List ε) : Sys (σ × List ε) α where
  init x := S.init x.1 ∧ x.2 = []
  step x a := (S.step x.1 a).map fun s' => (s', log x.1 a ++ x.2)

theorem logged_step {ε : Type} {log : σ → α → List ε} {x x' : σ × List ε} {a : α} :
    (S.logged log).step x a = some x' ↔
      S.step x.1 a = some x'.1 ∧ x'.2 = log x.1 a ++ x.2 := by
  simp only [logged, Option.map_eq_some_iff]
  constructor
  · rintro ⟨s', hs, rfl⟩
    exact ⟨hs, rfl⟩
  · rintro ⟨hs, hl⟩
    exact ⟨x'.1, hs, by rw [← hl]⟩

/-- Keeping a log does not change which states are reached. -/
theorem reachable_of_logged {ε : Type} {log : σ → α → List ε} {x : σ × List ε}
    (h : (S.logged log).Reachable x) : S.Reachable x.1 := by
  induction h with
  | init hi => exact .init hi.1
  | step _ hs ih => exact .step ih (S.logged_step.mp hs).1

/-- Induction over runs with their log. -/
theorem logged_invariant {ε : Type} {log : σ → α → List ε} {I : σ → List ε → Prop}
    (h₀ : ∀ s, S.init s → I s [])
    (hs : ∀ s l a s', S.Reachable s → I s l → S.step s a = some s' → I s' (log s a ++ l))
    {x : σ × List ε} (h : (S.logged log).Reachable x) : I x.1 x.2 := by
  refine (S.logged log).invariant_of_reachable (I := fun x => I x.1 x.2) ?_ ?_ h
  · rintro x ⟨hi, hl⟩
    rw [hl]
    exact h₀ _ hi
  · intro x a x' hr hI ht
    obtain ⟨ht, hl⟩ := S.logged_step.mp ht
    rw [hl]
    exact hs _ _ _ _ (S.reachable_of_logged hr) hI ht

end Sys

/-- The runs of a step relation, with the events of their steps. -/
inductive Steps {σ ε : Type} (R : σ → ε → σ → Prop) (s₀ : σ) : List ε → σ → Prop
  | nil : Steps R s₀ [] s₀
  | snoc {es : List ε} {e : ε} {s s' : σ} :
    Steps R s₀ es s → R s e s' → Steps R s₀ (es ++ [e]) s'

namespace Steps

variable {σ τ ε : Type} {R : σ → ε → σ → Prop} {T : τ → ε → τ → Prop} {I : σ → Prop}

/-- A function of the state whose steps are steps of `T` turns runs into runs
of `T`; the steps may rely on an invariant. -/
theorem map (f : σ → τ) (hs : ∀ s e s', I s → R s e s' → I s' ∧ T (f s) e (f s')) {s s' : σ}
    {es : List ε} (h₀ : I s) (h : Steps R s es s') : I s' ∧ Steps T (f s) es (f s') := by
  induction h with
  | nil => exact ⟨h₀, .nil⟩
  | snoc _ hstep ih =>
    obtain ⟨hI, hrun⟩ := ih
    obtain ⟨hI', hT⟩ := hs _ _ _ hI hstep
    exact ⟨hI', hrun.snoc hT⟩

theorem cons {s s' s'' : σ} {e : ε} {es : List ε} (h : R s e s') (hr : Steps R s' es s'') :
    Steps R s (e :: es) s'' := by
  induction hr with
  | nil => exact .snoc .nil h
  | snoc _ hstep ih => exact .snoc ih hstep

end Steps
