/-
Programs that fork.

A sequential program whose process may fork is a tree: it returns, it ends its
process, it emits an event, it forks, or it puts a question to its environment
and goes on with the answer.  `fork` copies the process: parent and child both
go on with the rest of the program, so a child that is not ended runs
everything that follows.

* `Proc.Runs` — a run: the outcome of the process that started, and those of
  all processes it left behind;
* `Proc.Every` — the weakest precondition for "in every run the process itself
  ends as `P` says, every other one as `R` says";
* `Proc.Has` — "in every run some process emits such an event";
* `Proc.Runs.bind_inv` — a run of a sequence: what each process of the first
  part goes on to do;
* `Proc.exec` — the run in which the environment answers by a fixed function.
-/
import Mathlib.Data.List.Basic
import Mathlib.Tactic.Tauto

/-- How a process leaves a program: it returns from it, or it is gone. -/
inductive End (χ α : Type)
  | returned (a : α)
  | gone (x : χ)
  deriving DecidableEq, Repr

/-- What one process did: the events it emitted and how it left the program. -/
structure Outcome (ε χ α : Type) where
  events : List ε
  result : End χ α
  deriving DecidableEq, Repr

/-- The outcome with the events `es` in front. -/
def Outcome.after {ε χ α : Type} (es : List ε) (o : Outcome ε χ α) : Outcome ε χ α :=
  ⟨es ++ o.events, o.result⟩

/-- Programs over questions `Q` with answers `A`, events `ε`, reasons to end a
process `χ` and results `α`. -/
inductive Proc (Q : Type) (A : Q → Type) (ε χ α : Type)
  | ret (a : α)
  | exit (x : χ)
  | emit (e : ε) (t : Proc Q A ε χ α)
  | fork (child parent : Proc Q A ε χ α)
  | ask (q : Q) (k : A q → Proc Q A ε χ α)

namespace Proc

variable {Q : Type} {A : Q → Type} {ε χ α β : Type}

/-- Go on with `f` in every process that returns. -/
def bind (f : α → Proc Q A ε χ β) : Proc Q A ε χ α → Proc Q A ε χ β
  | ret a => f a
  | exit x => exit x
  | emit e t => emit e (bind f t)
  | fork c p => fork (bind f c) (bind f p)
  | ask q k => ask q fun a => bind f (k a)

instance : Monad (Proc Q A ε χ) where
  pure := ret
  bind t f := t.bind f

@[simp] theorem emit_bind (e : ε) (t : Proc Q A ε χ α) (f : α → Proc Q A ε χ β) :
    (emit e t >>= f) = emit e (t >>= f) := rfl

@[simp] theorem fork_bind (c p : Proc Q A ε χ α) (f : α → Proc Q A ε χ β) :
    (fork c p >>= f) = fork (c >>= f) (p >>= f) := rfl

@[simp] theorem ask_bind (q : Q) (k : A q → Proc Q A ε χ α) (f : α → Proc Q A ε χ β) :
    (ask q k >>= f) = ask q fun a => k a >>= f := rfl

theorem bind_assoc {γ : Type} (t : Proc Q A ε χ α) (f : α → Proc Q A ε χ β)
    (g : β → Proc Q A ε χ γ) : (t >>= f) >>= g = t >>= fun a => f a >>= g := by
  induction t with
  | ret a => rfl
  | exit x => rfl
  | emit e t ih => simp only [emit_bind, ih]
  | fork c p ihc ihp => simp only [fork_bind, ihc, ihp]
  | ask q k ih => simp only [ask_bind, ih]

/-! ### Runs -/

/-- `t.Runs allow o ps`: a run of `t` in which the environment gives allowed
answers, the process itself ends as `o` and the processes it left behind as
`ps`. -/
def Runs (allow : ∀ q, A q → Prop) :
    Proc Q A ε χ α → Outcome ε χ α → List (Outcome ε χ α) → Prop
  | ret a, o, ps => o = ⟨[], .returned a⟩ ∧ ps = []
  | exit x, o, ps => o = ⟨[], .gone x⟩ ∧ ps = []
  | emit e t, o, ps => ∃ o', t.Runs allow o' ps ∧ o = o'.after [e]
  | fork c p, o, ps => ∃ oc pc pp, c.Runs allow oc pc ∧ p.Runs allow o pp ∧ ps = oc :: (pc ++ pp)
  | ask q k, o, ps => ∃ a, allow q a ∧ (k a).Runs allow o ps

variable {allow : ∀ q, A q → Prop}

/-- The run in which the environment answers by `ans`. -/
def exec (ans : ∀ q, A q) : Proc Q A ε χ α → Outcome ε χ α × List (Outcome ε χ α)
  | ret a => (⟨[], .returned a⟩, [])
  | exit x => (⟨[], .gone x⟩, [])
  | emit e t => ((t.exec ans).1.after [e], (t.exec ans).2)
  | fork c p => ((p.exec ans).1, (c.exec ans).1 :: ((c.exec ans).2 ++ (p.exec ans).2))
  | ask q k => (k (ans q)).exec ans

/-- `exec` is a run. -/
theorem runs_exec (ans : ∀ q, A q) (h : ∀ q, allow q (ans q)) (t : Proc Q A ε χ α) :
    t.Runs allow (t.exec ans).1 (t.exec ans).2 := by
  induction t with
  | ret a => exact ⟨rfl, rfl⟩
  | exit x => exact ⟨rfl, rfl⟩
  | emit e t ih => exact ⟨_, ih, rfl⟩
  | fork c p ihc ihp => exact ⟨_, _, _, ihc, ihp, rfl⟩
  | ask q k ih => exact ⟨ans q, h q, ih (ans q)⟩

/-! ### What every run satisfies -/

/-- In every run of `t` the events and the end of the process itself satisfy
`P`, those of every process it left behind `R`. -/
def Every (allow : ∀ q, A q → Prop) (P R : List ε → End χ α → Prop) : Proc Q A ε χ α → Prop
  | ret a => P [] (.returned a)
  | exit x => P [] (.gone x)
  | emit e t => t.Every allow (fun es r => P (e :: es) r) R
  | fork c p => c.Every allow R R ∧ p.Every allow P R
  | ask q k => ∀ a, allow q a → (k a).Every allow P R

variable {P P' R R' : List ε → End χ α → Prop}

@[simp] theorem every_ret (a : α) :
    (ret a : Proc Q A ε χ α).Every allow P R ↔ P [] (.returned a) := Iff.rfl

@[simp] theorem every_exit (x : χ) :
    (exit x : Proc Q A ε χ α).Every allow P R ↔ P [] (.gone x) := Iff.rfl

@[simp] theorem every_emit (e : ε) (t : Proc Q A ε χ α) :
    (emit e t).Every allow P R ↔ t.Every allow (fun es r => P (e :: es) r) R := Iff.rfl

@[simp] theorem every_fork (c p : Proc Q A ε χ α) :
    (fork c p).Every allow P R ↔ c.Every allow R R ∧ p.Every allow P R := Iff.rfl

@[simp] theorem every_ask (q : Q) (k : A q → Proc Q A ε χ α) :
    (ask q k).Every allow P R ↔ ∀ a, allow q a → (k a).Every allow P R := Iff.rfl

/-- `Every` speaks about the runs. -/
theorem Runs.every {t : Proc Q A ε χ α} {o : Outcome ε χ α} {ps : List (Outcome ε χ α)}
    (h : t.Runs allow o ps) (he : t.Every allow P R) :
    P o.events o.result ∧ ∀ p ∈ ps, R p.events p.result := by
  induction t generalizing P R o ps with
  | ret a =>
    obtain ⟨rfl, rfl⟩ := h
    exact ⟨he, by simp⟩
  | exit x =>
    obtain ⟨rfl, rfl⟩ := h
    exact ⟨he, by simp⟩
  | emit e t ih =>
    obtain ⟨o', h', rfl⟩ := h
    obtain ⟨ho, hps⟩ := ih h' he
    exact ⟨ho, hps⟩
  | fork c p ihc ihp =>
    obtain ⟨oc, pc, pp, hc, hp, rfl⟩ := h
    obtain ⟨hoc, hpc⟩ := ihc hc he.1
    obtain ⟨ho, hpp⟩ := ihp hp he.2
    refine ⟨ho, ?_⟩
    intro q hq
    rcases List.mem_cons.mp hq with rfl | hq
    · exact hoc
    · exact (List.mem_append.mp hq).elim (hpc q) (hpp q)
  | ask q k ih =>
    obtain ⟨a, ha, h⟩ := h
    exact ih a h (he a ha)

theorem Every.ite {c : Prop} [Decidable c] {t t' : Proc Q A ε χ α} (h : t.Every allow P R)
    (h' : t'.Every allow P R) : (if c then t else t').Every allow P R := by
  split
  · exact h
  · exact h'

/-- The rule of consequence. -/
theorem Every.mono {t : Proc Q A ε χ α} (h : t.Every allow P R)
    (hP : ∀ es r, P es r → P' es r) (hR : ∀ es r, R es r → R' es r) :
    t.Every allow P' R' := by
  induction t generalizing P P' with
  | ret a => exact hP _ _ h
  | exit x => exact hP _ _ h
  | emit e t ih => exact ih h fun es r => hP (e :: es) r
  | fork c p ihc ihp => exact ⟨ihc h.1 hR, ihp h.2 hP⟩
  | ask q k ih => exact fun a ha => ih a (h a ha) hP

theorem every_true (t : Proc Q A ε χ α) :
    t.Every allow (fun _ _ => True) fun _ _ => True := by
  induction t with
  | ret a => trivial
  | exit x => trivial
  | emit e t ih => exact ih
  | fork c p ihc ihp => exact ⟨ihc, ihp⟩
  | ask q k ih => exact fun a _ => ih a

/-- The rule for a sequence whose first part leaves only processes behind that
are gone. -/
theorem Every.bind {S : List ε → End χ α → Prop} {P R : List ε → End χ β → Prop}
    {t : Proc Q A ε χ α} {f : α → Proc Q A ε χ β}
    (h : t.Every allow S fun es r => ∃ x, r = .gone x ∧ R es (.gone x))
    (hx : ∀ es x, S es (.gone x) → P es (.gone x))
    (ha : ∀ es a, S es (.returned a) → (f a).Every allow (fun es' r => P (es ++ es') r) R) :
    (t >>= f).Every allow P R := by
  induction t generalizing S P with
  | ret a => exact ha _ _ h
  | exit x => exact hx _ _ h
  | emit e t ih => exact ih h (fun es x => hx (e :: es) x) fun es a => ha (e :: es) a
  | fork c p ihc ihp =>
    refine ⟨ihc h.1 ?_ ?_, ihp h.2 hx ha⟩
    · intro es x hr
      obtain ⟨y, hy, hR⟩ := hr
      cases hy
      exact hR
    · intro es a hr
      obtain ⟨y, hy, -⟩ := hr
      cases hy
  | ask q k ih => exact fun a hq => ih a (h a hq) hx ha

/-! ### Events of some process -/

/-- In every run of `t` some process emits an event of `E`. -/
def Has (allow : ∀ q, A q → Prop) (E : ε → Prop) : Proc Q A ε χ α → Prop
  | ret _ => False
  | exit _ => False
  | emit e t => E e ∨ t.Has allow E
  | fork c p => c.Has allow E ∨ p.Has allow E
  | ask q k => ∀ a, allow q a → (k a).Has allow E

variable {E : ε → Prop}

theorem Runs.has {t : Proc Q A ε χ α} {o : Outcome ε χ α} {ps : List (Outcome ε χ α)}
    (h : t.Runs allow o ps) (hh : t.Has allow E) : ∃ p ∈ o :: ps, ∃ e ∈ p.events, E e := by
  induction t generalizing o ps with
  | ret a => exact hh.elim
  | exit x => exact hh.elim
  | emit e t ih =>
    obtain ⟨o', h', rfl⟩ := h
    rcases hh with he | hh
    · exact ⟨_, List.mem_cons_self, e, List.mem_cons_self, he⟩
    · obtain ⟨p, hp, e', he', hE⟩ := ih h' hh
      rcases List.mem_cons.mp hp with rfl | hp
      · exact ⟨_, List.mem_cons_self, e', List.mem_cons_of_mem e he', hE⟩
      · exact ⟨p, List.mem_cons_of_mem _ hp, e', he', hE⟩
  | fork c p ihc ihp =>
    obtain ⟨oc, pc, pp, hc, hp, rfl⟩ := h
    rcases hh with hh | hh
    · obtain ⟨q, hq, hE⟩ := ihc hc hh
      refine ⟨q, ?_, hE⟩
      simp only [List.mem_cons, List.mem_append] at hq ⊢
      tauto
    · obtain ⟨q, hq, hE⟩ := ihp hp hh
      refine ⟨q, ?_, hE⟩
      simp only [List.mem_cons, List.mem_append] at hq ⊢
      tauto
  | ask q k ih =>
    obtain ⟨a, ha, h⟩ := h
    exact ih a h (hh a ha)

theorem Has.bind {t : Proc Q A ε χ α} (h : t.Has allow E) (f : α → Proc Q A ε χ β) :
    (t >>= f).Has allow E := by
  induction t with
  | ret a => exact h.elim
  | exit x => exact h.elim
  | emit e t ih => exact h.imp_right ih
  | fork c p ihc ihp => exact h.imp ihc ihp
  | ask q k ih => exact fun a ha => ih a (h a ha)

/-- The second part of a sequence has the event when the process returns from
the first. -/
theorem Every.bind_has {S R : List ε → End χ α → Prop} {t : Proc Q A ε χ α}
    {f : α → Proc Q A ε χ β} (h : t.Every allow S R) (hx : ∀ es x, ¬ S es (.gone x))
    (ha : ∀ es a, S es (.returned a) → (f a).Has allow E) : (t >>= f).Has allow E := by
  induction t generalizing S with
  | ret a => exact ha _ _ h
  | exit x => exact (hx _ _ h).elim
  | emit e t ih =>
    exact .inr (ih h (fun es x => hx (e :: es) x) fun es a => ha (e :: es) a)
  | fork c p _ ihp => exact .inr (ihp h.2 hx ha)
  | ask q k ih => exact fun a hq => ih a (h a hq) hx ha

/-! ### Runs of a sequence -/

/-- How a process of the first part of a sequence goes on: it is gone, or it
returned and runs the second part. -/
inductive GoesOn (allow : ∀ q, A q → Prop) (f : α → Proc Q A ε χ β) :
    Outcome ε χ α → Outcome ε χ β → List (Outcome ε χ β) → Prop
  | gone (es : List ε) (x : χ) : GoesOn allow f ⟨es, .gone x⟩ ⟨es, .gone x⟩ []
  | goes (es : List ε) {a : α} {o : Outcome ε χ β} {ps : List (Outcome ε χ β)} :
      (f a).Runs allow o ps → GoesOn allow f ⟨es, .returned a⟩ (o.after es) ps

theorem GoesOn.after {f : α → Proc Q A ε χ β} {o₁ : Outcome ε χ α} {o : Outcome ε χ β}
    {ps : List (Outcome ε χ β)} (h : GoesOn allow f o₁ o ps) (e : ε) :
    GoesOn allow f (o₁.after [e]) (o.after [e]) ps := by
  cases h with
  | gone es x => exact .gone (e :: es) x
  | goes es h => exact .goes (e :: es) h

/-- **A run of a sequence** is a run of its first part, each process of which
goes on: `qs` are the processes left behind by the main one later on. -/
theorem Runs.bind_inv {t : Proc Q A ε χ α} {f : α → Proc Q A ε χ β} {o : Outcome ε χ β}
    {ps : List (Outcome ε χ β)} (h : (t >>= f).Runs allow o ps) :
    ∃ o₁ ps₁ qs, t.Runs allow o₁ ps₁ ∧ GoesOn allow f o₁ o qs ∧ (∀ q ∈ qs, q ∈ ps) ∧
      (∀ p ∈ ps₁, ∃ q rs, GoesOn allow f p q rs ∧ q ∈ ps) ∧
      ∀ q ∈ ps, q ∈ qs ∨ ∃ p ∈ ps₁, ∃ q' rs, GoesOn allow f p q' rs ∧ (q = q' ∨ q ∈ rs) := by
  induction t generalizing o ps with
  | ret a =>
    exact ⟨_, [], ps, ⟨rfl, rfl⟩, .goes [] h, by simp, by simp, fun q hq => .inl hq⟩
  | exit x =>
    obtain ⟨rfl, rfl⟩ := h
    exact ⟨_, [], [], ⟨rfl, rfl⟩, .gone [] x, by simp, by simp, by simp⟩
  | emit e t ih =>
    obtain ⟨o', h', rfl⟩ := h
    obtain ⟨o₁, ps₁, qs, h₁, hg, hq, hp, hps⟩ := ih h'
    exact ⟨o₁.after [e], ps₁, qs, ⟨o₁, h₁, rfl⟩, hg.after e, hq, hp, hps⟩
  | fork c p ihc ihp =>
    obtain ⟨oc, pc, pp, hc, hp, rfl⟩ := h
    obtain ⟨oc₁, pc₁, qc, hc₁, hgc, hqc, hpc, hpsc⟩ := ihc hc
    obtain ⟨o₁, pp₁, qs, hp₁, hg, hq, hpp, hpsp⟩ := ihp hp
    refine ⟨o₁, oc₁ :: (pc₁ ++ pp₁), qs, ⟨oc₁, pc₁, pp₁, hc₁, hp₁, rfl⟩, hg,
      fun q h => by simp [hq q h], fun p₁ h => ?_, fun q h => ?_⟩
    · simp only [List.mem_cons, List.mem_append] at h
      rcases h with rfl | h | h
      · exact ⟨oc, qc, hgc, by simp⟩
      · obtain ⟨q, rs, hg', hm⟩ := hpc p₁ h
        exact ⟨q, rs, hg', by simp [hm]⟩
      · obtain ⟨q, rs, hg', hm⟩ := hpp p₁ h
        exact ⟨q, rs, hg', by simp [hm]⟩
    · simp only [List.mem_cons, List.mem_append] at h
      rcases h with rfl | h | h
      · exact .inr ⟨oc₁, by simp, q, qc, hgc, .inl rfl⟩
      · rcases hpsc q h with hm | ⟨p₁, hm, q', rs, hg', hrs⟩
        · exact .inr ⟨oc₁, by simp, oc, qc, hgc, .inr hm⟩
        · exact .inr ⟨p₁, by simp [hm], q', rs, hg', hrs⟩
      · rcases hpsp q h with hm | ⟨p₁, hm, q', rs, hg', hrs⟩
        · exact .inl hm
        · exact .inr ⟨p₁, by simp [hm], q', rs, hg', hrs⟩
  | ask q k ih =>
    obtain ⟨a, ha, h⟩ := h
    obtain ⟨o₁, ps₁, qs, h₁, hrest⟩ := ih a h
    exact ⟨o₁, ps₁, qs, ⟨a, ha, h₁⟩, hrest⟩

end Proc
