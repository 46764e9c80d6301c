/-
Simulation of programs that fork.

A program at a finer level keeps more data than the one it stands for, but it
asks the same questions, forks at the same places and ends its processes in the
same way.  It may emit further events: `erase` says which events the coarser
program has.

* `Proc.Sim` — the two programs, with the relation of what they return in every
  process;
* `Proc.Sim.bind` — the rule for a sequence;
* `Proc.Sim.eq_map` — without further events the finer program is the coarser
  one up to its result;
* `Proc.Returns` — what every process that returns from a program returns;
* `Proc.Emits` — what every event of every process satisfies;
* `Proc.Alone` — the program does not fork, `Proc.Alone.runs_bind` — what a run of
  such a program and of one after it looks like.
-/
import CshellXv6.Lib.ProcTree

namespace Proc

variable {Q : Type} {A : Q → Type} {ε ε' χ α β γ δ : Type}

theorem bind_ret (t : Proc Q A ε χ α) : (t >>= fun a => ret a) = t := by
  induction t with
  | ret a => rfl
  | exit x => rfl
  | emit e t ih => rw [emit_bind, ih]
  | fork c p ihc ihp => rw [fork_bind, ihc, ihp]
  | ask q k ih => simp only [ask_bind, ih]

/-! ### Simulation -/

/-- `t` simulates `t'`: it has the same questions, forks and ends, the events of `t'`
are those that `erase` leaves of its own, and what a process returns from it is
related by `R` to what the process returns from `t'`. -/
inductive Sim (erase : ε → Option ε') (R : α → β → Prop) :
    Proc Q A ε χ α → Proc Q A ε' χ β → Prop
  | ret {a : α} {b : β} : R a b → Sim erase R (ret a) (ret b)
  | exit (x : χ) : Sim erase R (exit x) (exit x)
  | emit {e : ε} {e' : ε'} {t : Proc Q A ε χ α} {t' : Proc Q A ε' χ β} :
      erase e = some e' → Sim erase R t t' → Sim erase R (emit e t) (emit e' t')
  | silent {e : ε} {t : Proc Q A ε χ α} {t' : Proc Q A ε' χ β} :
      erase e = none → Sim erase R t t' → Sim erase R (emit e t) t'
  | fork {c p : Proc Q A ε χ α} {c' p' : Proc Q A ε' χ β} :
      Sim erase R c c' → Sim erase R p p' → Sim erase R (fork c p) (fork c' p')
  | ask (q : Q) {k : A q → Proc Q A ε χ α} {k' : A q → Proc Q A ε' χ β} :
      (∀ a, Sim erase R (k a) (k' a)) → Sim erase R (ask q k) (ask q k')

variable {erase : ε → Option ε'} {R : α → β → Prop} {S : γ → δ → Prop}

/-- The rule for a sequence. -/
theorem Sim.bind {t : Proc Q A ε χ α} {t' : Proc Q A ε' χ β} {f : α → Proc Q A ε χ γ}
    {f' : β → Proc Q A ε' χ δ} (h : Sim erase R t t')
    (hf : ∀ a b, R a b → Sim erase S (f a) (f' b)) : Sim erase S (t >>= f) (t' >>= f') := by
  induction h with
  | ret hR => exact hf _ _ hR
  | exit x => exact .exit x
  | emit he _ ih => exact .emit he ih
  | silent he _ ih => exact .silent he ih
  | fork _ _ ihc ihp => exact .fork ihc ihp
  | ask q _ ih => exact .ask q ih

theorem Sim.mono {R' : α → β → Prop} {t : Proc Q A ε χ α} {t' : Proc Q A ε' χ β}
    (h : Sim erase R t t') (hR : ∀ a b, R a b → R' a b) : Sim erase R' t t' := by
  induction h with
  | ret hr => exact .ret (hR _ _ hr)
  | exit x => exact .exit x
  | emit he _ ih => exact .emit he ih
  | silent he _ ih => exact .silent he ih
  | fork _ _ ihc ihp => exact .fork ihc ihp
  | ask q _ ih => exact .ask q ih

theorem Sim.ite {c : Prop} [Decidable c] {t u : Proc Q A ε χ α} {t' u' : Proc Q A ε' χ β}
    (ht : c → Sim erase R t t') (hu : ¬ c → Sim erase R u u') :
    Sim erase R (if c then t else u) (if c then t' else u') := by
  split
  case isTrue h => exact ht h
  case isFalse h => exact hu h

/-- With the same events the one program is the other up to what it returns. -/
theorem Sim.eq_map {f : β → α} {t : Proc Q A ε χ α} {t' : Proc Q A ε χ β}
    (h : Sim some (fun a b => a = f b) t t') : t = (t' >>= fun b => pure (f b)) := by
  induction h with
  | ret hr => rw [hr]; rfl
  | exit x => rfl
  | emit he _ ih =>
    cases he
    rw [emit_bind, ← ih]
  | silent he _ _ => cases he
  | fork _ _ ihc ihp => rw [fork_bind, ← ihc, ← ihp]
  | ask q _ ih =>
    rw [ask_bind]
    exact congrArg _ (funext ih)

/-- The other way round: the coarser program is what the finer one makes of its
result. -/
theorem Sim.map_eq {f : α → β} {t : Proc Q A ε χ α} {t' : Proc Q A ε χ β}
    (h : Sim some (fun a b => f a = b) t t') : (t >>= fun a => pure (f a)) = t' := by
  induction h with
  | ret hr => rw [← hr]; rfl
  | exit x => rfl
  | emit he _ ih =>
    cases he
    rw [emit_bind, ih]
  | silent he _ _ => cases he
  | fork _ _ ihc ihp => rw [fork_bind, ihc, ihp]
  | ask q _ ih =>
    rw [ask_bind]
    exact congrArg _ (funext ih)

/-! ### What is returned -/

/-- Every process that returns from `t` returns an `a` with `P a`. -/
def Returns (P : α → Prop) : Proc Q A ε χ α → Prop
  | ret a => P a
  | exit _ => True
  | emit _ t => t.Returns P
  | fork c p => c.Returns P ∧ p.Returns P
  | ask _ k => ∀ a, (k a).Returns P

theorem Sim.returns {P : α → Prop} {t : Proc Q A ε χ α} {t' : Proc Q A ε' χ β}
    (h : Sim erase R t t') (hP : ∀ a b, R a b → P a) : t.Returns P := by
  induction h with
  | ret hr => exact hP _ _ hr
  | exit x => trivial
  | emit _ _ ih => exact ih
  | silent _ _ ih => exact ih
  | fork _ _ ihc ihp => exact ⟨ihc, ihp⟩
  | ask q _ ih => exact ih

theorem returns_true (t : Proc Q A ε χ α) : t.Returns fun _ => True := by
  induction t with
  | ret a => trivial
  | exit x => trivial
  | emit e t ih => exact ih
  | fork c p ihc ihp => exact ⟨ihc, ihp⟩
  | ask q k ih => exact ih

theorem Returns.bind {P : α → Prop} {P' : β → Prop} {t : Proc Q A ε χ α}
    {f : α → Proc Q A ε χ β} (h : t.Returns P) (hf : ∀ a, P a → (f a).Returns P') :
    (t >>= f).Returns P' := by
  induction t with
  | ret a => exact hf a h
  | exit x => trivial
  | emit e t ih => exact ih h
  | fork c p ihc ihp => exact ⟨ihc h.1, ihp h.2⟩
  | ask q k ih => exact fun a => ih a (h a)

theorem Returns.mono {P P' : α → Prop} {t : Proc Q A ε χ α} (h : t.Returns P)
    (hP : ∀ a, P a → P' a) : t.Returns P' := by
  induction t with
  | ret a => exact hP a h
  | exit x => trivial
  | emit e t ih => exact ih h
  | fork c p ihc ihp => exact ⟨ihc h.1, ihp h.2⟩
  | ask q k ih => exact fun a => ih a (h a)

/-- Whatever the first part returns. -/
theorem returns_bind {P : β → Prop} {t : Proc Q A ε χ α} {f : α → Proc Q A ε χ β}
    (h : ∀ a, (f a).Returns P) : (t >>= f).Returns P := t.returns_true.bind fun a _ => h a

theorem Returns.ite {P : α → Prop} {c : Prop} [Decidable c] {t u : Proc Q A ε χ α}
    (ht : t.Returns P) (hu : u.Returns P) : (if c then t else u).Returns P := by
  split
  · exact ht
  · exact hu

/-- A program simulates itself, with what it returns. -/
theorem Returns.sim {P : α → Prop} {t : Proc Q A ε χ α} (h : t.Returns P) :
    Sim some (fun a b => a = b ∧ P b) t t := by
  induction t with
  | ret a => exact .ret ⟨rfl, h⟩
  | exit x => exact .exit x
  | emit e t ih => exact .emit rfl (ih h)
  | fork c p ihc ihp => exact .fork (ihc h.1) (ihp h.2)
  | ask q k ih => exact .ask q fun a => ih a (h a)

/-- Two programs that start alike. -/
theorem sim_bind {t : Proc Q A ε χ α} {f : α → Proc Q A ε χ γ} {f' : α → Proc Q A ε χ δ}
    (h : ∀ a, Sim some S (f a) (f' a)) : Sim some S (t >>= f) (t >>= f') := by
  refine t.returns_true.sim.bind ?_
  rintro a b ⟨rfl, -⟩
  exact h a

/-! ### Further events -/

/-- The program with its events under another name. -/
def mapEvents (f : ε → ε') : Proc Q A ε χ α → Proc Q A ε' χ α
  | ret a => ret a
  | exit x => exit x
  | emit e t => emit (f e) (t.mapEvents f)
  | fork c p => fork (c.mapEvents f) (p.mapEvents f)
  | ask q k => ask q fun a => (k a).mapEvents f

theorem Sim.mapEvents {ε'' : Type} (f : ε → ε'') (erase' : ε'' → Option ε')
    (hf : ∀ e, erase' (f e) = erase e) {t : Proc Q A ε χ α} {t' : Proc Q A ε' χ β}
    (h : Sim erase R t t') : Sim erase' R (t.mapEvents f) t' := by
  induction h with
  | ret hr => exact .ret hr
  | exit x => exact .exit x
  | emit he _ ih => exact .emit ((hf _).trans he) ih
  | silent he _ ih => exact .silent ((hf _).trans he) ih
  | fork _ _ ihc ihp => exact .fork ihc ihp
  | ask q _ ih => exact .ask q ih

theorem Returns.mapEvents {P : α → Prop} (f : ε → ε') {t : Proc Q A ε χ α} (h : t.Returns P) :
    (t.mapEvents f).Returns P := by
  induction t with
  | ret a => exact h
  | exit x => trivial
  | emit e t ih => exact ih h
  | fork c p ihc ihp => exact ⟨ihc h.1, ihp h.2⟩
  | ask q k ih => exact fun a => ih a (h a)

/-- Every event that some process of the program emits satisfies `E`. -/
def Emits (E : ε → Prop) : Proc Q A ε χ α → Prop
  | ret _ => True
  | exit _ => True
  | emit e t => E e ∧ t.Emits E
  | fork c p => c.Emits E ∧ p.Emits E
  | ask _ k => ∀ a, (k a).Emits E

theorem Emits.mono {E E' : ε → Prop} {t : Proc Q A ε χ α} (h : t.Emits E)
    (hE : ∀ e, E e → E' e) : t.Emits E' := by
  induction t with
  | ret a => trivial
  | exit x => trivial
  | emit e t ih => exact ⟨hE e h.1, ih h.2⟩
  | fork c p ihc ihp => exact ⟨ihc h.1, ihp h.2⟩
  | ask q k ih => exact fun a => ih a (h a)

theorem Emits.bind {E : ε → Prop} {t : Proc Q A ε χ α} {f : α → Proc Q A ε χ β} (h : t.Emits E)
    (hf : ∀ a, (f a).Emits E) : (t >>= f).Emits E := by
  induction t with
  | ret a => exact hf a
  | exit x => trivial
  | emit e t ih => exact ⟨h.1, ih h.2⟩
  | fork c p ihc ihp => exact ⟨ihc h.1, ihp h.2⟩
  | ask q k ih => exact fun a => ih a (h a)

theorem emits_mapEvents {E : ε' → Prop} {f : ε → ε'} (hf : ∀ e, E (f e)) (t : Proc Q A ε χ α) :
    (t.mapEvents f).Emits E := by
  induction t with
  | ret a => trivial
  | exit x => trivial
  | emit e t ih => exact ⟨hf e, ih⟩
  | fork c p ihc ihp => exact ⟨ihc, ihp⟩
  | ask q k ih => exact ih

/-- The events of a run. -/
theorem Emits.runs {E : ε → Prop} {allow : ∀ q, A q → Prop} {t : Proc Q A ε χ α}
    {o : Outcome ε χ α} {ps : List (Outcome ε χ α)} (ht : t.Emits E) (h : t.Runs allow o ps) :
    ∀ p ∈ o :: ps, ∀ e ∈ p.events, E e := by
  induction t generalizing o ps with
  | ret a =>
    obtain ⟨rfl, rfl⟩ := h
    simp
  | exit x =>
    obtain ⟨rfl, rfl⟩ := h
    simp
  | emit e t ih =>
    obtain ⟨o', h', rfl⟩ := h
    have ih := ih ht.2 h'
    rw [List.forall_mem_cons] at ih ⊢
    exact ⟨List.forall_mem_cons.mpr ⟨ht.1, ih.1⟩, ih.2⟩
  | fork c p ihc ihp =>
    obtain ⟨oc, pc, pp, hc, hp, rfl⟩ := h
    have ihc := ihc ht.1 hc
    have ihp := ihp ht.2 hp
    intro q hq
    simp only [List.mem_cons, List.mem_append] at hq ihc ihp
    rcases hq with rfl | rfl | hq | hq
    · exact ihp _ (.inl rfl)
    · exact ihc _ (.inl rfl)
    · exact ihc q (.inr hq)
    · exact ihp q (.inr hq)
  | ask q k ih =>
    obtain ⟨a, ha, h⟩ := h
    exact ih a (ht a) h

/-! ### Programs that do not fork -/

/-- The program does not fork, and every event it emits satisfies `E`. -/
def Alone (E : ε → Prop) : Proc Q A ε χ α → Prop
  | ret _ => True
  | exit _ => True
  | emit e t => E e ∧ t.Alone E
  | fork _ _ => False
  | ask _ k => ∀ a, (k a).Alone E

theorem Alone.bind {E : ε → Prop} {t : Proc Q A ε χ α} {f : α → Proc Q A ε χ β} (h : t.Alone E)
    (hf : ∀ a, (f a).Alone E) : (t >>= f).Alone E := by
  induction t with
  | ret a => exact hf a
  | exit x => trivial
  | emit e t ih => exact ⟨h.1, ih h.2⟩
  | fork c p _ _ => exact h.elim
  | ask q k ih => exact fun a => ih a (h a)

theorem Alone.ite {E : ε → Prop} {c : Prop} [Decidable c] {t u : Proc Q A ε χ α} (ht : t.Alone E)
    (hu : u.Alone E) : (if c then t else u).Alone E := by
  split
  · exact ht
  · exact hu

theorem Alone.mapEvents {E : ε → Prop} {E' : ε' → Prop} (f : ε → ε') (hf : ∀ e, E e → E' (f e))
    {t : Proc Q A ε χ α} (h : t.Alone E) : (t.mapEvents f).Alone E' := by
  induction t with
  | ret a => trivial
  | exit x => trivial
  | emit e t ih => exact ⟨hf e h.1, ih h.2⟩
  | fork c p _ _ => exact h.elim
  | ask q k ih => exact fun a => ih a (h a)

/-- A run of a sequence whose first part does not fork: the process ends in the first
part, or it goes on from it. -/
theorem Alone.runs_bind {E : ε → Prop} {P : α → Prop} {allow : ∀ q, A q → Prop}
    {t : Proc Q A ε χ α} {f : α → Proc Q A ε χ β} {o : Outcome ε χ β} {ps : List (Outcome ε χ β)}
    (ht : t.Alone E) (hr : t.Returns P) (h : (t >>= f).Runs allow o ps) :
    ∃ es, (∀ e ∈ es, E e) ∧ ((∃ x, o = ⟨es, .gone x⟩ ∧ ps = []) ∨
      ∃ a o', P a ∧ (f a).Runs allow o' ps ∧ o = o'.after es) := by
  induction t generalizing o with
  | ret a => exact ⟨[], by simp, .inr ⟨a, o, hr, h, rfl⟩⟩
  | exit x =>
    obtain ⟨rfl, rfl⟩ := h
    exact ⟨[], by simp, .inl ⟨x, rfl, rfl⟩⟩
  | emit e t ih =>
    obtain ⟨o', h', rfl⟩ := h
    obtain ⟨es, hes, hor⟩ := ih ht.2 hr h'
    refine ⟨e :: es, List.forall_mem_cons.mpr ⟨ht.1, hes⟩, ?_⟩
    rcases hor with ⟨x, rfl, rfl⟩ | ⟨a, o'', ha, hf, rfl⟩
    · exact .inl ⟨x, rfl, rfl⟩
    · exact .inr ⟨a, o'', ha, hf, rfl⟩
  | fork c p _ _ => exact ht.elim
  | ask q k ih =>
    obtain ⟨a, ha, h⟩ := h
    exact ih a (ht a) (hr a) h

/-- A run of a program that does not fork. -/
theorem Alone.runs {E : ε → Prop} {allow : ∀ q, A q → Prop} {t : Proc Q A ε χ α}
    {o : Outcome ε χ α} {ps : List (Outcome ε χ α)} (ht : t.Alone E) (h : t.Runs allow o ps) :
    ps = [] ∧ ∀ e ∈ o.events, E e := by
  induction t generalizing o with
  | ret a =>
    obtain ⟨rfl, rfl⟩ := h
    exact ⟨rfl, by simp⟩
  | exit x =>
    obtain ⟨rfl, rfl⟩ := h
    exact ⟨rfl, by simp⟩
  | emit e t ih =>
    obtain ⟨o', h', rfl⟩ := h
    obtain ⟨hps, hes⟩ := ih ht.2 h'
    exact ⟨hps, List.forall_mem_cons.mpr ⟨ht.1, hes⟩⟩
  | fork c p _ _ => exact ht.elim
  | ask q k ih =>
    obtain ⟨a, ha, h⟩ := h
    exact ih a (ht a) h

end Proc
