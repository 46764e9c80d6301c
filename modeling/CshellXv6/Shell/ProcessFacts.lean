/-
What the parts of `process_cmd` do, whatever the environment answers.

The parts below one turn of the loop emit plain events only (no `dispatch`,
`own`, `start` or `waited`), and the processes they leave behind are gone.
Three shapes of such a part are told apart, for any set `E` of events:

* `Tame` — the process itself returns from it;
* `Exits` — it does not;
* `Mild` — it may do either.
-/
import CshellXv6.Lib.ProcSim
import CshellXv6.Shell.ProcessCmd

namespace Cshell

/-- The events that are calls of the source. -/
def Event.plain : Event → Bool
  | .print _ | .run _ _ | .assignBg _ | .assignStopped _ | .noLongerWaiting => true
  | .dispatch _ _ | .own _ _ | .start _ | .waited _ _ _ => false

/-- All events satisfy `E`. -/
def Only (E : Event → Bool) (es : List Event) : Prop := ∀ e ∈ es, E e = true

@[simp] theorem only_nil {E : Event → Bool} : Only E [] := by simp [Only]

@[simp] theorem only_cons {E : Event → Bool} {e : Event} {es : List Event} :
    Only E (e :: es) ↔ E e = true ∧ Only E es := by simp [Only]

@[simp] theorem only_append {E : Event → Bool} {es fs : List Event} :
    Only E (es ++ fs) ↔ Only E es ∧ Only E fs := by
  simp only [Only, List.mem_append]
  grind

/-- A process that is gone, with events of `E` only. -/
def Gone {α : Type} (E : Event → Bool) (es : List Event) (r : End Exit α) : Prop :=
  Only E es ∧ ∃ x, r = .gone x

/-- A process that has returned, with events of `E` only. -/
def Back {α : Type} (E : Event → Bool) (es : List Event) (r : End Exit α) : Prop :=
  Only E es ∧ ∃ a, r = .returned a

section Shapes

variable {allow : ∀ q, Answer q → Prop} {E F : Event → Bool} {α β : Type}

variable (allow E) in
def Mild (t : Shell α) : Prop := t.Every allow (fun es _ => Only E es) (Gone E)

variable (allow E) in
def Tame (t : Shell α) : Prop := t.Every allow (Back E) (Gone E)

variable (allow E) in
def Exits (t : Shell α) : Prop := t.Every allow (Gone E) (Gone E)

theorem Only.weaken {es : List Event} (h : Only E es) (hEF : ∀ e, E e = true → F e = true) :
    Only F es := fun e he => hEF e (h e he)

theorem Gone.weaken {es : List Event} {r : End Exit α} (h : Gone E es r)
    (hEF : ∀ e, E e = true → F e = true) : Gone F es r := ⟨h.1.weaken hEF, h.2⟩

theorem Tame.weaken {t : Shell α} (h : Tame allow E t) (hEF : ∀ e, E e = true → F e = true) :
    Tame allow F t :=
  Proc.Every.mono h (fun _ _ h => ⟨h.1.weaken hEF, h.2⟩) fun _ _ h => h.weaken hEF

theorem Exits.weaken {t : Shell α} (h : Exits allow E t) (hEF : ∀ e, E e = true → F e = true) :
    Exits allow F t :=
  Proc.Every.mono h (fun _ _ h => h.weaken hEF) fun _ _ h => h.weaken hEF

theorem Tame.mild {t : Shell α} (h : Tame allow E t) : Mild allow E t :=
  Proc.Every.mono h (fun _ _ h => h.1) fun _ _ h => h

theorem Exits.mild {t : Shell α} (h : Exits allow E t) : Mild allow E t :=
  Proc.Every.mono h (fun _ _ h => h.1) fun _ _ h => h

/-- A tame part in front of anything that lets its events pass. -/
theorem Tame.bind_every {t : Shell α} {f : α → Shell β} {P R : List Event → End Exit β → Prop}
    (h : Tame allow E t) (hR : ∀ es x, Only E es → R es (.gone x))
    (hf : ∀ es a, Only E es → (f a).Every allow (fun es' r => P (es ++ es') r) R) :
    (t >>= f).Every allow P R := by
  refine Proc.Every.bind (S := Back E) (Proc.Every.mono h (fun _ _ h => h) ?_) ?_
    fun es a h => hf es a h.1
  · rintro es r ⟨hp, x, rfl⟩
    exact ⟨x, rfl, hR es x hp⟩
  · rintro es x ⟨-, a, ha⟩
    cases ha

theorem Tame.bind {t : Shell α} {f : α → Shell β} (h : Tame allow E t)
    (hf : ∀ a, Tame allow E (f a)) : Tame allow E (t >>= f) := by
  refine h.bind_every (fun es x hp => ⟨hp, x, rfl⟩) ?_
  intro es a hp
  exact Proc.Every.mono (hf a) (fun es' r h => ⟨by simp [hp, h.1], h.2⟩) fun _ _ h => h

/-- A mild part in front: what follows decides how the process ends, unless it
is gone already. -/
theorem Mild.bind_every {t : Shell α} {f : α → Shell β} {P : List Event → End Exit β → Prop}
    (h : Mild allow E t) (hx : ∀ es x, Only E es → P es (.gone x))
    (hf : ∀ es a, Only E es → (f a).Every allow (fun es' r => P (es ++ es') r) (Gone E)) :
    (t >>= f).Every allow P (Gone E) := by
  refine Proc.Every.bind (S := fun es _ => Only E es) (Proc.Every.mono h (fun _ _ h => h) ?_)
    hx hf
  rintro es r ⟨hp, x, rfl⟩
  exact ⟨x, rfl, hp, x, rfl⟩

theorem Mild.bind {t : Shell α} {f : α → Shell β} (h : Mild allow E t)
    (hf : ∀ a, Mild allow E (f a)) : Mild allow E (t >>= f) := by
  refine h.bind_every (fun es x h => h) ?_
  intro es a hp
  exact Proc.Every.mono (hf a) (fun es' r h => by simp [hp, h]) fun _ _ h => h

theorem Mild.bind_exits {t : Shell α} {f : α → Shell β} (h : Mild allow E t)
    (hf : ∀ a, Exits allow E (f a)) : Exits allow E (t >>= f) := by
  refine h.bind_every (fun es x h => ⟨h, x, rfl⟩) ?_
  intro es a hp
  exact Proc.Every.mono (hf a) (fun es' r h => ⟨by simp [hp, h.1], h.2⟩) fun _ _ h => h

theorem Tame.ret (a : α) : Tame allow E (.ret a) := ⟨only_nil, a, rfl⟩

theorem Tame.event {e : Event} (h : E e = true) : Tame allow E (event e) :=
  ⟨by simp [h], (), rfl⟩

theorem Tame.ask {q : Query} {k : Answer q → Shell α} (h : ∀ a, Tame allow E (k a)) :
    Tame allow E (.ask q k) := fun a _ => h a

theorem Exits.exit (x : Exit) : Exits allow E (.exit x : Shell α) := ⟨only_nil, x, rfl⟩

/-- A fork whose child ends. -/
theorem Tame.fork {f : Pid → Shell α} (hf : Tame allow E (f .failed))
    (hc : Exits allow E (f .child)) (hp : Tame allow E (f .parent)) :
    Tame allow E (fork >>= f) := by
  intro ok _
  cases ok with
  | false => exact hf
  | true => exact ⟨hc, hp⟩

theorem Tame.ite {c : Prop} [Decidable c] {t t' : Shell α} (h : Tame allow E t)
    (h' : Tame allow E t') : Tame allow E (if c then t else t') := Proc.Every.ite h h'

theorem Mild.ite {c : Prop} [Decidable c] {t t' : Shell α} (h : Mild allow E t)
    (h' : Mild allow E t') : Mild allow E (if c then t else t') := Proc.Every.ite h h'

theorem Exits.ite {c : Prop} [Decidable c] {t t' : Shell α} (h : Exits allow E t)
    (h' : Exits allow E t') : Exits allow E (if c then t else t') := Proc.Every.ite h h'

/-! ### The parts -/

theorem print_tame (msg : Str) : Tame allow Event.plain (print msg) := Tame.event rfl

theorem openRead_tame (f : Str) : Tame allow Event.plain (openRead f) := Tame.ask Tame.ret

theorem openWrite_tame (f : Str) (append : Bool) : Tame allow Event.plain (openWrite f append) :=
  Tame.ask Tame.ret

theorem pipe_tame : Tame allow Event.plain pipe := Tame.ask Tame.ret

theorem lookup_tame (cmd : Str) : Tame allow Event.plain (lookup cmd) := Tame.ask Tame.ret

theorem wait_tame (cmd : Str) : Tame allow Event.plain (wait cmd) := Tame.ask Tame.ret

theorem openAllRead_tame (fs : List Str) : Tame allow Event.plain (openAllRead fs) := by
  induction fs with
  | nil => exact .ret true
  | cons f fs ih =>
    exact (openRead_tame f).bind fun b => ih.ite ((print_tame _).bind fun _ => .ret false)

theorem openAllWrite_tame (fs : List (Str × Bool)) : Tame allow Event.plain (openAllWrite fs) := by
  induction fs with
  | nil => exact .ret true
  | cons f fs ih =>
    exact (openWrite_tame f.1 f.2).bind fun b => ih.ite ((print_tame _).bind fun _ => .ret false)

theorem redirIn_tame (ins : List Str) : Tame allow Event.plain (redirIn ins) := by
  match ins with
  | [] => exact .ret true
  | [f] => exact (openAllRead_tame [f]).bind fun b => (openRead_tame f).ite (.ret false)
  | f :: g :: fs =>
    refine (openAllRead_tame _).bind fun b => .ite (pipe_tame.bind fun b => .ite ?_ ?_) (.ret _)
    · exact .fork (.ret true) (.exit _) (.ret true)
    · exact .ret false

theorem redirOut_tame (outs : List (Str × Bool)) : Tame allow Event.plain (redirOut outs) := by
  refine (openAllWrite_tame outs).bind fun b => .ite ?_ (.ret false)
  match outs with
  | [] => exact .ret true
  | [_] => exact .ret true
  | _ :: _ :: _ =>
    refine pipe_tame.bind fun b => .ite ?_ (.ret false)
    exact .fork (.ret false) (.exit _) (.ret true)

theorem redirect_mild (ins : List Str) (outs : List (Str × Bool)) :
    Mild allow Event.plain (redirect ins outs) := by
  refine (redirIn_tame ins).mild.bind fun b => .ite ?_ (Exits.exit _).mild
  refine (redirOut_tame outs).mild.bind fun b => .ite (Tame.ret ()).mild (Exits.exit _).mild

theorem runCmd_exits (cmd : Str) (args : List Str) (found : Bool) :
    Exits allow Event.plain (runCmd cmd args found : Shell α) := by
  match cmd with
  | [] => exact .exit _
  | c :: cs =>
    refine (Tame.event rfl).mild.bind_exits fun _ => .ite (.exit _) ?_
    exact (print_tame _).mild.bind_exits fun _ => .exit _

/-- It does not return. -/
theorem runCmd_returns {α : Type} {P : α → Prop} (cmd : Str) (args : List Str) (found : Bool) :
    (runCmd cmd args found : Shell α).Returns P := by
  cases cmd with
  | nil => trivial
  | cons c cs =>
    cases found with
    | true => trivial
    | false => trivial

theorem waitFor_tame (cmd : Str) : Tame allow Event.plain (waitFor cmd) :=
  (wait_tame cmd).bind fun st => .ite ((Tame.event rfl).bind fun _ => .ret st) (.ret st)

theorem call_tame (cmd : Str) (args : List Str) : Tame allow Event.plain (call cmd args) := Tame.event rfl

theorem hop_tame (args : List Str) (prev : Str) : Tame allow Event.plain (hop args prev) :=
  (Tame.event rfl : Tame allow Event.plain (event (.run "hop".toList args))).bind
    fun _ => Tame.ask Tame.ret

/-- The child of a redirected builtin ends. -/
theorem redirected_tame {j : Job} {body : Shell Unit} (h : Tame allow Event.plain body) (code : ℕ) :
    Tame allow Event.plain (redirected j body code) := by
  have hw : Tame allow Event.plain (do let _ ← waitFor j.cmd : Shell Unit) :=
    (waitFor_tame j.cmd).bind fun _ => .ret ()
  refine .fork hw ?_ hw
  exact (redirect_mild _ _).bind_exits fun _ => h.mild.bind_exits fun _ => .exit _

theorem runBuiltin_tame {j : Job} {body : Shell Unit} (h : Tame allow Event.plain body) (code : ℕ) :
    Tame allow Event.plain (runBuiltin j body code) := (redirected_tame h code).ite h

theorem snoop_tame (cmd : Str) (args : List Str) : Tame allow Event.plain (snoop cmd args) := by
  refine (call_tame cmd args).bind fun _ => .ite (.ret ()) ?_
  exact .fork (.ret ()) (.exit _) (.ret ())

theorem revealNoPrev_tame (j : ℕ) (ns : List Node) : Tame allow Event.plain (revealNoPrev j ns) := by
  induction ns generalizing j with
  | nil =>
    rw [revealNoPrev]
    exact (print_tame _).bind fun _ => .ret []
  | cons n ns ih =>
    rw [revealNoPrev]
    exact (print_tame _).bind fun _ => (ih _).ite (.ret ns)

theorem execBuiltin_tame (cmd : Str) (args : List Str) (prev : Str) :
    Tame allow Event.plain (execBuiltin cmd args prev) :=
  .ite ((hop_tame args prev).bind fun _ => .ret ()) (.ite (call_tame _ _)
    (.ite (call_tame _ _) (call_tame _ _)))

theorem report_tame (ok : Bool) : Tame allow Event.plain (report ok) :=
  .ite (.ret ()) (print_tame _)

theorem makePipes_tame (k : ℕ) : Tame allow Event.plain (makePipes k) := by
  induction k with
  | zero => exact .ret true
  | succ k ih => exact pipe_tame.bind fun b => ih.ite (.ret false)

theorem waitStages_tame (ns : List Node) : Tame allow Event.plain (waitStages ns) := by
  induction ns with
  | nil => exact .ret false
  | cons n ns ih => exact (wait_tame _).bind fun st => ih.bind fun rest => .ret _

end Shapes

/-! ### One turn of the loop -/

/-- The command a node stands for, once it got through the two passes. -/
def Node.job (home : Home) (n : Node) (after : List Node) : Option Job :=
  let i := extIn (n.args.map (expand home))
  match i.files, (extOut i.args).files with
  | some ins, some outs =>
    some ⟨n :: after, after, expand home n.cmd, (extOut i.args).args, ins, outs, n.background⟩
  | _, _ => none

/-- A node that failed in the second pass and ends the line. -/
def Node.aborts (home : Home) (n : Node) : Bool :=
  (extIn (n.args.map (expand home))).files.isSome && (n.background || n.semi)

/-- A node stands for a command exactly when it gets through the passes. -/
theorem job_isSome_iff (home : Home) (n : Node) (after : List Node) :
    (n.job home after).isSome = true ↔ Passes n.args := by
  rw [← passes_expand home, Passes, Node.job]
  cases (extIn (n.args.map (expand home))).files with
  | none => simp
  | some ins =>
    cases (extOut (extIn (n.args.map (expand home))).args).files with
    | none => simp
    | some outs => simp

theorem exists_job {n : Node} (h : Passes n.args) (home : Home) (after : List Node) :
    ∃ j, n.job home after = some j :=
  Option.isSome_iff_exists.mp ((job_isSome_iff home n after).mpr h)

theorem job_eq_none {n : Node} (h : ¬ Passes n.args) (home : Home) (after : List Node) :
    n.job home after = none := by
  rw [← Option.not_isSome_iff_eq_none, job_isSome_iff]
  exact h

theorem job_line {home : Home} {n : Node} {after : List Node} {j : Job}
    (h : n.job home after = some j) : j.line = n :: after ∧ j.after = after := by
  simp only [Node.job] at h
  split at h
  · simp only [Option.some_inj] at h
    rw [← h]
    exact ⟨rfl, rfl⟩
  · cases h

theorem singleCommand_some {home : Home} {n : Node} {after : List Node} {j : Job} {prev : Str}
    (h : n.job home after = some j) :
    singleCommand home prev n after =
      (event (.dispatch (n :: after) prev) >>= fun _ => command j prev) := by
  simp only [Node.job] at h
  unfold singleCommand
  split at h
  · rename_i ins outs hi ho
    simp only [Option.some_inj] at h
    simp only [hi, ho, h]
  · cases h

theorem singleCommand_none {home : Home} {n : Node} {after : List Node} {prev : Str}
    (h : n.job home after = none) :
    singleCommand home prev n after =
      (print invalidSyntax >>= fun _ =>
        return if n.aborts home then .ret else .next after prev) := by
  unfold Node.job at h
  unfold singleCommand Node.aborts
  cases hi : (extIn (n.args.map (expand home))).files with
  | none => simp [hi]
  | some ins =>
    cases ho : (extOut (extIn (n.args.map (expand home))).args).files with
    | none =>
      cases hs : n.background || n.semi with
      | false => simp [hi, ho]
      | true => simp [hi, ho]
    | some outs => simp [hi, ho] at h

theorem dropGroup_suffix (n : Node) (ns : List Node) : dropGroup (n :: ns) <:+ ns := by
  induction ns generalizing n with
  | nil => cases h : n.piped <;> simp [dropGroup, h]
  | cons m ns ih =>
    cases h : n.piped with
    | false => simp [dropGroup, h]
    | true =>
      have hd : dropGroup (n :: m :: ns) = dropGroup (m :: ns) := by simp [dropGroup, h]
      rw [hd]
      exact (ih m).trans (List.suffix_cons m ns)

theorem processGroup_piped {home : Home} {n : Node} {ns : List Node} {prev : Str}
    (h : n.piped = true) :
    processGroup home prev (n :: ns) =
      (event (.dispatch (n :: ns) prev) >>= fun _ =>
        piped home prev (takeGroup (n :: ns))
          ((takeGroup (n :: ns)).getLast?.any (·.background)) >>= fun _ =>
        return .next (dropGroup (n :: ns)) prev) := by
  simp [processGroup, h]

theorem processGroup_single {home : Home} {n : Node} {ns : List Node} {prev : Str}
    (h : n.piped = false) : processGroup home prev (n :: ns) = singleCommand home prev n ns := by
  simp [processGroup, h]

/-- An environment in which everything succeeds. -/
def allSucceed : (q : Query) → Answer q
  | .fork | .pipe | .openRead _ | .openWrite _ _ | .lookup _ => true
  | .wait _ => .exited 0
  | .hop _ prev => prev

end Cshell
