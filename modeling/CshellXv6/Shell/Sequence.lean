/-
The order in which `process_cmd` dispatches the groups of a line.

The shell should dispatch every group once and from left to right, stopping
early only at a foreground command that was not found.  Three things derail it,
when more of the line is to come:

* a `reveal` that meets `-` while `prev` is empty: its option loop moves `i` on
  and skips commands;
* a `peek` with an option among its operands: it returns from `process_cmd`;
* a foreground program that ends with status 8, the status `run_cmd` uses for
  a command that was not found.

`dispatched_in_order_iff` says that nothing else does.
-/
import CshellXv6.Shell.ProcessFacts

namespace Cshell

/-- The events that are not calls of the source. -/
def marks (es : List Event) : List Event := es.filter (!·.plain)

@[simp] theorem marks_append (es fs : List Event) : marks (es ++ fs) = marks es ++ marks fs := by
  simp [marks]

theorem marks_eq_nil {es : List Event} (h : Only Event.plain es) : marks es = [] := by
  rw [marks, List.filter_eq_nil_iff]
  intro e he
  simp [h e he]

/-- The arguments of a `reveal` or a `peek` that derails the loop. -/
def Job.derails (j : Job) (prev : Str) : Bool :=
  j.cmd = "reveal".toList && 2 ≤ j.args.length && (revealOptions j.args prev).isNone ||
    j.cmd = "peek".toList && !peekValid j.args

/-- What the shell itself does in the turn of a command: the marks it leaves and
how the turn ends. -/
inductive Turn (j : Job) (prev : Str) : List Event → Ctl → Prop
  | left : Turn j prev [] (.next j.after prev)
  | done (prev' : Str) : j.derails prev = false → Turn j prev [.own j.line prev] (.next j.after prev')
  | skip {rest : List Node} : j.derails prev = true → rest <:+ j.after →
      (j.after ≠ [] → rest.length < j.after.length) →
      Turn j prev [.own j.line prev] (.next rest prev)
  | quit : j.derails prev = true → Turn j prev [.own j.line prev] .ret
  | waited (found : Bool) (st : Status) : j.derails prev = false →
      Turn j prev [.own j.line prev, .waited j.line found st]
        (if st = .exited 8 then .brk else .next j.after prev)

section Turns

variable {allow : ∀ q, Answer q → Prop} {α β : Type}

variable (allow) in
/-- In every run the process returns, with marks and a result as `T` says. -/
def Shows (T : List Event → α → Prop) (t : Shell α) : Prop :=
  t.Every allow (fun es r => ∃ c, r = .returned c ∧ T (marks es) c) fun _ _ => True

theorem Shows.ret {T : List Event → α → Prop} {c : α} (h : T [] c) : Shows allow T (.ret c) :=
  ⟨c, rfl, h⟩

theorem Shows.event {T : List Event → β → Prop} {e : Event} {f : Unit → Shell β}
    (he : e.plain = false) (h : Shows allow (fun ms c => T (e :: ms) c) (f ())) :
    Shows allow T (event e >>= f) := by
  have hm : ∀ es, marks (e :: es) = e :: marks es := by
    intro es
    simp [marks, he]
  show (f ()).Every allow (fun es r => ∃ c, r = .returned c ∧ T (marks (e :: es)) c) _
  simp only [hm]
  exact h

theorem Tame.bind_shows {T : List Event → β → Prop} {t : Shell α} {f : α → Shell β}
    (ht : Tame allow Event.plain t) (h : ∀ a, Shows allow T (f a)) : Shows allow T (t >>= f) := by
  refine ht.bind_every (fun _ _ _ => trivial) ?_
  intro es a hp
  refine Proc.Every.mono (h a) (fun es' r ⟨c, hc, hT⟩ => ⟨c, hc, ?_⟩) fun _ _ h => h
  rwa [marks_append, marks_eq_nil hp, List.nil_append]

/-- After a fork only the shell's side counts. -/
theorem Shows.fork {T : List Event → β → Prop} {f : Pid → Shell β}
    (hf : Shows allow T (f .failed)) (hp : Shows allow T (f .parent)) :
    Shows allow T (fork >>= f) := by
  intro ok _
  cases ok with
  | false => exact hf
  | true => exact ⟨Proc.every_true _, hp⟩

theorem Shows.ite {T : List Event → α → Prop} {c : Prop} [Decidable c] {t t' : Shell α}
    (h : Shows allow T t) (h' : Shows allow T t') : Shows allow T (if c then t else t') :=
  Proc.Every.ite h h'

variable {j : Job} {prev : Str}

theorem inBackground_turn {k : Bool → Shell Ctl}
    (h : Shows allow (fun ms c => Turn j prev (.own j.line prev :: ms) c) (k false)) :
    Shows allow (Turn j prev) (inBackground j prev k) := by
  unfold inBackground
  split
  · refine Shows.fork ?_ ?_
    · exact (print_tame _).bind_shows fun _ => Shows.event rfl h
    · exact (Tame.event rfl).bind_shows fun _ => .ret .left
  · exact Shows.event rfl h

theorem endChild_shows {t : Shell α} {f : α → Ctl} {T : List Event → Ctl → Prop}
    (h : Tame allow Event.plain t) (hT : ∀ a, T [] (f a)) :
    Shows allow T (do let a ← t; endChild false; return f a) :=
  h.bind_shows fun a => .ret (hT a)

theorem builtinBranch_shows {body : Shell Unit} {code : ℕ} (h : Tame allow Event.plain body)
    (hd : j.derails prev = false) :
    Shows allow (fun ms c => Turn j prev (.own j.line prev :: ms) c)
      (builtinBranch j prev false body code) :=
  endChild_shows (runBuiltin_tame h code) fun _ => .done prev hd

/-- What the option loop of `reveal` leaves of the line it has run into. -/
theorem revealNoPrev_shows (i : ℕ) (ns : List Node) {T : List Event → Ctl → Prop}
    {f : List Node → Shell Ctl}
    (h : ∀ rest, rest <:+ ns → (ns ≠ [] → rest.length < ns.length) → Shows allow T (f rest)) :
    Shows allow T (revealNoPrev i ns >>= f) := by
  induction ns generalizing i with
  | nil =>
    rw [revealNoPrev]
    exact (print_tame _).bind_shows fun _ => h [] List.suffix_rfl (by simp)
  | cons n ns ih =>
    rw [revealNoPrev]
    show Shows allow T (print _ >>= fun _ => (if (skipOptions (n.args.drop i)).2 then
      revealNoPrev (i + (skipOptions (n.args.drop i)).1) ns else pure ns) >>= f)
    refine (print_tame _).bind_shows fun _ => ?_
    split
    · refine ih _ fun rest hs _ => h rest (hs.trans (List.suffix_cons n ns)) fun _ => ?_
      have := hs.length_le
      simp only [List.length_cons]
      omega
    · exact h ns (List.suffix_cons n ns) (by simp)

theorem revealBranch_turn (hc : j.cmd = "reveal".toList) :
    Shows allow (Turn j prev) (revealBranch j prev) := by
  refine inBackground_turn ?_
  split
  · rename_i hl
    refine builtinBranch_shows (call_tame _ _) ?_
    simp [Job.derails, hc, show ¬ 2 ≤ j.args.length by omega]
  · rename_i hl
    split
    · -- a `-` with an empty `prev`: the loop over the options has moved `i`
      rename_i ho
      have hd : j.derails prev = true := by
        simp [Job.derails, hc, ho, show 2 ≤ j.args.length by omega]
      exact revealNoPrev_shows _ _ fun rest hs hlt => .ret (.skip hd hs hlt)
    · rename_i args k ho
      have hd : j.derails prev = false := by simp [Job.derails, hc, ho]
      refine .ite (endChild_shows (print_tame _) fun _ => .done prev hd) (.ite ?_ ?_)
      · exact (redirected_tame (call_tame _ _) 1).bind_shows fun _ => .ret (.done prev hd)
      · exact endChild_shows (call_tame _ _) fun _ => .done prev hd

theorem peekBranch_turn (hc : j.cmd = "peek".toList) :
    Shows allow (Turn j prev) (peekBranch j prev) := by
  refine inBackground_turn ?_
  split
  · -- the error path of `peek` returns from `process_cmd`
    rename_i hv
    have hd : j.derails prev = true := by simp [Job.derails, hc, hv]
    exact endChild_shows (print_tame _) fun _ => .quit hd
  · rename_i hv
    have hd : j.derails prev = false := by simpa [Job.derails, hc] using hv
    refine .ite ?_ ?_
    · exact (redirected_tame (call_tame _ _) 1).bind_shows fun _ => .ret (.done prev hd)
    · exact endChild_shows (call_tame _ _) fun _ => .done prev hd

theorem externalBranch_turn (hd : j.derails prev = false) :
    Shows allow (Turn j prev) (externalBranch j prev) := by
  refine inBackground_turn ((lookup_tame _).bind_shows ?_)
  intro found
  have hw : Shows allow (fun ms c => Turn j prev (.own j.line prev :: ms) c) (do
      let st ← waitFor j.cmd
      event (.waited j.line found st)
      if st = .exited 8 then return Ctl.brk else return .next j.after prev) := by
    refine (waitFor_tame _).bind_shows fun st => Shows.event rfl ?_
    have ht := Turn.waited found st hd
    split
    · rename_i h8
      rw [if_pos h8] at ht
      exact .ret ht
    · rename_i h8
      rw [if_neg h8] at ht
      exact .ret ht
  exact Shows.fork hw hw

/-- **One turn** of the shell for a command. -/
theorem command_turn (j : Job) (prev : Str) : Shows allow (Turn j prev) (command j prev) := by
  have hd : j.cmd ≠ "reveal".toList → j.cmd ≠ "peek".toList → j.derails prev = false :=
    fun h₁ h₂ => by
      simp only [Job.derails, decide_eq_false h₁, decide_eq_false h₂, Bool.false_and, Bool.or_self]
  unfold command
  split
  · rename_i hc
    have hd : j.derails prev = false := hd (by rw [hc]; decide) (by rw [hc]; decide)
    refine inBackground_turn (.ite (endChild_shows ?_ fun _ => .done prev hd)
      (endChild_shows (hop_tame _ _) fun prev' => .done prev' hd))
    exact redirected_tame ((hop_tame j.args prev).bind fun _ => .ret ()) 1
  split
  · exact revealBranch_turn ‹_›
  rename_i hr
  split
  · exact peekBranch_turn ‹_›
  rename_i hp
  have hd := hd hr hp
  have hb : ∀ args code, Shows allow (Turn j prev)
      (inBackground j prev fun child => builtinBranch j prev child (call j.cmd args) code) :=
    fun args code => inBackground_turn (builtinBranch_shows (call_tame _ _) hd)
  split
  · refine inBackground_turn (.ite (endChild_shows (print_tame _) fun _ => .done prev hd) ?_)
    exact builtinBranch_shows (call_tame _ _) hd
  split
  · exact hb [] 0
  split
  · -- `resume` and `snoop` leave no mark of their own
    refine (redirIn_tame _).bind_shows fun _ => .ite ?_ (.ret .left)
    refine (redirOut_tame _).bind_shows fun _ => .ite ?_ (.ret .left)
    exact (call_tame _ _).bind_shows fun _ => .ret .left
  split
  · exact hb j.args 0
  split
  · exact hb j.args 0
  split
  · have hw : Shows allow (Turn j prev) (do
        let _ ← waitFor j.cmd
        return Ctl.next j.after prev) := (waitFor_tame _).bind_shows fun _ => .ret .left
    exact .ite ((call_tame _ _).bind_shows fun _ => .ret .left) (Shows.fork hw hw)
  · exact externalBranch_turn hd

end Turns

/-! ### The groups of a line -/

/-- The suffixes of the line at which a group starts; `inGroup` says that the
command before is piped into the line. -/
def startsFrom (inGroup : Bool) : List Node → List (List Node)
  | [] => []
  | n :: ns => if inGroup then startsFrom n.piped ns else (n :: ns) :: startsFrom n.piped ns

/-- The groups of a line, each as the line from its first command on. -/
def groupStarts (line : List Node) : List (List Node) := startsFrom false line

theorem startsFrom_eq (n : Node) (ns : List Node) :
    startsFrom n.piped ns = groupStarts (dropGroup (n :: ns)) := by
  induction ns generalizing n with
  | nil => cases h : n.piped <;> simp [dropGroup, h, startsFrom, groupStarts]
  | cons m ns ih =>
    cases h : n.piped with
    | false => simp [dropGroup, h, groupStarts]
    | true =>
      have hd : dropGroup (n :: m :: ns) = dropGroup (m :: ns) := by simp [dropGroup, h]
      rw [hd, ← ih m]
      simp [startsFrom]

@[simp] theorem groupStarts_cons (n : Node) (ns : List Node) :
    groupStarts (n :: ns) = (n :: ns) :: groupStarts (dropGroup (n :: ns)) := by
  rw [← startsFrom_eq]
  simp [groupStarts, startsFrom]

@[simp] theorem groupStarts_nil : groupStarts [] = [] := rfl

/-- The groups a process dispatched, in order. -/
def dispatched (es : List Event) : List (List Node) :=
  es.filterMap fun
    | .dispatch line _ => some line
    | _ => none

/-- Every group once and in order, or the groups up to a foreground command that
was not found. -/
def InOrder (line : List Node) (es : List Event) : Prop :=
  dispatched es = groupStarts line ∨
    dispatched es <+: groupStarts line ∧
      ∃ l st, (dispatched es).getLast? = some l ∧ Event.waited l false st ∈ es

/-- An event that derails the loop, with more of the line to come: the shell
itself goes on with a `reveal` or `peek` of the bad kind, or it sees status 8
from a program that was found. -/
def Derails (home : Home) : Event → Prop
  | .own (n :: after) prev => after ≠ [] ∧ (n.job home after).any (·.derails prev) = true
  | .waited (_ :: after) found st => after ≠ [] ∧ found = true ∧ st = .exited 8
  | _ => False

instance (home : Home) : DecidablePred (Derails home) := fun e =>
  match e with
  | .own (_ :: _) _ | .waited (_ :: _) _ _ => inferInstanceAs (Decidable (_ ∧ _))
  | .own [] _ | .waited [] _ _ | .dispatch _ _ | .print _ | .start _ | .run _ _ | .assignBg _
  | .assignStopped _ | .noLongerWaiting => inferInstanceAs (Decidable False)

/-! The three notions read the marks only. -/

theorem dispatched_marks (es : List Event) : dispatched (marks es) = dispatched es := by
  unfold dispatched marks
  rw [List.filterMap_filter]
  refine List.filterMap_congr ?_
  intro e _
  cases e <;> rfl

theorem mem_marks {e : Event} {es : List Event} (h : e.plain = false) :
    e ∈ marks es ↔ e ∈ es := by simp [marks, h]

theorem inOrder_marks {line : List Node} {es : List Event} :
    InOrder line (marks es) ↔ InOrder line es := by
  unfold InOrder
  rw [dispatched_marks]
  simp only [mem_marks (show (Event.waited _ false _).plain = false from rfl)]

theorem derails_marks {home : Home} {es : List Event} :
    (∀ e ∈ marks es, ¬ Derails home e) ↔ ∀ e ∈ es, ¬ Derails home e := by
  constructor
  · intro h e he hd
    have hp : e.plain = false := by cases e <;> simp_all [Derails, Event.plain]
    exact h e ((mem_marks hp).mpr he) hd
  · intro h e he
    exact h e (List.mem_of_mem_filter he)

/-! ### The marks of a whole line -/

/-- The turn for a group: a pipeline, or a command by itself. -/
inductive GroupTurn (home : Home) (n : Node) (ns : List Node) (prev : Str) :
    List Event → Ctl → Prop
  | pipeline : GroupTurn home n ns prev [.dispatch (n :: ns) prev]
      (.next (dropGroup (n :: ns)) prev)
  | single {j : Job} {tm : List Event} {c : Ctl} : n.piped = false →
      n.job home ns = some j → Turn j prev tm c →
      GroupTurn home n ns prev (.dispatch (n :: ns) prev :: tm) c

/-- The marks the shell leaves on a line. -/
inductive LineMarks (home : Home) : List Node → List Event → Prop
  | nil : LineMarks home [] []
  | stop {n : Node} {ns : List Node} {prev : Str} {tm : List Event} {c : Ctl} :
      GroupTurn home n ns prev tm c → c = .brk ∨ c = .ret → LineMarks home (n :: ns) tm
  | next {n : Node} {ns rest : List Node} {prev prev' : Str} {tm ms : List Event} :
      GroupTurn home n ns prev tm (.next rest prev') → LineMarks home rest ms →
      LineMarks home (n :: ns) (tm ++ ms)

/-- The shell's side of a pipeline leaves no marks. -/
theorem startStages_shows {allow : ∀ q, Answer q → Prop} {T : List Event → Ctl → Prop}
    {home : Home} {prev : Str} {ns : List Node} {f : Unit → Shell Ctl}
    (h : Shows allow T (f ())) : Shows allow T (startStages home prev ns >>= f) := by
  induction ns with
  | nil => exact h
  | cons n ns ih =>
    rw [startStages, Proc.bind_assoc]
    refine (report_tame _).bind_shows fun _ => ?_
    rw [Proc.bind_assoc]
    refine (report_tame _).bind_shows fun _ => ?_
    rw [Proc.bind_assoc]
    exact Shows.fork ih ih

theorem piped_shows {allow : ∀ q, Answer q → Prop} {T : List Event → Ctl → Prop} {home : Home}
    {prev : Str} {ns : List Node} {back : Bool} {c : Ctl} (h : T [] c) :
    Shows allow T (piped home prev ns back >>= fun _ => .ret c) := by
  rw [piped, Proc.bind_assoc]
  refine (makePipes_tame _).bind_shows ?_
  intro b
  split
  · rw [Proc.bind_assoc]
    refine startStages_shows ?_
    refine Tame.bind_shows (.ite (Tame.event rfl) ?_) fun _ => .ret h
    exact (waitStages_tame _).bind fun _ => .ite (Tame.event rfl) (.ret ())
  · exact (print_tame _).bind_shows fun _ => .ret h

theorem processGroup_shows {allow : ∀ q, Answer q → Prop} {home : Home} {n : Node}
    {ns : List Node} {prev : Str} (h : Passes n.args) :
    Shows allow (GroupTurn home n ns prev) (processGroup home prev (n :: ns)) := by
  cases hp : n.piped with
  | true =>
    rw [processGroup_piped hp]
    exact Shows.event rfl (piped_shows .pipeline)
  | false =>
    obtain ⟨j, hj⟩ := exists_job h home ns
    rw [processGroup_single hp, singleCommand_some hj]
    refine Shows.event rfl (Proc.Every.mono (command_turn j prev) ?_ fun _ _ h => h)
    rintro es r ⟨c, hc, ht⟩
    exact ⟨c, hc, .single hp hj ht⟩

/-- The line left after a turn is a proper suffix. -/
theorem GroupTurn.suffix {home : Home} {n : Node} {ns rest : List Node} {prev prev' : Str}
    {tm : List Event} (h : GroupTurn home n ns prev tm (.next rest prev')) : rest <:+ ns := by
  generalize hc : Ctl.next rest prev' = c at h
  cases h with
  | pipeline =>
    cases hc
    exact dropGroup_suffix n ns
  | single hp hj ht =>
    have ha := (job_line hj).2
    cases ht with
    | left | done =>
      cases hc
      exact ha ▸ List.suffix_rfl
    | skip _ hs =>
      cases hc
      rwa [← ha]
    | quit => cases hc
    | waited found st =>
      split at hc
      · cases hc
      · cases hc
        exact ha ▸ List.suffix_rfl

theorem processLine_marks {allow : ∀ q, Answer q → Prop} {home : Home} {k : ℕ}
    {line : List Node} {prev : Str} {o : Outcome Event Exit Str}
    {ps : List (Outcome Event Exit Str)} (hk : line.length ≤ k) (hl : ∀ n ∈ line, Passes n.args)
    (h : (processLine home k line prev).Runs allow o ps) :
    LineMarks home line (marks o.events) := by
  -- induction on the turns; every turn takes a command off the line
  induction k generalizing line prev o ps with
  | zero =>
    obtain rfl : line = [] := by simpa using hk
    obtain ⟨o', ⟨rfl, -⟩, rfl⟩ := h
    exact .nil
  | succ k ih =>
    cases line with
    | nil =>
      obtain ⟨o', ⟨rfl, -⟩, rfl⟩ := h
      exact .nil
    | cons n ns =>
      obtain ⟨o₁, ps₁, qs, h₁, hg, -⟩ := Proc.Runs.bind_inv h
      obtain ⟨⟨c, hc, ht⟩, -⟩ := h₁.every (processGroup_shows (hl n (by simp)))
      cases hg with
      | gone es x => cases hc
      | @goes es b o₂ _ h₂ =>
        cases hc
        cases c with
        | next rest prev' =>
          have hs := ht.suffix
          have hr : LineMarks home rest (marks o₂.events) := by
            refine ih ?_ (fun m hm => hl m (List.mem_cons_of_mem _ (hs.subset hm))) h₂
            have := hs.length_le
            simp only [List.length_cons] at hk
            omega
          have hm : marks (es ++ o₂.events) = marks es ++ marks o₂.events := marks_append _ _
          show LineMarks home (n :: ns) (marks (es ++ o₂.events))
          rw [hm]
          exact .next ht hr
        | brk =>
          obtain ⟨o', ⟨rfl, -⟩, rfl⟩ := h₂
          have hm : marks (es ++ [Event.noLongerWaiting]) = marks es := by simp [marks, Event.plain]
          show LineMarks home (n :: ns) (marks (es ++ [Event.noLongerWaiting]))
          rw [hm]
          exact .stop ht (.inl rfl)
        | ret =>
          obtain ⟨rfl, -⟩ := h₂
          show LineMarks home (n :: ns) (marks (es ++ []))
          rw [List.append_nil]
          exact .stop ht (.inr rfl)

/-! ### Marks and order -/

@[simp] theorem dispatched_nil : dispatched [] = [] := rfl

@[simp] theorem dispatched_append (es fs : List Event) :
    dispatched (es ++ fs) = dispatched es ++ dispatched fs := by simp [dispatched]

@[simp] theorem dispatched_dispatch (line : List Node) (prev : Str) (es : List Event) :
    dispatched (.dispatch line prev :: es) = line :: dispatched es := rfl

theorem Turn.dispatched {j : Job} {prev : Str} {tm : List Event} {c : Ctl}
    (h : Turn j prev tm c) : dispatched tm = [] := by
  cases h <;> rfl

/-- A turn dispatches its own group. -/
theorem GroupTurn.dispatched {home : Home} {n : Node} {ns : List Node} {prev : Str}
    {tm : List Event} {c : Ctl} (h : GroupTurn home n ns prev tm c) :
    dispatched tm = [n :: ns] := by
  cases h with
  | pipeline => rfl
  | single _ _ ht => rw [dispatched_dispatch, ht.dispatched]

/-- A turn waits for its own command. -/
theorem GroupTurn.waited_line {home : Home} {n : Node} {ns l : List Node} {prev : Str}
    {tm : List Event} {c : Ctl} {found : Bool} {st : Status}
    (h : GroupTurn home n ns prev tm c) (hw : Event.waited l found st ∈ tm) : l = n :: ns := by
  cases h with
  | pipeline => simp at hw
  | single hp hj ht =>
    have hl := (job_line hj).1
    cases ht <;> simp_all

/-- The lines in the marks are not longer than the line. -/
theorem LineMarks.length_le {home : Home} {line : List Node} {ms : List Event}
    (h : LineMarks home line ms) :
    (∀ l ∈ dispatched ms, l.length ≤ line.length) ∧
      ∀ l found st, Event.waited l found st ∈ ms → l.length ≤ line.length := by
  induction h with
  | nil => simp
  | stop ht _ =>
    constructor
    · intro l hl
      rw [ht.dispatched, List.mem_singleton] at hl
      exact Nat.le_of_eq (congrArg List.length hl)
    · intro l found st hw
      exact Nat.le_of_eq (congrArg List.length (ht.waited_line hw))
  | @next n ns rest prev prev' tm ms ht hr ih =>
    have hs := ht.suffix.length_le
    constructor
    · intro l hl
      rw [dispatched_append, ht.dispatched, List.singleton_append, List.mem_cons] at hl
      rcases hl with rfl | hl
      · exact Nat.le_refl _
      · have := ih.1 l hl
        simp only [List.length_cons]
        omega
    · intro l found st hw
      rcases List.mem_append.mp hw with hw | hw
      · exact Nat.le_of_eq (congrArg List.length (ht.waited_line hw))
      · have := ih.2 l found st hw
        simp only [List.length_cons]
        omega

/-- A line that is not empty is dispatched. -/
theorem LineMarks.head {home : Home} {n : Node} {ns : List Node} {ms : List Event}
    (h : LineMarks home (n :: ns) ms) : ∃ d, dispatched ms = (n :: ns) :: d := by
  cases h with
  | stop ht _ => exact ⟨[], ht.dispatched⟩
  | next ht _ => exact ⟨_, by rw [dispatched_append, ht.dispatched]; rfl⟩

/-- A turn that moves on to the next group leaves the order to the rest. -/
theorem inOrder_next {home : Home} {n : Node} {ns : List Node} {prev : Str}
    {tm ms : List Event} {c : Ctl} (ht : GroupTurn home n ns prev tm c)
    (hr : LineMarks home (dropGroup (n :: ns)) ms) :
    InOrder (n :: ns) (tm ++ ms) ↔ InOrder (dropGroup (n :: ns)) ms := by
  have hd : dispatched (tm ++ ms) = (n :: ns) :: dispatched ms := by
    rw [dispatched_append, ht.dispatched]
    rfl
  have hlt : (dropGroup (n :: ns)).length < (n :: ns).length := by
    have := (dropGroup_suffix n ns).length_le
    simp only [List.length_cons]
    omega
  unfold InOrder
  rw [hd, groupStarts_cons, List.cons_inj_right, List.prefix_cons_inj]
  refine or_congr_right' fun hne => and_congr_right fun hpre => ?_
  -- groups are left, so the rest has dispatched one and its last group is that of the whole
  obtain ⟨d₀, d, hms⟩ : ∃ d₀ d, dispatched ms = d₀ :: d := by
    cases hg : dropGroup (n :: ns) with
    | nil =>
      rw [hg] at hr hne
      cases hr
      exact absurd rfl hne
    | cons m ms' =>
      rw [hg] at hr
      exact ⟨_, hr.head⟩
  rw [hms, List.getLast?_cons_cons]
  refine exists_congr fun l => exists_congr fun st => and_congr_right fun hl => ?_
  rw [List.mem_append]
  refine ⟨fun hw => hw.resolve_left fun hw => ?_, .inr⟩
  -- the last group dispatched is shorter than this one
  have hle := hr.length_le.1 l (hms ▸ List.mem_of_getLast? hl)
  rw [ht.waited_line hw] at hle
  omega

/-- A turn that ends the loop is in order when nothing was left, or its command
was not found. -/
theorem inOrder_stop {home : Home} {n : Node} {ns : List Node} {prev : Str} {tm : List Event}
    {c : Ctl} (ht : GroupTurn home n ns prev tm c) :
    InOrder (n :: ns) tm ↔
      dropGroup (n :: ns) = [] ∨ ∃ st, Event.waited (n :: ns) false st ∈ tm := by
  unfold InOrder
  rw [ht.dispatched, groupStarts_cons, List.cons_inj_right]
  refine or_congr ?_ ?_
  · cases dropGroup (n :: ns) with
    | nil => simp
    | cons m ms => simp
  · simp

/-- A turn that skips commands is out of order. -/
theorem not_inOrder_skip {home : Home} {n : Node} {ns rest : List Node} {prev : Str}
    {tm ms : List Event} {c : Ctl} (ht : GroupTurn home n ns prev tm c)
    (hr : LineMarks home rest ms) (hp : n.piped = false) (hlt : rest.length < ns.length)
    (hw : ∀ l found st, Event.waited l found st ∉ tm) : ¬ InOrder (n :: ns) (tm ++ ms) := by
  have hd : dispatched (tm ++ ms) = (n :: ns) :: dispatched ms := by
    rw [dispatched_append, ht.dispatched]
    rfl
  obtain ⟨m, ns', rfl⟩ := List.exists_cons_of_length_pos (Nat.lt_of_le_of_lt (Nat.zero_le _) hlt)
  have hg : groupStarts (n :: m :: ns') =
      (n :: m :: ns') :: (m :: ns') :: groupStarts (dropGroup (m :: ns')) := by
    rw [groupStarts_cons]
    simp [dropGroup, hp]
  -- the next group is never dispatched: everything later is shorter
  have hnot : (m :: ns') ∉ dispatched ms := fun hm =>
    absurd (hr.length_le.1 _ hm) (Nat.not_le.mpr hlt)
  unfold InOrder
  rw [hd, hg, List.cons_inj_right, List.prefix_cons_inj]
  rintro (he | ⟨hpre, l, st, hl, hmem⟩)
  · exact hnot (he ▸ List.mem_cons_self)
  · cases hms : dispatched ms with
    | nil =>
      rw [hms, List.getLast?_singleton, Option.some_inj] at hl
      rcases List.mem_append.mp hmem with hmem | hmem
      · exact hw _ _ _ hmem
      · have := hr.length_le.2 _ _ _ hmem
        rw [← hl] at this
        simp only [List.length_cons] at this hlt
        omega
    | cons d₀ d =>
      rw [hms, List.cons_prefix_cons] at hpre
      exact hnot (hms ▸ hpre.1 ▸ List.mem_cons_self)

/-- Marks that do not derail leave the question to what follows. -/
theorem derails_append {home : Home} {tm ms : List Event} (h : ∀ e ∈ tm, ¬ Derails home e) :
    (∀ e ∈ tm ++ ms, ¬ Derails home e) ↔ ∀ e ∈ ms, ¬ Derails home e := by
  rw [List.forall_mem_append]
  exact and_iff_right h

theorem LineMarks.inOrder_iff {home : Home} {line : List Node} {ms : List Event}
    (h : LineMarks home line ms) : InOrder line ms ↔ ∀ e ∈ ms, ¬ Derails home e := by
  -- induction on the turns: one that goes on to the next group leaves both sides to the rest
  induction h with
  | nil => simp [InOrder]
  | @stop n ns prev tm c ht hc =>
    rw [inOrder_stop ht]
    cases ht with
    | pipeline => simp at hc
    | @single j tm c hp hj ht =>
      obtain ⟨hl, ha⟩ := job_line hj
      have hdrop : dropGroup (n :: ns) = ns := by simp [dropGroup, hp]
      rw [hdrop]
      cases ht with
      | left | done | skip => simp at hc
      | quit hd => simp [hl, Derails, hj, hd]
      | waited found st hd =>
        split at hc
        · -- status 8: the stop is allowed when the command was not found
          rename_i h8
          cases found with
          | false => simp [hl, Derails, hj, hd]
          | true => simp [hl, Derails, hj, hd, h8]
        · simp at hc
  | @next n ns rest prev prev' tm ms ht hr ih =>
    have ht' := ht
    generalize hc : Ctl.next rest prev' = c at ht
    cases ht with
    | pipeline =>
      cases hc
      rw [inOrder_next ht' hr, ih, derails_append (by simp [Derails])]
    | @single j tm c hp hj ht =>
      obtain ⟨hl, ha⟩ := job_line hj
      have hdrop : dropGroup (n :: ns) = ns := by simp [dropGroup, hp]
      cases ht with
      | left =>
        cases hc
        rw [ha, ← hdrop] at hr ih
        rw [inOrder_next ht' hr, ih, derails_append (by simp [Derails])]
      | done _ hd =>
        cases hc
        rw [ha, ← hdrop] at hr ih
        rw [inOrder_next ht' hr, ih, derails_append (by simp [hl, Derails, hj, hd])]
      | skip hd hs hlt =>
        cases hc
        rw [ha] at hs hlt
        by_cases hns : ns = []
        · -- the last command: there is nothing to skip
          subst hns
          obtain rfl : rest = [] := by simpa using hs
          rw [← hdrop] at hr ih
          rw [inOrder_next ht' hr, ih, derails_append (by simp [hl, Derails])]
        · have hno := not_inOrder_skip ht' hr hp (hlt hns) (by simp)
          refine iff_of_false hno fun h => h (.own (n :: ns) prev) (by simp [hl]) ?_
          simp [Derails, hns, hj, hd]
      | quit => cases hc
      | waited found st hd =>
        split at hc
        · cases hc
        · rename_i h8
          cases hc
          rw [ha, ← hdrop] at hr ih
          rw [inOrder_next ht' hr, ih, derails_append (by simp [hl, Derails, hj, hd, h8])]

/-- The lines of the theorem: they get through the lexer, the parser and the
passes of every command. -/
structure Accepted (cmd : Str) (line : List Node) : Prop where
  parsed : (lexer cmd).bind parser = some line
  passes : ∀ n ∈ line, Passes n.args

/-- **The groups are dispatched in order** in exactly the runs in which nothing
derails the loop, whatever the environment answers. -/
theorem dispatched_in_order_iff (home : Home) (prev cmd : Str) (line : List Node)
    (hl : Accepted cmd line) (o : Outcome Event Exit Str) (ps : List (Outcome Event Exit Str))
    (h : (processCmd home prev cmd).Runs (fun _ _ => True) o ps) :
    InOrder line o.events ↔ ∀ e ∈ o.events, ¬ Derails home e := by
  obtain ⟨ts, hts, hns⟩ := Option.bind_eq_some_iff.mp hl.parsed
  simp only [processCmd, hts, hns] at h
  rw [← inOrder_marks, ← derails_marks]
  exact (processLine_marks (Nat.le_refl _) hl.passes h).inOrder_iff

/-- An environment that finds no program. -/
def noProgram : (q : Query) → Answer q
  | .fork | .pipe | .openRead _ | .openWrite _ _ => true
  | .lookup _ => false
  | .wait _ => .exited 8
  | .hop _ prev => prev

/-- The line `x ; reveal -`. -/
def missingThenReveal : List Node :=
  [⟨[['x']], by simp, false, true, false⟩,
    ⟨["reveal".toList, ['-']], by simp, false, false, false⟩]

/-- `x ; reveal -` with no program `x`: the loop stops after `x`, as it may. -/
theorem in_order_missing :
    InOrder missingThenReveal
      ((processCmd ⟨['/'], rfl⟩ [] "x ; reveal -".toList).exec noProgram).1.events :=
  (dispatched_in_order_iff _ _ _ _ ⟨by decide +kernel, by decide +kernel⟩ _ _
    (Proc.runs_exec noProgram (fun _ => trivial) _)).mpr (by decide +kernel)

/-- The line `reveal - ; x`. -/
def revealThenX : List Node :=
  [⟨["reveal".toList, ['-']], by simp, false, true, false⟩,
    ⟨[['x']], by simp, false, false, false⟩]

/-- `reveal - ; x` before any `hop`: `x` is skipped. -/
theorem reveal_skips_command :
    Accepted "reveal - ; x".toList revealThenX ∧
    ∃ o ps, (processCmd ⟨['/'], rfl⟩ [] "reveal - ; x".toList).Runs (fun _ _ => True) o ps ∧
      ¬ InOrder revealThenX o.events := by
  refine ⟨⟨by decide +kernel, by decide +kernel⟩, _, _,
    Proc.runs_exec noProgram (fun _ => trivial) _, ?_⟩
  have he : ((processCmd ⟨['/'], rfl⟩ [] "reveal - ; x".toList).exec noProgram).1.events =
      [.dispatch revealThenX [], .own revealThenX [], .print "reveal: no such directory\n".toList,
        .noLongerWaiting] := by decide +kernel
  rw [he]
  have hd : groupStarts revealThenX = [revealThenX, revealThenX.tail] := by decide +kernel
  rw [InOrder, hd]
  simp [dispatched]

end Cshell
