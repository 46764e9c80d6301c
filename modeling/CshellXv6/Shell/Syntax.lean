/-
Which lines `process_cmd` starts to execute.

A line outside the grammar should be refused as a whole.  But the check is
spread over the parser and the two redirection passes, and these run command
by command, while the line is being executed: a line of which the parser has
no complaint is started as soon as one of its commands gets through its own
passes.

* `StartsCommand` — some command of the line is reached and gets through;
* `syntax_checked_iff` — the tokens on which the check agrees with the grammar;
* `syntax_checked_of_unquoted` — among them every line of the grammar in which
  no redirection operator is quoted.
-/
import CshellXv6.Shell.Commands
import CshellXv6.Shell.ProcessFacts

namespace Cshell

/-- Every fork and every pipe succeeds. -/
def CallsSucceed : (q : Query) → Answer q → Prop
  | .fork, ok => ok = true
  | .pipe, ok => ok = true
  | _, _ => True

/-- A command by itself whose second pass fails cuts the line when `;` or `&`
follows it. -/
def Node.cuts (n : Node) : Bool := (extIn n.args).files.isSome && (n.background || n.semi)

/-- A command of the line is reached and gets through its passes; `inGroup` says
that the command before is piped into the line. -/
def startsCommand (inGroup : Bool) : List Node → Bool
  | [] => false
  | n :: ns =>
    if Passes n.args then true
    else if !inGroup && !n.piped && n.cuts then false
    else startsCommand n.piped ns

def StartsCommand (line : List Node) : Prop := startsCommand false line = true

instance (line : List Node) : Decidable (StartsCommand line) :=
  inferInstanceAs (Decidable (_ = true))

/-- The events with which a command starts. -/
def Event.starts : Event → Bool
  | .start _ => true
  | .dispatch (n :: _) _ => !n.piped
  | _ => false

def Event.idle (e : Event) : Bool := !e.starts

theorem Event.idle_of_plain (e : Event) (h : e.plain = true) : e.idle = true := by
  cases e <;> simp_all [Event.plain, Event.idle, Event.starts]

/-- Some process starts a command. -/
def Started {α : Type} (o : Outcome Event Exit α) (ps : List (Outcome Event Exit α)) : Prop :=
  ∃ p ∈ o :: ps, ∃ e ∈ p.events, e.starts = true

theorem extIn_expand (home : Home) (args : List Str) :
    (extIn (args.map (expand home))).files.isSome = (extIn args).files.isSome := by
  have h := scan_expand home inOp (fun a => by simp only [inOp, expand_lt]) args
  rw [extIn, extIn, rewrite_isSome, rewrite_isSome, h.2]

theorem aborts_eq_cuts (home : Home) (n : Node) : n.aborts home = n.cuts := by
  rw [Node.aborts, Node.cuts, extIn_expand]

theorem not_passes_of_not_starts {n : Node} {ns : List Node}
    (h : startsCommand false (n :: ns) = false) : ¬ Passes n.args := by
  intro hps
  simp [startsCommand, hps] at h

/-- A pipeline starts when a stage gets through; otherwise the rest decides. -/
theorem startsCommand_group {b : Bool} {n : Node} (ns : List Node) (h : (b || n.piped) = true) :
    startsCommand b (n :: ns) =
      ((takeGroup (n :: ns)).any (fun m => decide (Passes m.args)) ||
        startsCommand false (dropGroup (n :: ns))) := by
  have hc : (!b && !n.piped && n.cuts) = false := by
    cases b <;> simp_all
  induction ns generalizing n b with
  | nil => cases hp : n.piped <;> simp [startsCommand, takeGroup, dropGroup, hp]
  | cons m ns ih =>
    rw [startsCommand, hc]
    cases hp : n.piped with
    | false => simp [takeGroup, dropGroup, hp]
    | true =>
      have ht : takeGroup (n :: m :: ns) = n :: takeGroup (m :: ns) := by simp [takeGroup, hp]
      have hd : dropGroup (n :: m :: ns) = dropGroup (m :: ns) := by simp [dropGroup, hp]
      rw [ht, hd, List.any_cons, Bool.or_assoc, ← ih (b := true) rfl rfl]
      by_cases hps : Passes n.args
      · simp [hps]
      · simp [hps]

theorem startsCommand_single {n : Node} (ns : List Node) (h : n.piped = false)
    (hp : ¬ Passes n.args) :
    startsCommand false (n :: ns) = (!n.cuts && startsCommand false ns) := by
  rw [startsCommand, if_neg hp, h]
  cases n.cuts <;> simp

/-! ### Lines that start nothing -/

section Refused

variable {allow : ∀ q, Answer q → Prop}

/-- A stage that does not get through ends its child at once. -/
theorem stageChild_idle {home : Home} {n : Node} (h : ¬ Passes n.args) (prev : Str) :
    Exits allow Event.plain (stageChild (expand home n.cmd)
      (extOut (extIn (n.args.map (expand home))).args).args
      (extIn (n.args.map (expand home))).files
      (extOut (extIn (n.args.map (expand home))).args).files prev) := by
  rw [← passes_expand home, Passes] at h
  unfold stageChild
  split
  · exact .exit _
  · exact (redirIn_tame _).mild.bind_exits fun _ => .ite (.exit _) (.exit _)
  · rename_i ins outs hi ho
    exact absurd ⟨by rw [hi]; rfl, by rw [ho]; rfl⟩ h

theorem startStages_idle {home : Home} {prev : Str} {ns : List Node}
    (h : ∀ n ∈ ns, ¬ Passes n.args) : Tame allow Event.plain (startStages home prev ns) := by
  induction ns with
  | nil => exact .ret ()
  | cons n ns ih =>
    have ih := ih fun m hm => h m (List.mem_cons_of_mem n hm)
    refine (report_tame _).bind fun _ => (report_tame _).bind fun _ => ?_
    exact .fork ih (stageChild_idle (h n List.mem_cons_self) prev) ih

theorem piped_idle {home : Home} {prev : Str} {ns : List Node} {back : Bool}
    (h : ∀ n ∈ ns, ¬ Passes n.args) : Tame allow Event.plain (piped home prev ns back) := by
  refine (makePipes_tame _).bind fun _ => .ite ?_ (print_tame _)
  refine (startStages_idle h).bind fun _ => .ite (Tame.event rfl) ?_
  exact (waitStages_tame ns).bind fun _ => .ite (Tame.event rfl) (.ret ())

/-- A command that does not get through its passes: a failed second pass ends the line
when `;` or `&` follows, any other failure does not. -/
theorem processLine_refused {home : Home} {k : ℕ} {n : Node} {ns : List Node} {prev : Str}
    (hp : n.piped = false) (hps : ¬ Passes n.args) :
    processLine home (k + 1) (n :: ns) prev = (print invalidSyntax >>= fun _ =>
      if n.cuts then return prev else processLine home k ns prev) := by
  rw [processLine, processGroup_single hp, singleCommand_none (job_eq_none hps home ns),
    Proc.bind_assoc, aborts_eq_cuts]
  cases n.cuts with
  | true => rfl
  | false => rfl

/-- A line of which no command is started. -/
theorem processLine_idle {home : Home} {k : ℕ} {line : List Node} {prev : Str}
    (h : startsCommand false line = false) :
    Tame allow Event.idle (processLine home k line prev) := by
  -- induction on the turns: every group reached fails in its passes
  have hret : ∀ p : Str, Tame allow Event.idle (event .noLongerWaiting >>= fun _ => .ret p) :=
    fun p => (Tame.event rfl).bind fun _ => .ret p
  induction k generalizing line prev with
  | zero =>
    cases line with
    | nil => exact hret prev
    | cons n ns => exact .ret prev
  | succ k ih =>
    cases line with
    | nil => exact hret prev
    | cons n ns =>
      cases hp : n.piped with
      | true =>
        rw [startsCommand_group ns (by simp [hp]), Bool.or_eq_false_iff, List.any_eq_false] at h
        rw [processLine, processGroup_piped hp, Proc.bind_assoc]
        refine (Tame.event (by simp [Event.idle, Event.starts, hp])).bind fun _ => ?_
        rw [Proc.bind_assoc]
        refine Tame.bind ?_ fun _ => ih h.2
        refine (piped_idle ?_).weaken Event.idle_of_plain
        intro m hm
        simpa using h.1 m hm
      | false =>
        have hps := not_passes_of_not_starts h
        rw [startsCommand_single ns hp hps] at h
        rw [processLine_refused hp hps]
        refine ((print_tame _).weaken Event.idle_of_plain).bind fun _ => ?_
        cases hc : n.cuts with
        | true => exact .ret prev
        | false => exact ih (by simpa [hc] using h)

end Refused

/-! ### Lines that start a command -/

section Accepted

/-- A part from which the process returns lets the event of what follows
through. -/
theorem Tame.bind_has {allow : ∀ q, Answer q → Prop} {α β : Type} {E : Event → Bool}
    {S : Event → Prop} {t : Shell α} {f : α → Shell β} (h : Tame allow E t)
    (hf : ∀ a, (f a).Has allow S) : (t >>= f).Has allow S := by
  refine Proc.Every.bind_has h ?_ fun _ a _ => hf a
  rintro es x ⟨-, a, ha⟩
  cases ha

/-- With the pipes made, the answer is yes. -/
theorem makePipes_bind_has {β : Type} {S : Event → Prop} {k : ℕ} {f : Bool → Shell β}
    (h : (f true).Has CallsSucceed S) : (makePipes k >>= f).Has CallsSucceed S := by
  induction k with
  | zero => exact h
  | succ k ih =>
    rw [makePipes, Proc.bind_assoc]
    intro ok hok
    obtain rfl : ok = true := hok
    exact ih

/-- A stage that gets through starts in its child. -/
theorem startStages_has {home : Home} {prev : Str} {ns : List Node} {n : Node} (hn : n ∈ ns)
    (hp : Passes n.args) :
    (startStages home prev ns).Has CallsSucceed fun e => e.starts = true := by
  induction ns with
  | nil => cases hn
  | cons m ns ih =>
    refine (report_tame _).bind_has fun _ => (report_tame _).bind_has fun _ => ?_
    intro ok hok
    obtain rfl : ok = true := hok
    rcases List.mem_cons.mp hn with rfl | hn
    · -- the stage itself: its child goes on to the redirections
      left
      rw [← passes_expand home, Passes] at hp
      obtain ⟨ins, hi⟩ := Option.isSome_iff_exists.mp hp.1
      obtain ⟨outs, ho⟩ := Option.isSome_iff_exists.mp hp.2
      rw [hi, ho]
      exact .inl rfl
    · right
      exact ih hn

theorem piped_has {home : Home} {prev : Str} {ns : List Node} {back : Bool} {n : Node}
    (hn : n ∈ ns) (hp : Passes n.args) :
    (piped home prev ns back).Has CallsSucceed fun e => e.starts = true :=
  makePipes_bind_has ((startStages_has hn hp).bind _)

theorem processLine_has {home : Home} {k : ℕ} {line : List Node} {prev : Str}
    (hk : line.length ≤ k) (h : startsCommand false line = true) :
    (processLine home k line prev).Has CallsSucceed fun e => e.starts = true := by
  induction k generalizing line prev with
  | zero =>
    obtain rfl : line = [] := by simpa using hk
    cases h
  | succ k ih =>
    cases line with
    | nil => cases h
    | cons n ns =>
      simp only [List.length_cons] at hk
      cases hp : n.piped with
      | true =>
        rw [startsCommand_group ns (by simp [hp])] at h
        rw [processLine, processGroup_piped hp, Proc.bind_assoc]
        refine (Tame.event (E := fun _ => true) rfl).bind_has fun _ => ?_
        rw [Proc.bind_assoc]
        by_cases hany : (takeGroup (n :: ns)).any (fun m => decide (Passes m.args)) = true
        · obtain ⟨m, hm, hpm⟩ := List.any_eq_true.mp hany
          exact (piped_has hm (by simpa using hpm)).bind _
        · -- no stage gets through: the pipeline returns, and the rest starts
          rw [Bool.not_eq_true] at hany
          rw [hany, Bool.false_or] at h
          have hno : ∀ m ∈ takeGroup (n :: ns), ¬ Passes m.args := by
            simpa [List.any_eq_false] using hany
          refine (piped_idle hno).bind_has fun _ => ih ?_ h
          have hd := (dropGroup_suffix n ns).length_le
          omega
      | false =>
        by_cases hps : Passes n.args
        · obtain ⟨j, hj⟩ := exists_job hps home ns
          rw [processLine, processGroup_single hp, singleCommand_some hj, Proc.bind_assoc]
          left
          simp [Event.starts, hp]
        · rw [startsCommand_single ns hp hps, Bool.and_eq_true, Bool.not_eq_true'] at h
          rw [processLine_refused hp hps, h.1]
          refine (print_tame _).bind_has fun _ => ih ?_ h.2
          omega

end Accepted

/-! ### The message -/

/-- In every run the process itself prints the message. -/
def Prints {α : Type} (t : Shell α) : Prop :=
  t.Every CallsSucceed (fun es _ => Event.print invalidSyntax ∈ es) fun _ _ => True

theorem print_prints {α : Type} (f : Unit → Shell α) : Prints (print invalidSyntax >>= f) := by
  show (f ()).Every CallsSucceed
    (fun es _ => Event.print invalidSyntax ∈ .print invalidSyntax :: es) fun _ _ => True
  refine Proc.Every.mono (Proc.every_true (f ())) ?_ fun _ _ h => h
  intro es r _
  exact List.mem_cons_self

theorem Tame.bind_prints {α β : Type} {E : Event → Bool} {t : Shell α} {f : α → Shell β}
    (h : Tame CallsSucceed E t) (hf : ∀ a, Prints (f a)) : Prints (t >>= f) := by
  refine h.bind_every (fun _ _ _ => trivial) ?_
  intro es a _
  exact Proc.Every.mono (hf a) (fun es' r he => List.mem_append_right es he) fun _ _ h => h

theorem makePipes_bind_prints {α : Type} {k : ℕ} {f : Bool → Shell α} (h : Prints (f true)) :
    Prints (makePipes k >>= f) := by
  induction k with
  | zero => exact h
  | succ k ih =>
    rw [makePipes, Proc.bind_assoc]
    intro ok hok
    obtain rfl : ok = true := hok
    exact ih

/-- A stage that does not get through is reported. -/
theorem startStages_prints {α : Type} {home : Home} {prev : Str} {n : Node} {ns : List Node}
    {f : Unit → Shell α} (h : ¬ Passes n.args) : Prints (startStages home prev (n :: ns) >>= f) := by
  rw [← passes_expand home, Passes, not_and_or, Bool.not_eq_true, Bool.not_eq_true] at h
  rw [startStages, Proc.bind_assoc]
  -- the message comes from the first pass, or else from the second
  rcases h with h | h
  · rw [h]
    exact print_prints _
  · refine (report_tame _).bind_prints fun _ => ?_
    rw [Proc.bind_assoc, h]
    exact print_prints _

/-- A line that starts nothing is answered by the message, unless it is empty. -/
theorem processLine_prints {home : Home} {k : ℕ} {n : Node} {ns : List Node} {prev : Str}
    (h : startsCommand false (n :: ns) = false) :
    Prints (processLine home (k + 1) (n :: ns) prev) := by
  have hps := not_passes_of_not_starts h
  cases hp : n.piped with
  | true =>
    have ht : takeGroup (n :: ns) = n :: takeGroup ns := by simp [takeGroup, hp]
    rw [processLine, processGroup_piped hp, Proc.bind_assoc]
    refine (Tame.event (E := fun _ => true) rfl).bind_prints fun _ => ?_
    rw [Proc.bind_assoc, piped, Proc.bind_assoc]
    refine makePipes_bind_prints ?_
    rw [if_pos rfl, Proc.bind_assoc, ht]
    exact startStages_prints hps
  | false =>
    rw [processLine_refused hp hps]
    exact print_prints _

/-! ### The check and the grammar -/

/-- What the syntax check of a line should do: a command is started when the
tokens are a line of the grammar that is not empty, and the message is printed
when they are outside it. -/
def SyntaxChecked {α : Type} (ts : List Token) (o : Outcome Event Exit α)
    (ps : List (Outcome Event Exit α)) : Prop :=
  (Started o ps ↔ Derives .line ts ∧ ts ≠ []) ∧
    (¬ Derives .line ts → Event.print invalidSyntax ∈ o.events)

/-- Nobody starts a command in a tame run of idle events. -/
theorem Tame.not_started {α : Type} {allow : ∀ q, Answer q → Prop} {t : Shell α}
    {o : Outcome Event Exit α} {ps : List (Outcome Event Exit α)}
    (ht : Tame allow Event.idle t) (h : t.Runs allow o ps) : ¬ Started o ps := by
  rintro ⟨p, hp, e, he, hs⟩
  obtain ⟨⟨ho, -⟩, hps⟩ := h.every ht
  have hi : e.idle = true := by
    rcases List.mem_cons.mp hp with rfl | hp
    · exact ho e he
    · exact (hps p hp).1 e he
  simp [Event.idle, hs] at hi

/-- The check is right on a line the parser refuses, on the empty line, on the lines
of the grammar of which some command is reached and gets through its passes, and on
the other lines of which none does. -/
theorem syntaxChecked_iff_starts (home : Home) (prev cmd : Str) (ts : List Token)
    (hts : lexer cmd = some ts) (o : Outcome Event Exit Str)
    (ps : List (Outcome Event Exit Str))
    (h : (processCmd home prev cmd).Runs CallsSucceed o ps) :
    SyntaxChecked ts o ps ↔
      parser ts = none ∨ ts = [] ∨ ∃ line, parser ts = some line ∧
        (Derives .line ts ∧ StartsCommand line ∨ ¬ Derives .line ts ∧ ¬ StartsCommand line) := by
  simp only [processCmd, hts] at h
  cases hns : parser ts with
  | none =>
    -- the parser refuses nothing that the grammar derives
    rw [hns] at h
    have hd : ¬ Derives .line ts := by
      intro hd
      obtain ⟨ns, hn⟩ := parser_of_derives hd
      rw [hns] at hn
      cases hn
    have ht : Tame CallsSucceed Event.idle (print invalidSyntax >>= fun _ => .ret prev) :=
      (Tame.event rfl).bind fun _ => .ret prev
    refine iff_of_true ⟨iff_of_false (ht.not_started h) fun h => hd h.1, fun _ => ?_⟩ (.inl rfl)
    exact (Proc.Runs.every h (print_prints _)).1
  | some line =>
    rw [hns] at h
    cases line with
    | nil =>
      obtain rfl := parser_eq_nil_iff.mp hns
      have hno := Tame.not_started (processLine_idle rfl) h
      refine iff_of_true ⟨iff_of_false hno fun h => h.2 rfl, ?_⟩ (.inr (.inl rfl))
      intro hd
      exact absurd .lineNil hd
    | cons n ns =>
      have hne : ts ≠ [] := by
        intro he
        rw [parser_eq_nil_iff.mpr he] at hns
        cases hns
      -- a command is started exactly when `StartsCommand` holds of the parsed line
      by_cases hs : StartsCommand (n :: ns)
      · have hst : Started o ps := Proc.Runs.has h (processLine_has (Nat.le_refl _) hs)
        constructor
        · rintro ⟨hd, -⟩
          exact .inr (.inr ⟨_, rfl, .inl ⟨(hd.mp hst).1, hs⟩⟩)
        · rintro (hn | hn | ⟨line, hl, ⟨hd, -⟩ | ⟨-, hn⟩⟩)
          · cases hn
          · exact absurd hn hne
          · exact ⟨iff_of_true hst ⟨hd, hne⟩, fun hn => absurd hd hn⟩
          · cases hl
            exact absurd hs hn
      · have hf : startsCommand false (n :: ns) = false := by simpa [StartsCommand] using hs
        have hst := Tame.not_started (processLine_idle hf) h
        have hsay := (Proc.Runs.every h (processLine_prints hf)).1
        constructor
        · rintro ⟨hd, -⟩
          exact .inr (.inr ⟨_, rfl, .inr ⟨fun hn => hst (hd.mpr ⟨hn, hne⟩), hs⟩⟩)
        · rintro (hn | hn | ⟨line, hl, ⟨-, hn⟩ | ⟨hd, -⟩⟩)
          · cases hn
          · exact absurd hn hne
          · cases hl
            exact absurd hn hs
          · exact ⟨iff_of_false hst fun hn => hd hn.1, fun _ => hsay⟩

theorem Node.Of.piped {n : Node} {c : Command} (h : n.Of c) :
    n.piped = decide (c.ending = .pipe) := by
  rw [← h.2, Node.ending]
  cases n.piped <;> cases n.semi <;> cases n.background <;> rfl

theorem Node.Of.passes {n : Node} {c : Command} (h : n.Of c) :
    Passes n.args ↔ c.complete = true := by
  rw [passes_iff_complete, h.1, Command.complete]

/-- A command that does not get through cuts the line as its tokens say. -/
theorem Node.Of.cuts {n : Node} {c : Command} (h : n.Of c) (hp : c.complete = false) :
    (!n.piped && n.cuts) = c.cuts := by
  have he : (!n.piped && (n.background || n.semi)) =
      (decide (c.ending = .semi) || decide (c.ending = .amp)) := by
    rw [← h.2, Node.ending]
    cases n.piped <;> cases n.semi <;> cases n.background <;> rfl
  rw [Command.complete, Cshell.complete, ← h.1] at hp
  rw [Node.cuts, extIn_isSome, Command.cuts, ← h.1, ← he]
  cases hlt : dangles isLt n.args with
  | true => simp
  | false =>
    have hgt : dangles isGt (withoutInputs n.args) = true := by simpa [hlt] using hp
    simp [hgt]

/-- A command of the parsed line is reached and gets through exactly when some
command is reached whose operators have their targets. -/
theorem startsCommand_eq {b : Bool} {ns : List Node} {cs : List Command}
    (h : List.Forall₂ Node.Of ns cs) :
    startsCommand b ns = (reached b cs).any Command.complete := by
  induction h generalizing b with
  | nil => rfl
  | @cons n c ns cs hnc _ ih =>
    rw [startsCommand, reached, List.any_cons, hnc.piped]
    cases hc : c.complete with
    | true => rw [if_pos (hnc.passes.mpr hc), Bool.true_or]
    | false =>
      have hps : ¬ Passes n.args := by simp [hnc.passes, hc]
      rw [if_neg hps, Bool.false_or, ← hnc.piped, Bool.and_assoc, hnc.cuts hc]
      split
      · rfl
      · exact ih

theorem startsCommand_iff {ts : List Token} {line : List Node} (h : parser ts = some line) :
    StartsCommand line ↔ ∃ c ∈ reached false (commands ts), c.complete = true := by
  rw [StartsCommand, startsCommand_eq (parser_commands h), List.any_eq_true]

/-- **When the check agrees with the grammar**: a separator is out of its place; or
there are no tokens; or every command is in order, and one that is reached has no
operator, quoted ones included, without its target; or some command is not in order,
and each that is reached has such an operator. -/
theorem syntax_checked_iff (home : Home) (prev cmd : Str) (ts : List Token)
    (hts : lexer cmd = some ts) (o : Outcome Event Exit Str)
    (ps : List (Outcome Event Exit Str))
    (h : (processCmd home prev cmd).Runs CallsSucceed o ps) :
    SyntaxChecked ts o ps ↔
      misplaced false ts = true ∨ ts = [] ∨
        ((∀ c ∈ commands ts, c.inOrder = true) ∧
          ∃ c ∈ reached false (commands ts), c.complete = true) ∨
        ((∃ c ∈ commands ts, c.inOrder = false) ∧
          ∀ c ∈ reached false (commands ts), c.complete = false) := by
  rw [syntaxChecked_iff_starts home prev cmd ts hts o ps h]
  cases hp : parser ts with
  | none => exact iff_of_true (.inl rfl) (.inl ((parser_eq_none_iff ts).mp hp))
  | some line =>
    have hm : misplaced false ts = false := by
      rw [Bool.eq_false_iff, ne_eq, ← parser_eq_none_iff, hp]
      simp
    have hd : Derives .line ts ↔ ∀ c ∈ commands ts, c.inOrder = true := by
      rw [derives_line_iff, and_iff_right hm]
    have hs := startsCommand_iff hp
    simp [hm, hd, hs]

/-- On a line of the grammar without quoted operators the check is right. -/
theorem syntax_checked_of_unquoted {home : Home} {prev cmd : Str} {ts : List Token}
    (hts : lexer cmd = some ts) {o : Outcome Event Exit Str} {ps : List (Outcome Event Exit Str)}
    (h : (processCmd home prev cmd).Runs CallsSucceed o ps) (hd : Derives .line ts)
    (hq : ∀ t ∈ ts, t.type = .ordinary → isRedir t.value = false) : SyntaxChecked ts o ps := by
  rw [syntax_checked_iff home prev cmd ts hts o ps h]
  obtain ⟨-, hin⟩ := (derives_line_iff ts).mp hd
  cases hc : commands ts with
  | nil => exact .inr (.inl (commands_eq_nil hc))
  | cons c cs =>
    -- the first command is reached in any case
    have hmem : c ∈ commands ts := hc ▸ List.mem_cons_self
    have hqc : ∀ t ∈ c.tokens, t.type = .ordinary → isRedir t.value = false :=
      fun t ht => hq t (mem_of_mem_commands hmem ht)
    have hcc : c.complete = true := Command.complete_of_inOrder (hin c hmem) hqc
    rw [hc] at hin
    exact .inr (.inr (.inl ⟨hin, c, List.mem_cons_self, hcc⟩))

theorem callsSucceed_allSucceed (q : Query) : CallsSucceed q (allSucceed q) := by
  cases q with
  | fork | pipe => rfl
  | openRead | openWrite | lookup | wait | hop => trivial

/-- The tokens of `ls ; wc > f`. -/
def goodTokens : List Token :=
  [⟨['l', 's'], .ordinary⟩, op [';'], ⟨['w', 'c'], .ordinary⟩, op ['>'], ⟨['f'], .ordinary⟩]

/-- `ls ; wc > f` is started. -/
theorem syntax_checked_good :
    SyntaxChecked goodTokens
      (((processCmd ⟨['/'], rfl⟩ [] "ls ; wc > f".toList).exec allSucceed).1)
      (((processCmd ⟨['/'], rfl⟩ [] "ls ; wc > f".toList).exec allSucceed).2) :=
  (syntax_checked_iff _ _ _ _ (by decide +kernel) _ _
    (Proc.runs_exec allSucceed callsSucceed_allSucceed _)).mpr
    (.inr (.inr (.inl ⟨by decide, by decide⟩)))

/-- The tokens of `ls ; wc >`. -/
def badTokens : List Token :=
  [⟨['l', 's'], .ordinary⟩, op [';'], ⟨['w', 'c'], .ordinary⟩, op ['>']]

/-- `ls ; wc >` is outside the grammar, and `ls` is started all the same. -/
theorem bad_line_started :
    lexer "ls ; wc >".toList = some badTokens ∧
    ∃ o ps, (processCmd ⟨['/'], rfl⟩ [] "ls ; wc >".toList).Runs CallsSucceed o ps ∧
      ¬ SyntaxChecked badTokens o ps := by
  refine ⟨by decide +kernel, _, _, Proc.runs_exec allSucceed callsSucceed_allSucceed _,
    fun h => ?_⟩
  have hs : ∃ p ∈ ((processCmd ⟨['/'], rfl⟩ [] "ls ; wc >".toList).exec allSucceed).1 ::
      ((processCmd ⟨['/'], rfl⟩ [] "ls ; wc >".toList).exec allSucceed).2,
      ∃ e ∈ p.events, e.starts = true := by decide +kernel
  have hd := (h.1.mp hs).1
  cases hd with
  | lineWord hd =>
    cases hd with
    | argSemi hd =>
      cases hd with
      | cmdWord hd =>
        cases hd with
        | argGt hd => cases hd

end Cshell
