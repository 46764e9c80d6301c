/-
The rewrites of a run of `process_cmd`.

A turn of the loop expands the `~` of its command, or of all stages of its
pipeline, before anything else is done with them; a `reveal` by itself that gets
through its passes then copies the previous directory over its `-`, in the
shell or in its background child.  `processCmdTurns` is `process_cmd` with an
event for each turn, which carries the commands of the turn with their buffers.

* `processCmdTurns_sim` — apart from these events it is `process_cmd`;
* `revealOptions_eq` — the `-` of `revealDash` is the one the branch of `reveal`
  overwrites;
* `rewrites_fit_iff` — in every run, exactly when all its rewrites fit.
-/
import CshellXv6.Shell.Buffers
import CshellXv6.Shell.NodeAccess

namespace Cshell

/-- A turn of the loop: a command, or the stages of a pipeline, and the previous
directory at that time. -/
structure ArgTurn where
  group : List ArgNode
  prev : Str

/-- The command of a turn without a pipeline. -/
def ArgTurn.single (t : ArgTurn) : Option ArgNode :=
  match t.group with
  | [n] => some n
  | _ => none

/-- The texts that are written over arguments in a turn. -/
def ArgTurn.rewrites (home : Home) (t : ArgTurn) : List Rewrite :=
  t.group.flatMap (tildeRewrites home) ++ t.single.toList.flatMap (dashRewrites home t.prev)

/-- The buffers have room for the turn: each argument that starts with `~` for the
home directory, and the `-` of a `reveal` by itself for the previous one. -/
def ArgTurn.Roomy (home : Home) (t : ArgTurn) : Prop :=
  (∀ n ∈ t.group, ∀ a ∈ n.args, a.text.head? = some '~' → home.1.length ≤ a.slack + 1) ∧
    ∀ n ∈ t.single, t.prev ≠ [] → ∀ a ∈ revealDash home n, t.prev.length ≤ a.slack + 1

instance (home : Home) (t : ArgTurn) : Decidable (t.Roomy home) :=
  inferInstanceAs (Decidable (_ ∧ _))

instance (r : Rewrite) : Decidable r.Fits := inferInstanceAs (Decidable (_ ≤ _))

/-- The group that starts a line: a run of piped commands and the one after it. -/
def takeArgs : List ArgNode → List ArgNode
  | [] => []
  | n :: ns => if n.piped then n :: takeArgs ns else [n]

/-! ### The loop with its turns -/

/-- The event of a turn. -/
def turn (t : ArgTurn) : Proc Query Answer (Event ⊕ ArgTurn) Exit Unit := .emit (.inr t) (.ret ())

/-- A part of `process_cmd` that takes no turn. -/
def rest {α : Type} (t : Shell α) : Proc Query Answer (Event ⊕ ArgTurn) Exit α :=
  t.mapEvents .inl

/-- The loop of `process_cmd`; what is left of the line is as long as the turn says. -/
def processTurns (home : Home) :
    ℕ → List ArgNode → Str → Proc Query Answer (Event ⊕ ArgTurn) Exit Str
  | _, [], prev => do
    rest (event .noLongerWaiting)
    return prev
  | 0, _ :: _, prev => return prev
  | k + 1, n :: ns, prev => do
    turn ⟨takeArgs (n :: ns), prev⟩
    match ← rest (processGroup home prev ((n :: ns).map ArgNode.toNode)) with
    | .next line prev' => processTurns home k (ns.drop (ns.length - line.length)) prev'
    | .brk =>
      rest (event .noLongerWaiting)
      return prev
    | .ret => return prev

/-- `process_cmd`. -/
def processCmdTurns (home : Home) (prev cmd : Str) :
    Proc Query Answer (Event ⊕ ArgTurn) Exit Str :=
  match (lexArgs cmd).bind (parseArgs []) with
  | none => do
    rest (print invalidSyntax)
    return prev
  | some line => processTurns home line.length line prev

/-! ### What is left of the line after a turn -/

/-- The loop goes on in a part of `ns`. -/
def GoesOnIn (ns : List Node) (c : Ctl) : Prop := ∀ line prev, c = .next line prev → line <:+ ns

theorem GoesOnIn.next {ns line : List Node} (h : line <:+ ns) (prev : Str) :
    GoesOnIn ns (.next line prev) := by
  rintro _ _ ⟨⟩
  exact h

theorem GoesOnIn.ret (ns : List Node) : GoesOnIn ns .ret := by
  rintro _ _ ⟨⟩

theorem revealNoPrev_returns (j : ℕ) (ns : List Node) :
    (revealNoPrev j ns).Returns fun line => line <:+ ns := by
  induction ns generalizing j with
  | nil => exact Proc.returns_bind fun _ => List.suffix_rfl
  | cons n ns ih =>
    refine Proc.returns_bind fun _ => Proc.Returns.ite ?_ (List.suffix_cons n ns)
    exact (ih _).mono fun line h => h.trans (List.suffix_cons n ns)

theorem revealBranch_returns (j : Job) (prev : Str) :
    (revealBranch j prev).Returns (GoesOnIn j.after) := by
  have hnext : GoesOnIn j.after (.next j.after prev) := .next List.suffix_rfl prev
  refine inBackground_returns hnext fun child => Proc.Returns.ite ?_ ?_
  · exact Proc.returns_bind fun _ => Proc.returns_bind fun _ => hnext
  · cases revealOptions j.args prev with
    | none =>
      refine (revealNoPrev_returns _ j.after).bind fun line h => ?_
      exact Proc.returns_bind fun _ => .next h prev
    | some x =>
      refine Proc.Returns.ite ?_ (Proc.Returns.ite ?_ ?_)
      · exact Proc.returns_bind fun _ => Proc.returns_bind fun _ => hnext
      · exact Proc.returns_bind fun _ => hnext
      · exact Proc.returns_bind fun _ => Proc.returns_bind fun _ => hnext

theorem command_returns (j : Job) (prev : Str) : (command j prev).Returns (GoesOnIn j.after) := by
  by_cases hc : j.cmd = "reveal".toList
  · rw [command_reveal prev hc]
    exact revealBranch_returns j prev
  · refine (command_stays prev hc).mono fun c h line prev' he => ?_
    exact (h line prev' he) ▸ List.suffix_rfl

/-- Every process that goes on with the line has taken a command off it. -/
theorem processGroup_returns (home : Home) (prev : Str) (n : Node) (ns : List Node) :
    (processGroup home prev (n :: ns)).Returns (GoesOnIn ns) := by
  cases hp : n.piped with
  | true =>
    rw [processGroup_piped hp]
    refine Proc.returns_bind fun _ => Proc.returns_bind fun _ => ?_
    exact .next (dropGroup_suffix n ns) prev
  | false =>
    rw [processGroup_single hp]
    by_cases hps : Passes n.args
    · obtain ⟨j, hj⟩ := exists_job hps home ns
      rw [singleCommand_some hj, ← (job_line hj).2]
      exact Proc.returns_bind fun _ => command_returns j prev
    · rw [singleCommand_none (job_eq_none hps home ns)]
      refine Proc.returns_bind fun _ => ?_
      show GoesOnIn ns (if _ then _ else _)
      split
      · exact .ret ns
      · exact .next List.suffix_rfl prev

/-! ### The turns are those of `process_cmd` -/

theorem rest_sim {α : Type} {P : α → Prop} {t : Shell α} (h : t.Returns P) :
    Proc.Sim Sum.getLeft? (fun a b => a = b ∧ P b) (rest t) t :=
  h.sim.mapEvents Sum.inl Sum.getLeft? fun _ => rfl

theorem processTurns_sim (home : Home) {k : ℕ} {line : List ArgNode} (prev : Str) :
    Proc.Sim Sum.getLeft? (· = ·) (processTurns home k line prev)
      (processLine home k (line.map ArgNode.toNode) prev) := by
  induction k generalizing line prev with
  | zero =>
    cases line with
    | nil => exact .emit rfl (.ret rfl)
    | cons n ns => exact .ret rfl
  | succ k ih =>
    cases line with
    | nil => exact .emit rfl (.ret rfl)
    | cons n ns =>
      refine .silent rfl ((rest_sim (processGroup_returns home prev n.toNode _)).bind ?_)
      rintro c _ ⟨rfl, hc⟩
      cases c with
      | next line' prev' =>
        -- the rest of the line, with its buffers
        have hline : (ns.drop (ns.length - line'.length)).map ArgNode.toNode = line' := by
          have hs := (List.suffix_iff_eq_drop.mp (hc line' prev' rfl)).symm
          rwa [List.length_map, ← List.map_drop] at hs
        have hsim := @ih (ns.drop (ns.length - line'.length)) prev'
        rw [hline] at hsim
        exact hsim
      | brk => exact .emit rfl (.ret rfl)
      | ret => exact .ret rfl

/-- **The turns are those of `process_cmd`**: without their events the program does
what `processCmd` does. -/
theorem processCmdTurns_sim (home : Home) (prev cmd : Str) :
    Proc.Sim Sum.getLeft? (· = ·) (processCmdTurns home prev cmd) (processCmd home prev cmd) := by
  unfold processCmdTurns processCmd
  have htok := lexArgs_tokens cmd
  cases hl : lexArgs cmd with
  | none =>
    rw [hl] at htok
    rw [← htok]
    exact .emit rfl (.ret rfl)
  | some ts =>
    rw [hl] at htok
    have hnodes : (parseArgs [] ts).map (List.map ArgNode.toNode) = parser (ts.map Prod.fst) :=
      parseArgs_nodes [] ts
    rw [← htok]
    cases hp : parseArgs [] ts with
    | none =>
      rw [hp] at hnodes
      simp only [Option.bind_some, hp, Option.map_some, ← hnodes, Option.map_none]
      exact .emit rfl (.ret rfl)
    | some line =>
      rw [hp] at hnodes
      simp only [Option.bind_some, hp, Option.map_some, ← hnodes, List.length_map]
      exact processTurns_sim home prev

/-! ### The `-` of a `reveal` -/

/-- A pass that gets through keeps the arguments that the source keeps. -/
theorem passArgs_some {α : Type} {sel : Str → Option (Str → α)} {as : List Arg}
    (h : (scan sel (as.map Arg.text)).files.isSome = true) :
    ∃ bs, passArgs sel as = some bs ∧ bs.map Arg.text = (scan sel (as.map Arg.text)).args := by
  have hs := passArgs_scan sel as
  rw [if_pos h] at hs
  exact Option.map_eq_some_iff.mp hs

/-- The arguments that get through both passes, with their buffers. -/
theorem exists_passArgs {home : Home} {n : ArgNode} {after : List Node} {j : Job}
    (hj : n.toNode.job home after = some j) :
    ∃ as, (passArgs inOp (n.args.map (Arg.expand home))).bind (passArgs outOp) = some as ∧
      as.map Arg.text = j.args := by
  have htext : (n.args.map (Arg.expand home)).map Arg.text = n.toNode.args.map (expand home) := by
    simp [ArgNode.toNode, Arg.expand]
  have hpass : Passes (n.toNode.args.map (expand home)) := by
    rw [passes_expand, ← job_isSome_iff home n.toNode after, hj]
    rfl
  obtain ⟨hin, hout⟩ := hpass
  have hargs : j.args = (extOut (extIn (n.toNode.args.map (expand home))).args).args := by
    simp only [Node.job] at hj
    split at hj
    · cases hj
      rfl
    · cases hj
  rw [extIn, rewrite_isSome] at hin
  have hext : (extIn (n.toNode.args.map (expand home))).args =
      (scan inOp (n.toNode.args.map (expand home))).args := by
    rw [extIn, rewrite, if_pos hin]
  rw [hext, extOut, rewrite_isSome] at hout
  rw [hext, extOut, rewrite, if_pos hout] at hargs
  rw [← htext] at hin hargs hout
  obtain ⟨bs, hbs, hbt⟩ := passArgs_some hin
  rw [← hbt] at hout hargs
  obtain ⟨cs, hcs, hct⟩ := passArgs_some hout
  exact ⟨cs, by rw [hbs, Option.bind_some, hcs], by rw [hct, hargs]⟩

/-- The `-` that `revealDash` finds is the one the branch of `reveal` overwrites with the
previous directory; without one the branch leaves the arguments as they are. -/
theorem revealOptions_eq {home : Home} {n : ArgNode} {after : List Node} {j : Job} {prev : Str}
    (hj : n.toNode.job home after = some j) (hc : j.cmd = "reveal".toList)
    (hlen : 2 ≤ j.args.length) (hp : prev ≠ []) :
    match revealDash home n with
    | some a => ∃ k, j.args[k]? = some a.text ∧
        revealOptions j.args prev = some (j.args.set k prev, k + 1)
    | none => ∃ k, revealOptions j.args prev = some (j.args, k) := by
  obtain ⟨as, has, htext⟩ := exists_passArgs hj
  have hcmd : expand home n.cmd.text = "reveal".toList := by
    have hhead : n.toNode.cmd = n.cmd.text := List.head_map ..
    rw [← hc, ← hhead]
    simp only [Node.job] at hj
    split at hj
    · cases hj
      rfl
    · cases hj
  have hlen' : as.length = j.args.length := by rw [← htext, List.length_map]
  rw [revealDash, if_pos hcmd, has]
  simp only [htext, hlen', hlen, true_and, revealOptions]
  cases hd : (skipOptions j.args.tail).2 with
  | false => exact ⟨_, rfl⟩
  | true =>
    -- the options end at the `-`, an argument with a buffer
    have hdash := skipOptions_dash hd
    rw [List.getElem?_tail, Nat.add_comm, ← htext, List.getElem?_map] at hdash
    obtain ⟨a, ha, hat⟩ := Option.map_eq_some_iff.mp hdash
    rw [htext] at ha
    simp only [if_true, ha, hp, if_false]
    refine ⟨_, ?_, rfl⟩
    rw [← htext, List.getElem?_map, htext, ha]
    rfl

/-! ### The commands of the turns -/

theorem takeArgs_subset (ns : List ArgNode) : takeArgs ns ⊆ ns := by
  induction ns with
  | nil => exact List.Subset.refl _
  | cons n ns ih =>
    rw [takeArgs]
    split
    · exact List.cons_subset_cons n ih
    · simp

/-- The turns take the commands of the line. -/
theorem processTurns_emits (home : Home) {k : ℕ} {line : List ArgNode} (prev : Str) :
    (processTurns home k line prev).Emits fun e => ∀ t, e = .inr t → t.group ⊆ line := by
  have hrest : ∀ {α : Type} (t : Shell α) (ls : List ArgNode),
      (rest t).Emits fun e => ∀ t', e = .inr t' → t'.group ⊆ ls :=
    fun t ls => Proc.emits_mapEvents (by simp) t
  induction k generalizing line prev with
  | zero =>
    cases line with
    | nil => exact (hrest _ _).bind fun _ => trivial
    | cons n ns => trivial
  | succ k ih =>
    cases line with
    | nil => exact (hrest _ _).bind fun _ => trivial
    | cons n ns =>
      refine ⟨?_, (hrest _ _).bind fun c => ?_⟩
      · rintro t ⟨⟩
        exact takeArgs_subset _
      · cases c with
        | next line' prev' =>
          refine (ih prev').mono fun e he t ht => List.Subset.trans (he t ht) ?_
          exact List.Subset.trans (List.drop_subset _ ns) (List.subset_cons_self n ns)
        | brk => exact (hrest _ _).bind fun _ => trivial
        | ret => trivial

theorem processCmdTurns_emits (home : Home) (prev cmd : Str) :
    (processCmdTurns home prev cmd).Emits fun e => ∀ t, e = .inr t → t.group ⊆ lineArgs cmd := by
  unfold processCmdTurns lineArgs
  cases (lexArgs cmd).bind (parseArgs []) with
  | none => exact (Proc.emits_mapEvents (by simp) _).bind fun _ => trivial
  | some line => exact processTurns_emits home prev

/-- The turns of all processes of a run. -/
def turns {α : Type} (ps : List (Outcome (Event ⊕ ArgTurn) Exit α)) : List ArgTurn :=
  ps.flatMap fun p => p.events.filterMap Sum.getRight?

/-- The rewrites of all processes of a run. -/
def rewrites {α : Type} (home : Home) (ps : List (Outcome (Event ⊕ ArgTurn) Exit α)) :
    List Rewrite :=
  (turns ps).flatMap (ArgTurn.rewrites home)

theorem group_subset {allow : ∀ q, Answer q → Prop} {home : Home} {prev cmd : Str}
    {o : Outcome (Event ⊕ ArgTurn) Exit Str}
    {ps : List (Outcome (Event ⊕ ArgTurn) Exit Str)}
    (h : (processCmdTurns home prev cmd).Runs allow o ps) {t : ArgTurn} (ht : t ∈ turns (o :: ps)) :
    t.group ⊆ lineArgs cmd := by
  obtain ⟨p, hp, ht⟩ := List.mem_flatMap.mp ht
  obtain ⟨e, he, het⟩ := List.mem_filterMap.mp ht
  exact (processCmdTurns_emits home prev cmd).runs h p hp e he t (Sum.getRight?_eq_some_iff.mp het)

/-! ### When the rewrites fit -/

theorem ArgTurn.fits_iff {home : Home} {t : ArgTurn}
    (hfit : ∀ n ∈ t.group, ∀ a ∈ n.args, a.text.length + 1 ≤ a.size) :
    (∀ r ∈ t.rewrites home, r.Fits) ↔ t.Roomy home := by
  have htilde : (∀ r ∈ t.group.flatMap (tildeRewrites home), r.Fits) ↔
      ∀ n ∈ t.group, ∀ a ∈ n.args, a.text.head? = some '~' → home.1.length ≤ a.slack + 1 := by
    rw [List.forall_mem_flatMap]
    exact forall₂_congr fun n hn => tildeRewrites_fit_iff (hfit n hn)
  simp only [ArgTurn.rewrites, List.forall_mem_append, ArgTurn.Roomy]
  refine and_congr htilde ?_
  rw [List.forall_mem_flatMap]
  cases hs : t.single with
  | none => simp
  | some n =>
    have hn : n ∈ t.group := by
      unfold ArgTurn.single at hs
      split at hs
      · rename_i hg
        cases hs
        exact hg ▸ List.mem_cons_self
      · cases hs
    by_cases hp : t.prev = []
    · simp [dashRewrites, hp]
    · have hdash := @dashRewrites_fit_iff home t.prev n (hfit n hn)
      simpa [hp] using hdash

/-- **When the rewrites fit**: in a run of `process_cmd` every text that is written over
an argument fits the buffer of its token, terminator included, if and only if in each
turn that the run takes the buffers have room: for the home directory in place of a
leading `~`, and for the previous directory over the `-` of a `reveal`. -/
theorem rewrites_fit_iff (home : Home) (prev cmd : Str) (allow : ∀ q, Answer q → Prop)
    (o : Outcome (Event ⊕ ArgTurn) Exit Str)
    (ps : List (Outcome (Event ⊕ ArgTurn) Exit Str))
    (h : (processCmdTurns home prev cmd).Runs allow o ps) :
    (∀ r ∈ rewrites home (o :: ps), r.Fits) ↔ ∀ t ∈ turns (o :: ps), t.Roomy home := by
  rw [rewrites, List.forall_mem_flatMap]
  refine forall₂_congr fun t ht => ArgTurn.fits_iff ?_
  intro n hn a ha
  exact lineArgs_fit (group_subset h ht hn) ha

/-- `cat ~/a | wc ; reveal - ; ls`, with short directories. -/
theorem rewrites_fit_short :
    let ran := (processCmdTurns ⟨['/'], rfl⟩ "/tmp".toList "cat ~/a | wc ; reveal - ; ls".toList).exec
      allSucceed
    (rewrites ⟨['/'], rfl⟩ (ran.1 :: ran.2)).length = 2 ∧
    ∀ r ∈ rewrites ⟨['/'], rfl⟩ (ran.1 :: ran.2), r.Fits := by
  refine ⟨by decide +kernel, ?_⟩
  exact (rewrites_fit_iff _ _ _ (fun _ _ => True) _ _ (Proc.runs_exec allSucceed (fun _ => trivial) _)).mpr
    (by decide +kernel)

/-- The line `~`: a buffer of two bytes for the home directory. -/
theorem tilde_overflows : ∃ o ps,
    (processCmdTurns ⟨"/home".toList, rfl⟩ [] ['~']).Runs (fun _ _ => True) o ps ∧
    ¬ ∀ r ∈ rewrites ⟨"/home".toList, rfl⟩ (o :: ps), r.Fits := by
  refine ⟨_, _, Proc.runs_exec allSucceed (fun _ => trivial) _, ?_⟩
  decide +kernel

end Cshell
