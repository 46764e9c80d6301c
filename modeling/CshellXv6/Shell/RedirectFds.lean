/-
The descriptors of `redir_in`, `redir_out` and a redirected `resume`.

`resume` is the one builtin that is redirected in the shell itself.  Its branch in
`process_cmd` saves descriptors 0 and 1 with `dup`, redirects them, and puts the
saved ones back; each of its exits has to undo what has been done so far.

The functions are those of the program that forks, with the descriptor table of
the process added: `redirInFds_sim`, `redirOutFds_sim` and `resumeFds_sim` say
that without the table they are `redirIn`, `redirOut` and `resumeBranch`.  Whether
an `open`, a `pipe` or a `fork` succeeds is still what the environment answers;
`dup` and `dup2` succeed on an open descriptor.

* `Fds` — the descriptors of a process;
* `Opened` — descriptors that have been opened in addition;
* `resume_restores` — `resume` leaves the table as it was.
-/
import CshellXv6.Lib.Descriptors
import CshellXv6.Shell.ProcessFacts

namespace Cshell

/-- An open file: one that the shell was started with, one on disk, or an end of a
pipe. -/
inductive OpenFile
  | inherited (n : ℕ)
  | disk (path : Str)
  | readEnd (p : ℕ)
  | writeEnd (p : ℕ)
  deriving DecidableEq, Repr

/-- The file is no end of a pipe from the `n`-th on. -/
def PipeBelow (n : ℕ) (x : Option OpenFile) : Prop :=
  ∀ p, x = some (.readEnd p) ∨ x = some (.writeEnd p) → p < n

theorem PipeBelow.mono {n m : ℕ} {x : Option OpenFile} (h : PipeBelow n x) (hnm : n ≤ m) :
    PipeBelow m x :=
  fun p hp => Nat.lt_of_lt_of_le (h p hp) hnm

theorem pipeBelow_none (n : ℕ) : PipeBelow n none := by
  rintro p (h | h) <;> cases h

theorem pipeBelow_update {n : ℕ} {g : ℕ → Option OpenFile} (h : ∀ fd, PipeBelow n (g fd))
    {x : Option OpenFile} (hx : PipeBelow n x) (k fd : ℕ) : PipeBelow n (Function.update g k x fd) := by
  rw [Function.update_apply]
  split
  · exact hx
  · exact h fd

/-- The descriptors of a process, and the number of pipes made so far: an end in the
table is one of these. -/
structure Fds where
  table : Descriptors OpenFile
  pipes : ℕ
  known : ∀ fd, PipeBelow pipes (table.get fd)

namespace Fds

variable (s : Fds)

def get (fd : ℕ) : Option OpenFile := s.table.get fd

def close (fd : ℕ) : Fds where
  table := s.table.close fd
  pipes := s.pipes
  known := by
    rw [Descriptors.get_close]
    exact pipeBelow_update s.known (pipeBelow_none _) fd

def closeAll (fds : List ℕ) : Fds := fds.foldl close s

/-- `open` of a file that can be opened. -/
def openFile (path : Str) : ℕ × Fds where
  fst := s.table.lowest
  snd := {
    table := (s.table.alloc (.disk path)).2
    pipes := s.pipes
    known := by
      rw [Descriptors.get_alloc]
      refine pipeBelow_update s.known ?_ _
      rintro p (h | h) <;> cases h }

def dup2 (old new : ℕ) : Fds where
  table := s.table.dup2 old new
  pipes := s.pipes
  known := by
    cases h : s.table.get old with
    | none =>
      rw [Descriptors.dup2, h]
      exact s.known
    | some f =>
      rw [Descriptors.get_dup2 _ h]
      exact pipeBelow_update s.known (h ▸ s.known old) new

/-- `dup`: the new descriptor, `none` for -1. -/
def dup (fd : ℕ) : Option ℕ × Fds :=
  match h : s.table.get fd with
  | none => (none, s)
  | some f => (some s.table.lowest,
    { table := (s.table.alloc f).2
      pipes := s.pipes
      known := by
        rw [Descriptors.get_alloc]
        exact pipeBelow_update s.known (h ▸ s.known fd) _ })

/-- `pipe`: its read end, its write end. -/
def pipe : ℕ × ℕ × Fds where
  fst := s.table.lowest
  snd := {
    fst := (s.table.alloc (.readEnd s.pipes)).2.lowest
    snd := {
      table := ((s.table.alloc (.readEnd s.pipes)).2.alloc (.writeEnd s.pipes)).2
      pipes := s.pipes + 1
      known := by
        rw [Descriptors.get_alloc, Descriptors.get_alloc]
        refine pipeBelow_update (pipeBelow_update (fun fd => (s.known fd).mono (Nat.le_succ _)) ?_ _) ?_ _
        · rintro p (h | h) <;> cases h
          exact Nat.lt_succ_self _
        · rintro p (h | h) <;> cases h
          exact Nat.lt_succ_self _ } }

/-- `if(saved>=0){ dup2(saved,n); close(saved); }`. -/
def restore (saved : Option ℕ) (n : ℕ) : Fds :=
  match saved with
  | none => s
  | some fd => (s.dup2 fd n).close fd

/-- `if(saved>=0) close(saved)`. -/
def discard (saved : Option ℕ) : Fds :=
  match saved with
  | none => s
  | some fd => s.close fd

end Fds

/-! ### The functions -/

/-- The loop at the head of `redir_in`: every file is opened and closed again. -/
def openAllReadFds : List Str → Fds → Shell (Bool × Fds)
  | [], s => return (true, s)
  | f :: fs, s => do
    if ← openRead f then
      let (fd, s) := s.openFile f
      openAllReadFds fs (s.close fd)
    else
      print "cshell: no such file or directory\n".toList
      return (false, s)

/-- `redir_in`. -/
def redirInFds (ins : List Str) (s : Fds) : Shell (Bool × Fds) := do
  match ins with
  | [] => return (true, s)
  | f :: fs =>
    let (ok, s) ← openAllReadFds (f :: fs) s
    if ok then
      match fs with
      | [] =>
        if ← openRead f then
          let (fd, s) := s.openFile f
          return (true, (s.dup2 fd 0).close fd)
        else return (false, s)
      | _ :: _ =>
        if ← pipe then
          let (r, w, s) := s.pipe
          match ← fork with
          | .child => exit 0
          -- a failed `fork` is not looked at
          | _ => return (true, ((s.close w).dup2 r 0).close r)
        else return (false, s)
    else return (false, s)

/-- The loop of `redir_out`; `fds` are the files opened so far, which a failure
closes. -/
def openAllWriteFds : List (Str × Bool) → List ℕ → Fds → Shell (Option (List ℕ) × Fds)
  | [], fds, s => return (some fds, s)
  | (f, append) :: fs, fds, s => do
    if ← openWrite f append then
      let (fd, s) := s.openFile f
      openAllWriteFds fs (fds ++ [fd]) s
    else
      print "cshell: unable to create file for writing\n".toList
      return (none, s.closeAll fds)

/-- `redir_out`. -/
def redirOutFds (outs : List (Str × Bool)) (s : Fds) : Shell (Bool × Fds) := do
  let (opened, s) ← openAllWriteFds outs [] s
  match opened with
  | none => return (false, s)
  | some [] => return (true, s)
  | some [fd] => return (true, (s.dup2 fd 1).close fd)
  | some fds =>
    if ← Cshell.pipe then
      let (r, w, s) := s.pipe
      match ← fork with
      | .failed => return (false, ((s.closeAll fds).close r).close w)
      | .child => exit 0
      | .parent => return (true, (((s.close r).dup2 w 1).close w).closeAll fds)
    else return (false, s.closeAll fds)

/-- The branch of `resume` in `process_cmd`. -/
def resumeFds (j : Job) (prev : Str) (s : Fds) : Shell (Ctl × Fds) := do
  if j.needRedir then
    let (savedIn, s) := if j.ins.isEmpty then (none, s) else s.dup 0
    let (ok, s) ← redirInFds j.ins s
    if ok then
      let (savedOut, s) := if j.outs.isEmpty then (none, s) else s.dup 1
      let (ok, s) ← redirOutFds j.outs s
      if ok then
        call j.cmd j.args
        return (.next j.after prev, (s.restore savedIn 0).restore savedOut 1)
      else return (.next j.after prev, (s.restore savedIn 0).discard savedOut)
    else return (.next j.after prev, s.discard savedIn)
  else
    call j.cmd j.args
    return (.next j.after prev, s)

/-! ### What the operations do to the table -/

namespace Fds

variable {s s' : Fds} {l : List ℕ}

theorem get_close (s : Fds) (fd : ℕ) : (s.close fd).get = Function.update s.get fd none :=
  s.table.get_close fd

theorem get_dup2 {old : ℕ} {f : OpenFile} (h : s.get old = some f) (new : ℕ) :
    (s.dup2 old new).get = Function.update s.get new (some f) := s.table.get_dup2 h new

theorem table_closeAll (s : Fds) (fds : List ℕ) : (s.closeAll fds).table = s.table.closeAll fds := by
  induction fds generalizing s with
  | nil => rfl
  | cons fd fds ih => exact ih (s.close fd)

theorem get_closeAll (s : Fds) (fds : List ℕ) (fd : ℕ) :
    (s.closeAll fds).get fd = if fd ∈ fds then none else s.get fd := by
  rw [get, table_closeAll]
  exact s.table.get_closeAll fds fd

/-- `dup` of an open descriptor. -/
theorem dup_spec {n : ℕ} (hn : s.get n ≠ none) : ∃ fd, (s.dup n).1 = some fd ∧ s.get fd = none ∧
    (s.dup n).2.get = Function.update s.get fd (s.get n) := by
  refine ⟨s.table.lowest, ?_⟩
  rw [dup]
  split
  case h_1 h => exact absurd h hn
  case h_2 f h =>
    refine ⟨rfl, s.table.get_lowest, ?_⟩
    show (s.table.alloc f).2.get = _
    rw [Descriptors.get_alloc, ← h]
    rfl

/-- The descriptors 0, 1 and 2 are open. -/
def Standard (s : Fds) : Prop := ∀ fd < 3, s.get fd ≠ none

/-- Descriptor `n` has been given another file. -/
def Redirected (s : Fds) (n : ℕ) (s' : Fds) : Prop := ∃ f, s'.get = Function.update s.get n (some f)

theorem Standard.redirected (h : s.Standard) {n : ℕ} (hs : s.Redirected n s') : s'.Standard := by
  obtain ⟨f, hf⟩ := hs
  intro fd hfd
  rw [hf, Function.update_apply]
  split
  · simp
  · exact h fd hfd

/-- A descriptor in use is redirected to itself. -/
theorem redirected_self {n : ℕ} (h : s.get n ≠ none) : s.Redirected n s := by
  obtain ⟨f, hf⟩ := Option.ne_none_iff_exists'.mp h
  exact ⟨f, (Function.update_eq_self_iff.mpr hf.symm).symm⟩

/-- The descriptors `l` have been opened in addition. -/
structure Opened (s : Fds) (l : List ℕ) (s' : Fds) : Prop where
  new : ∀ fd ∈ l, s.get fd = none
  isOpen : ∀ fd ∈ l, s'.get fd ≠ none
  same : ∀ fd, fd ∉ l → s'.get fd = s.get fd

theorem Opened.nil (s : Fds) : s.Opened [] s := ⟨by simp, by simp, fun _ _ => rfl⟩

/-- One more, on the lowest free descriptor. -/
theorem Opened.snoc (h : s.Opened l s') {s'' : Fds} {f : OpenFile}
    (hs : s''.get = Function.update s'.get s'.table.lowest (some f)) :
    s.Opened (l ++ [s'.table.lowest]) s'' := by
  have hlow : s'.get s'.table.lowest = none := s'.table.get_lowest
  have hnew : s'.table.lowest ∉ l := fun hm => h.isOpen _ hm hlow
  constructor
  · intro fd hfd
    rcases List.mem_append.mp hfd with hm | hm
    · exact h.new fd hm
    · rw [List.mem_singleton.mp hm, ← h.same _ hnew]
      exact hlow
  · intro fd hfd
    rw [hs, Function.update_apply]
    split
    · simp
    case isFalse hne =>
      rcases List.mem_append.mp hfd with hm | hm
      · exact h.isOpen fd hm
      · exact absurd (List.mem_singleton.mp hm) hne
  · intro fd hfd
    simp only [List.mem_append, List.mem_singleton, not_or] at hfd
    rw [hs, Function.update_of_ne hfd.2, h.same fd hfd.1]

/-- Closing them all gives the table back. -/
theorem Opened.closeAll (h : s.Opened l s') : (s'.closeAll l).get = s.get := by
  funext fd
  rw [get_closeAll]
  split
  case isTrue hm => exact (h.new fd hm).symm
  case isFalse hm => exact h.same fd hm

/-- One of them is moved to a descriptor in use, and all are closed. -/
theorem Opened.redirected (h : s.Opened l s') {n : ℕ} (hn : s.get n ≠ none) {u : Fds} {f : OpenFile}
    (hu : ∀ fd, u.get fd = if fd ∈ l then none else if fd = n then some f else s'.get fd) :
    s.Redirected n u := by
  refine ⟨f, ?_⟩
  funext fd
  rw [hu, Function.update_apply]
  by_cases hm : fd ∈ l
  · have hne : fd ≠ n := by
      rintro rfl
      exact hn (h.new fd hm)
    rw [if_pos hm, if_neg hne, h.new fd hm]
  · rw [if_neg hm, h.same fd hm]

theorem get_openFile (s : Fds) (path : Str) :
    (s.openFile path).2.get = Function.update s.get (s.openFile path).1 (some (.disk path)) :=
  s.table.get_alloc _

theorem Opened.openFile (h : s.Opened l s') (path : Str) :
    s.Opened (l ++ [(s'.openFile path).1]) (s'.openFile path).2 := h.snoc (s'.get_openFile path)

theorem get_pipe (s : Fds) : s.pipe.2.2.get =
    Function.update (Function.update s.get s.pipe.1 (some (.readEnd s.pipes))) s.pipe.2.1
      (some (.writeEnd s.pipes)) := by
  show ((s.table.alloc _).2.alloc _).2.get = _
  rw [Descriptors.get_alloc, Descriptors.get_alloc]
  rfl

theorem pipe_ne (s : Fds) : s.pipe.1 ≠ s.pipe.2.1 := by
  intro h
  have hlow : (s.table.alloc (.readEnd s.pipes)).2.get s.pipe.2.1 = none :=
    (s.table.alloc (.readEnd s.pipes)).2.get_lowest
  rw [← h, Descriptors.get_alloc] at hlow
  cases (Function.update_self s.table.lowest _ s.table.get).symm.trans hlow

theorem Opened.pipe (h : s.Opened l s') :
    s.Opened (l ++ [s'.pipe.1, s'.pipe.2.1]) s'.pipe.2.2 := by
  have hknown : ∀ fd, PipeBelow (s'.pipes + 1) ((s'.table.alloc (.readEnd s'.pipes)).2.get fd) := by
    rw [Descriptors.get_alloc]
    refine pipeBelow_update (fun fd => (s'.known fd).mono (Nat.le_succ _)) ?_ _
    rintro p (hp | hp) <;> cases hp
    exact Nat.lt_succ_self _
  have hread : s.Opened (l ++ [s'.pipe.1])
      ⟨(s'.table.alloc (.readEnd s'.pipes)).2, s'.pipes + 1, hknown⟩ :=
    h.snoc (s'.table.get_alloc _)
  have hwrite : s.Opened (l ++ [s'.pipe.1] ++ [s'.pipe.2.1]) s'.pipe.2.2 :=
    hread.snoc ((s'.table.alloc (.readEnd s'.pipes)).2.get_alloc _)
  rwa [List.append_assoc] at hwrite

/-- A file moved to a descriptor in use. -/
theorem redirected_openFile (s : Fds) (path : Str) {n : ℕ} (hn : s.get n ≠ none) :
    s.Redirected n (((s.openFile path).2.dup2 (s.openFile path).1 n).close (s.openFile path).1) :=
  ⟨_, s.table.get_alloc_dup2_close _ hn⟩

/-- The one file that is open in addition moved to a descriptor in use. -/
theorem Opened.redirected_singleton {fd : ℕ} (h : s.Opened [fd] s') {n : ℕ} (hn : s.get n ≠ none) :
    s.Redirected n ((s'.dup2 fd n).close fd) := by
  obtain ⟨f, hf⟩ := Option.ne_none_iff_exists'.mp (h.isOpen fd (by simp))
  refine h.redirected hn (f := f) fun k => ?_
  rw [get_close, get_dup2 hf]
  simp only [Function.update_apply, List.mem_singleton]

/-- The read end of a pipe moved to a descriptor in use, the write end closed. -/
theorem redirected_readEnd (s : Fds) {n : ℕ} (hn : s.get n ≠ none) :
    s.Redirected n (((s.pipe.2.2.close s.pipe.2.1).dup2 s.pipe.1 n).close s.pipe.1) := by
  have hopen := (Opened.nil s).pipe
  have hw : s.pipe.2.1 ≠ n := by
    rintro rfl
    exact hn (hopen.new _ (by simp))
  have hread : (s.pipe.2.2.close s.pipe.2.1).get s.pipe.1 = some (.readEnd s.pipes) := by
    rw [get_close, Function.update_of_ne s.pipe_ne, get_pipe, Function.update_of_ne s.pipe_ne,
      Function.update_self]
  refine hopen.redirected hn (f := .readEnd s.pipes) fun fd => ?_
  rw [get_close, get_dup2 hread, get_close]
  simp only [Function.update_apply, List.nil_append, List.mem_cons, List.not_mem_nil, or_false]
  by_cases hr : fd = s.pipe.1
  · simp [hr]
  · by_cases hw' : fd = s.pipe.2.1
    · subst hw'
      simp [hr, hw]
    · simp [hr, hw']

/-- The write end of a pipe moved to a descriptor in use, the read end closed and what
was open in addition. -/
theorem Opened.redirected_writeEnd (h : s.Opened l s') {n : ℕ} (hn : s.get n ≠ none) :
    s.Redirected n
      ((((s'.pipe.2.2.close s'.pipe.1).dup2 s'.pipe.2.1 n).close s'.pipe.2.1).closeAll l) := by
  have hopen := h.pipe
  have hr : s'.pipe.1 ≠ n := by
    rintro rfl
    exact hn (hopen.new _ (by simp))
  have hwrite : (s'.pipe.2.2.close s'.pipe.1).get s'.pipe.2.1 = some (.writeEnd s'.pipes) := by
    rw [get_close, Function.update_of_ne s'.pipe_ne.symm, get_pipe, Function.update_self]
  refine hopen.redirected hn (f := .writeEnd s'.pipes) fun fd => ?_
  rw [get_closeAll, get_close, get_dup2 hwrite, get_close]
  simp only [Function.update_apply, List.mem_append, List.mem_cons, List.not_mem_nil, or_false]
  by_cases hl : fd ∈ l
  · simp [hl]
  · by_cases hw : fd = s'.pipe.2.1
    · simp [hw]
    · by_cases hr' : fd = s'.pipe.1
      · subst hr'
        simp [hl, hw, hr]
      · simp [hl, hw, hr']

end Fds

/-! ### The functions without the table -/

/-- A function that redirects `n` has returned: it has done so, or it has failed and
the table is as before. -/
def RedirectionOf (s : Fds) (n : ℕ) (a : Bool × Fds) (ok : Bool) : Prop :=
  a.1 = ok ∧ if ok then s.Redirected n a.2 else a.2.get = s.get

theorem Fds.Redirected.redirectionOf {s u : Fds} {n : ℕ} (h : s.Redirected n u) :
    RedirectionOf s n (true, u) true := ⟨rfl, h⟩

theorem redirectionOf_failed {s u : Fds} {n : ℕ} (h : u.get = s.get) :
    RedirectionOf s n (false, u) false := ⟨rfl, h⟩

theorem openAllReadFds_sim (ins : List Str) (s : Fds) :
    Proc.Sim some (fun a ok => a.1 = ok ∧ a.2.get = s.get) (openAllReadFds ins s)
      (openAllRead ins) := by
  induction ins generalizing s with
  | nil => exact .ret ⟨rfl, rfl⟩
  | cons f fs ih =>
    refine Proc.sim_bind fun ok => ?_
    cases ok with
    | false => exact .emit rfl (.ret ⟨rfl, rfl⟩)
    | true =>
      have hsame : ((s.openFile f).2.close (s.openFile f).1).get = s.get := s.table.get_alloc_close _
      exact (ih _).mono fun a ok h => ⟨h.1, h.2.trans hsame⟩

theorem redirInFds_sim (ins : List Str) {s : Fds} (h : s.Standard) :
    Proc.Sim some (RedirectionOf s 0) (redirInFds ins s) (redirIn ins) := by
  have h0 : s.get 0 ≠ none := h 0 (by decide)
  cases ins with
  | nil => exact .ret (Fds.redirected_self h0).redirectionOf
  | cons f fs =>
    refine Proc.Sim.bind (openAllReadFds_sim (f :: fs) s) ?_
    rintro ⟨ok, s₁⟩ _ ⟨rfl, hs₁⟩
    replace hs₁ : s₁.get = s.get := hs₁
    have h₁ : s₁.get 0 ≠ none := by rwa [hs₁]
    have hred : ∀ u, s₁.Redirected 0 u → RedirectionOf s 0 (true, u) true := by
      intro u hu
      obtain ⟨g, hg⟩ := hu
      exact Fds.Redirected.redirectionOf ⟨g, by rw [hg, hs₁]⟩
    cases ok with
    | false => exact .ret (redirectionOf_failed hs₁)
    | true =>
      cases fs with
      | nil =>
        refine .ask (Query.openRead f) fun ok => ?_
        cases ok with
        | false => exact .ret (redirectionOf_failed hs₁)
        | true => exact .ret (hred _ (s₁.redirected_openFile f h₁))
      | cons f' fs =>
        refine Proc.sim_bind fun ok => ?_
        cases ok with
        | false => exact .ret (redirectionOf_failed hs₁)
        | true =>
          refine Proc.sim_bind fun pid => ?_
          cases pid with
          | child => exact .exit _
          | parent => exact .ret (hred _ (s₁.redirected_readEnd h₁))
          | failed => exact .ret (hred _ (s₁.redirected_readEnd h₁))

/-- The files of `redir_out` are open in addition, or closed again. -/
theorem openAllWriteFds_sim (outs : List (Str × Bool)) {s s' : Fds} {l : List ℕ}
    (h : s.Opened l s') :
    Proc.Sim some (fun a ok => match a.1 with
        | some l' => ok = true ∧ l'.length = l.length + outs.length ∧ s.Opened l' a.2
        | none => ok = false ∧ a.2.get = s.get)
      (openAllWriteFds outs l s') (openAllWrite outs) := by
  induction outs generalizing l s' with
  | nil => exact .ret ⟨rfl, rfl, h⟩
  | cons x outs ih =>
    obtain ⟨f, append⟩ := x
    refine Proc.sim_bind fun ok => ?_
    cases ok with
    | false => exact .emit rfl (.ret ⟨rfl, h.closeAll⟩)
    | true =>
      refine (ih (h.openFile f)).mono ?_
      rintro ⟨a, s''⟩ ok hR
      cases a with
      | none => exact hR
      | some l' =>
        obtain ⟨hok, hlen, hopen⟩ := hR
        refine ⟨hok, ?_, hopen⟩
        simp only [List.length_append, List.length_cons, List.length_nil] at hlen ⊢
        omega

theorem redirOutFds_sim (outs : List (Str × Bool)) {s : Fds} (h : s.Standard) :
    Proc.Sim some (RedirectionOf s 1) (redirOutFds outs s) (redirOut outs) := by
  have h1 : s.get 1 ≠ none := h 1 (by decide)
  refine Proc.Sim.bind (openAllWriteFds_sim outs (.nil s)) ?_
  rintro ⟨opened, s₁⟩ ok hR
  cases opened with
  | none =>
    obtain ⟨rfl, hs⟩ := hR
    exact .ret ⟨rfl, hs⟩
  | some l =>
    obtain ⟨rfl, hlen, hopen⟩ := hR
    rw [List.length_nil, Nat.zero_add] at hlen
    match l, outs, hlen with
    | [], [], _ =>
      have hs : s₁.get = s.get := hopen.closeAll
      obtain ⟨f, hf⟩ := Fds.redirected_self h1
      exact .ret (Fds.Redirected.redirectionOf ⟨f, hs.trans hf⟩)
    | [fd], [x], _ => exact .ret (hopen.redirected_singleton h1).redirectionOf
    | fd :: fd' :: fds, x :: x' :: outs, _ =>
      refine Proc.sim_bind fun ok => ?_
      cases ok with
      | false => exact .ret (redirectionOf_failed hopen.closeAll)
      | true =>
        refine Proc.sim_bind fun pid => ?_
        cases pid with
        | failed =>
          have hclosed := hopen.pipe.closeAll
          rw [Fds.closeAll, List.foldl_append] at hclosed
          exact .ret (redirectionOf_failed hclosed)
        | child => exact .exit _
        | parent => exact .ret (hopen.redirected_writeEnd h1).redirectionOf

/-! ### `resume` -/

/-- The state `s'` has the file of `n` in the descriptors `x` in addition, where there is
one, and `n` itself may have another file then. -/
structure Held (s : Fds) (n : ℕ) (x : Option ℕ) (s' : Fds) : Prop where
  new : ∀ fd ∈ x, s.get fd = none
  saved : ∀ fd ∈ x, s'.get fd = s.get n
  isOpen : s'.get n ≠ none
  same : ∀ m, m ∉ x → (x = none ∨ m ≠ n) → s'.get m = s.get m

namespace Held

variable {s s' v : Fds} {n : ℕ} {x : Option ℕ}

theorem refl (hn : s.get n ≠ none) : Held s n none s :=
  ⟨fun _ h => (by cases h), fun _ h => (by cases h), hn, fun _ _ _ => rfl⟩

/-- `dup` and a redirection of `n`. -/
theorem of_redirected {fd : ℕ} (hfd : s.get fd = none) (hn : s.get n ≠ none)
    (hs : s'.get = Function.update s.get fd (s.get n)) (hv : s'.Redirected n v) :
    Held s n (some fd) v := by
  obtain ⟨f, hf⟩ := hv
  have hne : fd ≠ n := by
    rintro rfl
    exact hn hfd
  refine ⟨?_, ?_, ?_, ?_⟩
  · rintro _ ⟨⟩
    exact hfd
  · rintro _ ⟨⟩
    rw [hf, Function.update_of_ne hne, hs, Function.update_self]
  · rw [hf, Function.update_self]
    simp
  · intro m hm hmn
    have hmfd : m ≠ fd := by
      rintro rfl
      exact hm rfl
    have hmn' : m ≠ n := hmn.resolve_left (by simp)
    rw [hf, Function.update_of_ne hmn', hs, Function.update_of_ne hmfd]

/-- What the two descriptors refer to is open. -/
theorem ne_none (h : Held s n x s') (hn : s.get n ≠ none) {m : ℕ} (hm : m = n ∨ m ∈ x) :
    s'.get m ≠ none := by
  rcases hm with rfl | hm
  · exact h.isOpen
  · rw [h.saved m hm]
    exact hn

theorem same_of_not (h : Held s n x s') {m : ℕ} (hm : ¬ (m = n ∨ m ∈ x)) : s'.get m = s.get m :=
  h.same m (fun hx => hm (.inr hx)) (.inr fun hn => hm (.inl hn))

/-- Another descriptor that was open is not among them. -/
theorem not_of_ne_none (h : Held s n x s') {m : ℕ} (hm : s.get m ≠ none) (hne : m ≠ n) :
    ¬ (m = n ∨ m ∈ x) := by
  rintro (hn | hx)
  · exact hne hn
  · exact hm (h.new m hx)

theorem standard (h : Held s n x s') (hs : s.Standard) (hn : n < 3) : s'.Standard := by
  intro fd hfd
  by_cases hm : fd = n ∨ fd ∈ x
  · exact h.ne_none (hs n hn) hm
  · rw [h.same_of_not hm]
    exact hs fd hfd

/-- The saved descriptor is put back; whatever else there is stays. -/
theorem restore (h : Held s n x s') (hn : s.get n ≠ none)
    (hv : ∀ m, m = n ∨ m ∈ x → v.get m = s'.get m) (m : ℕ) :
    (v.restore x n).get m = if m = n ∨ m ∈ x then s.get m else v.get m := by
  cases x with
  | none =>
    show v.get m = _
    split
    case isTrue hm =>
      rw [hv m hm]
      exact h.same m (by simp) (.inl rfl)
    case isFalse => rfl
  | some fd =>
    obtain ⟨f, hf⟩ := Option.ne_none_iff_exists'.mp hn
    have hsaved : v.get fd = some f := by
      rw [hv fd (.inr rfl), h.saved fd rfl, hf]
    show ((v.dup2 fd n).close fd).get m = _
    rw [Fds.get_close, Fds.get_dup2 hsaved, Function.update_apply, Function.update_apply]
    by_cases hm : m = fd
    · rw [if_pos hm, if_pos (.inr (by rw [hm]; rfl)), hm, h.new fd rfl]
    · have hm' : m ∉ some fd := by
        intro hmem
        exact hm (Option.some_inj.mp hmem).symm
      rw [if_neg hm]
      by_cases hmn : m = n
      · rw [if_pos hmn, if_pos (.inl hmn), hmn, hf]
      · rw [if_neg hmn, if_neg (by tauto)]

/-- A saved descriptor that is not needed is closed. -/
theorem discard (h : ∀ fd ∈ x, s.get fd = none) (hv : ∀ m, m ∉ x → v.get m = s.get m) :
    (v.discard x).get = s.get := by
  cases x with
  | none => exact funext fun m => hv m (by simp)
  | some fd =>
    funext m
    show (v.close fd).get m = s.get m
    rw [Fds.get_close, Function.update_apply]
    split
    case isTrue hm => rw [hm, h fd rfl]
    case isFalse hm => exact hv m fun hmem => hm (Option.some_inj.mp hmem).symm

end Held

/-- A descriptor is saved, if there is something to redirect, and redirected. -/
theorem stage_sim {n : ℕ} (hn : n < 3) {p : Fds → Shell (Bool × Fds)} {q : Shell Bool} {s : Fds}
    (h : s.Standard) (isEmpty : Bool)
    (hp : ∀ t : Fds, t.Standard → Proc.Sim some (RedirectionOf t n) (p t) q)
    (he : isEmpty = true → p s = pure (true, s) ∧ q = pure true) {x : Option ℕ} {t : Fds}
    (hx : (if isEmpty then (none, s) else s.dup n) = (x, t)) :
    Proc.Sim some (fun a ok => a.1 = ok ∧
        if ok then Held s n x a.2
        else (∀ fd ∈ x, s.get fd = none) ∧ ∀ m, m ∉ x → a.2.get m = s.get m)
      (p t) q := by
  cases isEmpty with
  | true =>
    cases hx
    obtain ⟨hp', hq⟩ := he rfl
    rw [hp', hq]
    exact .ret ⟨rfl, Held.refl (h n hn)⟩
  | false =>
    obtain ⟨fd, hsaved, hfree, hget⟩ := Fds.dup_spec (h n hn)
    have hxt : s.dup n = (x, t) := hx
    rw [hxt] at hsaved hget
    cases hsaved
    have ht : t.Standard := by
      intro k hk
      rw [hget, Function.update_apply]
      split
      · exact h n hn
      · exact h k hk
    refine (hp t ht).mono ?_
    rintro ⟨ok, u⟩ _ ⟨rfl, hu⟩
    cases ok with
    | true => exact ⟨rfl, Held.of_redirected hfree (h n hn) hget hu⟩
    | false =>
      replace hu : u.get = t.get := hu
      refine ⟨rfl, ?_, ?_⟩
      · rintro _ ⟨⟩
        exact hfree
      · intro m hm
        have hne : m ≠ fd := by
          rintro rfl
          exact hm rfl
        show u.get m = s.get m
        rw [hu, hget, Function.update_of_ne hne]

/-- Both descriptors are put back. -/
theorem restore_restore {s s₁ s₂ : Fds} {x y : Option ℕ} (h : s.Standard) (hin : Held s 0 x s₁)
    (hout : Held s₁ 1 y s₂) : ((s₂.restore x 0).restore y 1).get = s.get := by
  have h0 : s.get 0 ≠ none := h 0 (by decide)
  have h1 : s₁.get 1 ≠ none := hin.standard h (by decide) 1 (by decide)
  -- the descriptors of the one are not those of the other
  have hdisj : ∀ m, m = 0 ∨ m ∈ x → ¬ (m = 1 ∨ m ∈ y) := by
    intro m hm
    refine hout.not_of_ne_none (hin.ne_none h0 hm) ?_
    rintro rfl
    exact hin.not_of_ne_none (h 1 (by decide)) (by decide) hm
  have hw := hin.restore (v := s₂) h0 fun m hm => hout.same_of_not (hdisj m hm)
  funext m
  rw [hout.restore h1 ?_ m, hw]
  · by_cases hm : m = 1 ∨ m ∈ y
    · rw [if_pos hm]
      exact hin.same_of_not fun hm' => hdisj m hm' hm
    · rw [if_neg hm]
      by_cases hm' : m = 0 ∨ m ∈ x
      · rw [if_pos hm']
      · rw [if_neg hm', hout.same_of_not hm, hin.same_of_not hm']
  · intro k hk
    rw [hw, if_neg fun hk' => hdisj k hk' hk]

/-- The input is put back after the output could not be redirected. -/
theorem restore_discard {s s₁ s₂ : Fds} {x y : Option ℕ} (h : s.Standard) (hin : Held s 0 x s₁)
    (hnew : ∀ fd ∈ y, s₁.get fd = none) (hout : ∀ m, m ∉ y → s₂.get m = s₁.get m) :
    ((s₂.restore x 0).discard y).get = s.get := by
  have h0 : s.get 0 ≠ none := h 0 (by decide)
  have hdisj : ∀ m, m = 0 ∨ m ∈ x → m ∉ y := fun m hm hy => hin.ne_none h0 hm (hnew m hy)
  have hw := hin.restore (v := s₂) h0 fun m hm => hout m (hdisj m hm)
  refine Held.discard ?_ ?_
  · intro fd hfd
    rw [← hin.same_of_not fun hm => hdisj fd hm hfd]
    exact hnew fd hfd
  · intro m hm
    rw [hw]
    by_cases hm' : m = 0 ∨ m ∈ x
    · rw [if_pos hm']
    · rw [if_neg hm', hout m hm, hin.same_of_not hm']

theorem resumeFds_sim (j : Job) (prev : Str) {s : Fds} (h : s.Standard) :
    Proc.Sim some (fun a c => a.1 = c ∧ a.2.get = s.get) (resumeFds j prev s)
      (resumeBranch j prev) := by
  unfold resumeFds resumeBranch
  by_cases hredir : j.needRedir = true
  · rw [if_pos hredir]
    obtain ⟨⟨x, t⟩, hx⟩ : ∃ y, (if j.ins.isEmpty then (none, s) else s.dup 0) = y := ⟨_, rfl⟩
    rw [hx]
    refine Proc.Sim.bind (stage_sim (n := 0) (p := redirInFds j.ins) (by decide) h j.ins.isEmpty
      (fun t ht => redirInFds_sim j.ins ht) ?_ hx) ?_
    · intro he
      rw [List.isEmpty_iff.mp he]
      exact ⟨rfl, rfl⟩
    rintro ⟨ok, s₁⟩ _ ⟨rfl, hin⟩
    cases ok with
    | false => exact .ret ⟨rfl, Held.discard hin.1 hin.2⟩
    | true =>
      replace hin : Held s 0 x s₁ := hin
      have h₁ : s₁.Standard := hin.standard h (by decide)
      obtain ⟨⟨y, t⟩, hy⟩ : ∃ y, (if j.outs.isEmpty then (none, s₁) else s₁.dup 1) = y := ⟨_, rfl⟩
      show Proc.Sim some _ (match (if j.outs.isEmpty then (none, s₁) else s₁.dup 1) with
        | (savedOut, s) => _) (redirOut j.outs >>= fun ok => _)
      rw [hy]
      refine Proc.Sim.bind (stage_sim (n := 1) (p := redirOutFds j.outs) (by decide) h₁ j.outs.isEmpty
        (fun t ht => redirOutFds_sim j.outs ht) ?_ hy) ?_
      · intro he
        rw [List.isEmpty_iff.mp he]
        exact ⟨rfl, rfl⟩
      rintro ⟨ok, s₂⟩ _ ⟨rfl, hout⟩
      cases ok with
      | false => exact .ret ⟨rfl, restore_discard h hin hout.1 hout.2⟩
      | true => exact .emit rfl (.ret ⟨rfl, restore_restore h hin hout⟩)
  · have hempty : j.ins = [] ∧ j.outs = [] := by simpa [Job.needRedir] using hredir
    rw [if_neg hredir, hempty.1, hempty.2]
    exact .emit rfl (.ret ⟨rfl, rfl⟩)

/-- **A redirected `resume` leaves the descriptors as they were**: whichever of its
`open`, `pipe` and `fork` calls fail, the shell comes out of the branch with the
table it went in with; and without the table the branch is the one of the program. -/
theorem resume_restores (j : Job) (prev : Str) {s : Fds} (h : s.Standard) :
    (resumeFds j prev s).Returns (fun r => r.2.get = s.get) ∧
      (resumeFds j prev s >>= fun r => pure r.1) = resumeBranch j prev := by
  have hsim := resumeFds_sim j prev h
  exact ⟨hsim.returns fun _ _ hr => hr.2, (hsim.mono fun _ _ hr => hr.1).map_eq⟩

/-- The descriptors of a shell at a terminal. -/
def terminal : Fds where
  table := ⟨[some (.inherited 0), some (.inherited 1), some (.inherited 2)]⟩
  pipes := 0
  known := by
    intro fd p hp
    match fd with
    | 0 | 1 | 2 => rcases hp with hp | hp <;> cases hp
    | fd + 3 => rcases hp with hp | hp <;> cases hp

theorem terminal_standard : terminal.Standard := by
  intro fd hfd
  match fd, hfd with
  | 0, _ | 1, _ | 2, _ => exact fun h => by cases h

/-- The command `resume < a > b > c`. -/
theorem resume_restores_files :
    terminal.Standard ∧
    (resumeFds ⟨[], [], "resume".toList, ["resume".toList], [['a']], [(['b'], false), (['c'], false)],
      false⟩ [] terminal).Returns (fun r => r.2.get = terminal.get) :=
  ⟨terminal_standard, (resume_restores _ [] terminal_standard).1⟩

end Cshell
