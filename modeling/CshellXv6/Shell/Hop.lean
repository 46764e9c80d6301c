/-
`hop` of `c-shell/src/bins.c`: the working directory, `prev` and the frecency
table.

Each operand names a directory along one of several routes, and `hop` changes
to it.  Only when `chdir` succeeds are `prev` and the table changed.  Without
operands `hop` goes to the home directory and does not look at what `chdir`
returns: `prev` becomes the working directory also when it is not left.

The file system is asked anew for every operand.  The table is in a file in the
home directory, so it cannot be opened when the home directory cannot be
entered.

* `hopStep` — what is done for an operand, or for a `hop` without one;
* `OnSuccess` — the state changes with the directory, or not at all;
* `hop_iff` — exactly when it does, and what `prev` then is after any sequence
  of hops.
-/
import CshellXv6.Lib.Transition
import CshellXv6.Shell.Frecency

namespace Cshell

namespace Hop

/-- The state that `hop` changes. -/
structure State where
  cwd : Str
  prev : Str
  table : List Element

/-- The system as one operand finds it.  `chdir c p` is the directory that the path
`p` leads to from `c`, under the name that `getcwd` gives it. -/
structure Env (home : Str) where
  now : Int64
  chdir : Str → Str → Option Str
  isDir : Str → Str → Bool
  readable : Bool
  writable : Bool
  entered : writable = true → ∀ c, (chdir c home).isSome = true

variable {home : Str}

/-- `search(home, query, tar)`. -/
def Env.search (e : Env home) (s : State) (query : Str) : Option Str :=
  if e.readable then searchTable e.now (e.isDir s.cwd) query s.table else none

/-- `update(path, home)`. -/
def Env.update (e : Env home) (path : Str) (t : List Element) : List Element :=
  if e.writable then updateTable e.now path (if e.readable then t.take 100 else []) else t

/-- What an operand gives to `chdir`, if anything, and what is printed. -/
def target (e : Env home) (s : State) (a : Str) : Option Str × Str :=
  if a = ['~'] then (some home, [])
  else if a = ['-'] then (if s.prev = [] then none else some s.prev, [])
  else if a = ['.'] then (none, [])
  else if a = ['.', '.'] then (if s.cwd = ['/'] then none else some ['.', '.'], [])
  else if e.isDir s.cwd a then (some a, [])
  else
    match e.search s a with
    | some p => (some p, [])
    | none => (none, "hop: no such directory\n".toList)

/-- A turn of the loop over the operands. -/
def hopOperand (e : Env home) (s : State) (a : Str) : State :=
  match (target e s a).1 with
  | none => s
  | some tar =>
    match e.chdir s.cwd tar with
    | none => s
    | some d => ⟨d, s.cwd, e.update d s.table⟩

/-- `hop` without operands. -/
def hopHome (e : Env home) (s : State) : State :=
  ⟨(e.chdir s.cwd home).getD s.cwd, s.cwd, e.update home s.table⟩

/-- `hop` with the operands `as`; `e` is for a call without any. -/
def hop (e : Env home) (as : List (Str × Env home)) (s : State) : State :=
  match as with
  | [] => hopHome e s
  | _ :: _ => as.foldl (fun s x => hopOperand x.2 s x.1) s

/-! ### Steps -/

inductive Step
  | bare
  | operand (a : Str)
  deriving DecidableEq, Repr

/-- The steps that a call is made of. -/
def steps (e : Env home) : List (Str × Env home) → List (Step × Env home)
  | [] => [(.bare, e)]
  | a :: as => (a :: as).map fun x => (.operand x.1, x.2)

def hopStep (s : State) (x : Step × Env home) : State :=
  match x.1 with
  | .bare => hopHome x.2 s
  | .operand a => hopOperand x.2 s a

/-- A call is the sequence of its steps. -/
theorem hop_eq_foldl (e : Env home) (as : List (Str × Env home)) (s : State) :
    hop e as s = (steps e as).foldl hopStep s := by
  cases as with
  | nil => rfl
  | cons a as =>
    rw [steps, List.foldl_map]
    rfl

/-- The directory that a step reaches, if its `chdir` succeeds. -/
def reached (s : State) (x : Step × Env home) : Option Str :=
  match x.1 with
  | .bare => x.2.chdir s.cwd home
  | .operand a => (target x.2 s a).1.bind (x.2.chdir s.cwd)

/-- The state changes with the directory: `prev` becomes the directory left and the
directory reached is entered in the table; or it does not change at all. -/
def OnSuccess (s : State) (x : Step × Env home) (s' : State) : Prop :=
  (∃ d, reached s x = some d ∧ s' = ⟨d, s.cwd, x.2.update d s.table⟩) ∨
    reached s x = none ∧ s' = s

/-- The condition: without operands the home directory is entered under its own name,
or the table cannot be written; or it is not entered and `prev` is the working
directory already. -/
def CanHop (s : State) (x : Step × Env home) : Prop :=
  x.1 = .bare → (∀ d ∈ x.2.chdir s.cwd home, d = home ∨ x.2.writable = false) ∧
    (x.2.chdir s.cwd home = none → s.prev = s.cwd)

instance (s : State) (x : Step × Env home) : Decidable (CanHop s x) :=
  inferInstanceAs (Decidable (_ → _ ∧ _))

theorem hopOperand_onSuccess (e : Env home) (s : State) (a : Str) :
    OnSuccess s (.operand a, e) (hopOperand e s a) := by
  cases ht : (target e s a).1 with
  | none => exact .inr ⟨by simp [reached, ht], by simp [hopOperand, ht]⟩
  | some tar =>
    cases hd : e.chdir s.cwd tar with
    | none => exact .inr ⟨by simp [reached, ht, hd], by simp [hopOperand, ht, hd]⟩
    | some d => exact .inl ⟨d, by simp [reached, ht, hd], by simp [hopOperand, ht, hd]⟩

/-! ### What `update` touches -/

section Update

variable {now : Int64} {t : List Element}

/-- The index of the entry that `update` changes or adds. -/
def touched (now : Int64) (path : Str) (t : List Element) : ℕ :=
  (t.findIdx? (·.path = path)).getD
    (if t.length < 100 then t.length else loadMin now DBL_MAX 0 0 t)

theorem loadMin_lt (now : Int64) (r : ℚ) (m c : ℕ) (es : List Element) (h : m < c + es.length) :
    loadMin now r m c es < c + es.length := by
  induction es generalizing r m c with
  | nil => exact h
  | cons e es ih =>
    rw [List.length_cons] at h ⊢
    rw [loadMin]
    split
    · have := ih (rank now e) c (c + 1) (by omega)
      omega
    · have := ih r m (c + 1) (by omega)
      omega

/-- The entry that is touched has the path, and it is another one than before. -/
theorem updateTable_touched (now : Int64) (path : Str) (t : List Element) :
    ∃ e, (updateTable now path t)[touched now path t]? = some e ∧ e.path = path ∧
      t[touched now path t]? ≠ some e := by
  cases hf : t.findIdx? (·.path = path) with
  | some i =>
    obtain ⟨hlt, hpath, -⟩ := List.findIdx?_eq_some_iff_getElem.mp hf
    refine ⟨{ t[i] with score := t[i].score + 1, stamp := now }, ?_, by simpa using hpath, ?_⟩
    · simp [updateTable, touched, hf, hlt]
    · simp only [touched, hf, Option.getD_some, List.getElem?_eq_getElem hlt, ne_eq, Option.some_inj]
      intro he
      have hs := congrArg Element.score he
      simp at hs
  | none =>
    have hnot : ∀ e ∈ t, e.path ≠ path := by
      intro e he
      simpa using List.findIdx?_eq_none_iff.mp hf e he
    refine ⟨⟨path, 1, now⟩, ?_, rfl, ?_⟩
    · by_cases hlen : t.length < 100
      · simp [updateTable, touched, hf, hlen]
      · have hlt := loadMin_lt now DBL_MAX 0 0 t (by omega)
        rw [Nat.zero_add] at hlt
        simp [updateTable, touched, hf, hlen, hlt]
    · intro he
      exact hnot _ (List.mem_of_getElem? he) rfl

/-- Every other entry is as it was. -/
theorem updateTable_of_ne {path : Str} {j : ℕ} (h : j ≠ touched now path t) :
    (updateTable now path t)[j]? = t[j]? := by
  unfold touched at h
  unfold updateTable
  split
  case h_1 i hf =>
    rw [hf, Option.getD_some] at h
    simp [Ne.symm h]
  case h_2 hf =>
    rw [hf, Option.getD_none] at h
    split
    case isTrue hlen =>
      rw [if_pos hlen] at h
      rw [List.getElem?_append]
      split
      · rfl
      · rw [List.getElem?_eq_none (by simp; omega), List.getElem?_eq_none (by omega)]
    case isFalse hlen =>
      rw [if_neg hlen] at h
      exact List.getElem?_set_ne (Ne.symm h)

/-- Visits of different directories leave different tables. -/
theorem updateTable_inj {p q : Str} (h : updateTable now p t = updateTable now q t) : p = q := by
  obtain ⟨e, he, hp, hne⟩ := updateTable_touched now p t
  obtain ⟨e', he', hq, -⟩ := updateTable_touched now q t
  by_cases hi : touched now p t = touched now q t
  · rw [h, hi, he', Option.some_inj] at he
    rw [← hp, ← hq, he]
  · rw [h, updateTable_of_ne hi] at he
    exact absurd he hne

end Update

theorem Env.update_eq_iff {e : Env home} {p q : Str} {t : List Element} :
    e.update p t = e.update q t ↔ p = q ∨ e.writable = false := by
  cases hw : e.writable with
  | false => simp [Env.update, hw]
  | true =>
    simp only [Env.update, hw, if_true, Bool.true_eq_false, or_false]
    constructor
    · exact updateTable_inj
    · rintro rfl
      rfl

/-- Without operands the state changes with the directory exactly under the
condition. -/
theorem hopHome_onSuccess_iff (e : Env home) (s : State) :
    OnSuccess s (.bare, e) (hopHome e s) ↔ CanHop s (.bare, e) := by
  have hreached : reached s (.bare, e) = e.chdir s.cwd home := rfl
  cases hd : e.chdir s.cwd home with
  | some d =>
    have hhome : hopHome e s = ⟨d, s.cwd, e.update home s.table⟩ := by rw [hopHome, hd]; rfl
    have hsame : hopHome e s = ⟨d, s.cwd, e.update d s.table⟩ ↔ d = home ∨ e.writable = false := by
      rw [hhome, State.mk.injEq, Env.update_eq_iff]
      simp only [true_and]
      exact or_congr_left eq_comm
    rw [OnSuccess, hreached, hd, CanHop, hd]
    constructor
    · rintro (⟨d', hd', hs⟩ | ⟨hd', -⟩) -
      · cases hd'
        refine ⟨?_, fun hn => absurd hn (by simp)⟩
        intro d'' hd''
        cases hd''
        exact hsame.mp hs
      · cases hd'
    · intro h
      exact .inl ⟨d, rfl, hsame.mpr ((h rfl).1 d rfl)⟩
  | none =>
    -- a home directory that cannot be entered keeps the table from being written
    have hw : e.writable = false := by
      by_contra hne
      have hs := e.entered (by simpa using hne) s.cwd
      rw [hd] at hs
      cases hs
    have hhome : hopHome e s = ⟨s.cwd, s.cwd, s.table⟩ := by
      rw [hopHome, hd, Env.update, hw]
      rfl
    have hsame : hopHome e s = s ↔ s.prev = s.cwd := by
      rw [hhome]
      constructor
      · intro h
        exact (congrArg State.prev h).symm
      · intro h
        obtain ⟨cwd, prev, table⟩ := s
        cases h
        rfl
    rw [OnSuccess, hreached, hd, CanHop, hd]
    constructor
    · rintro (⟨d, hd', -⟩ | ⟨-, hs⟩) -
      · cases hd'
      · exact ⟨fun d hd' => absurd hd' (by simp), fun _ => hsame.mp hs⟩
    · intro h
      exact .inr ⟨rfl, hsame.mpr ((h rfl).2 rfl)⟩

/-! ### Sequences of hops -/

/-- Hops one after the other, `prev` being empty at the start. -/
def hops (home : Str) : Sys State (Step × Env home) where
  init s := s.prev = []
  step s x := some (hopStep s x)

/-- The hops that meet the condition. -/
def cleanHops (home : Str) : Sys State (Step × Env home) := (hops home).restrict CanHop

/-- The directories that were left, the last one first. -/
def leftLog (s : State) (x : Step × Env home) : List Str := if (reached s x).isSome then [s.cwd] else []

theorem OnSuccess.prev {s s' : State} {x : Step × Env home} {l : List Str} (h : OnSuccess s x s')
    (hl : s.prev = l.headD []) : s'.prev = (leftLog s x ++ l).headD [] := by
  rcases h with ⟨d, hd, rfl⟩ | ⟨hd, rfl⟩
  · simp [leftLog, hd]
  · simpa [leftLog, hd] using hl

theorem hopStep_onSuccess_iff (s : State) (x : Step × Env home) :
    OnSuccess s x (hopStep s x) ↔ CanHop s x := by
  obtain ⟨k, e⟩ := x
  cases k with
  | bare => exact hopHome_onSuccess_iff e s
  | operand a =>
    refine iff_of_true (hopOperand_onSuccess e s a) ?_
    intro hb
    cases hb

/-- `hop -` goes to `prev`. -/
theorem hop_dash {s : State} (hp : s.prev ≠ []) (e : Env home) :
    (hopOperand e s ['-']).cwd = (e.chdir s.cwd s.prev).getD s.cwd := by
  have ht : (target e s ['-']).1 = some s.prev := by simp [target, hp]
  rw [hopOperand, ht]
  show (match e.chdir s.cwd s.prev with | none => s | some d => _ : State).cwd = _
  cases e.chdir s.cwd s.prev with
  | none => rfl
  | some d => rfl

theorem hop_dash_of_nil {s : State} (hp : s.prev = []) (e : Env home) : hopOperand e s ['-'] = s := by
  have ht : (target e s ['-']).1 = none := by simp [target, hp]
  rw [hopOperand, ht]

/-- **When `hop` changes the state only on success**: for every operand, and for a call
without any, in every state and file system, either the directory is changed,
`prev` becomes the one left and the one reached is entered in the table, or
nothing changes, if and only if the condition holds.  After every sequence of
hops that meet it `prev` is empty before the first change and otherwise the
directory that the last change left, and `hop -` goes there. -/
theorem hop_iff (home : Str) :
    (∀ (s : State) (x : Step × Env home), OnSuccess s x (hopStep s x) ↔ CanHop s x) ∧
    ∀ y : State × List Str, ((cleanHops home).logged leftLog).Reachable y →
      y.1.prev = y.2.headD [] ∧
      ∀ e : Env home, (hopOperand e y.1 ['-']).cwd =
        if y.1.prev = [] then y.1.cwd else (e.chdir y.1.cwd y.1.prev).getD y.1.cwd := by
  refine ⟨hopStep_onSuccess_iff, ?_⟩
  intro y hy
  have hprev : y.1.prev = y.2.headD [] := by
    refine Sys.logged_invariant (cleanHops home) (I := fun s l => s.prev = l.headD []) ?_ ?_ hy
    · exact fun s hs => hs
    · intro s l x s' _ hI hs
      obtain ⟨hc, hs⟩ := (hops home).restrict_step.mp hs
      cases hs
      exact ((hopStep_onSuccess_iff s x).mpr hc).prev hI
  refine ⟨hprev, ?_⟩
  intro e
  split
  case isTrue hp => rw [hop_dash_of_nil hp]
  case isFalse hp => exact hop_dash hp e

/-- The home directory and the directories `dirs` exist, at the time `now`. -/
def Env.ofDirs (home : Str) (dirs : List Str) (now : Int64) : Env home where
  now := now
  chdir _ p := if (home :: dirs).contains p then some p else none
  isDir _ p := (home :: dirs).contains p
  readable := true
  writable := true
  entered _ _ := by simp

/-- From `/h` to `/a`, and back with `hop -`. -/
theorem hop_back : ∃ y : State × List Str,
    ((cleanHops "/h".toList).logged leftLog).Reachable y ∧
      y.1.cwd = "/a".toList ∧ y.1.prev = "/h".toList ∧ y.1.prev = y.2.headD [] ∧
      (hopOperand (Env.ofDirs "/h".toList ["/a".toList] 7) y.1 ['-']).cwd = "/h".toList := by
  have hstart : ((cleanHops "/h".toList).logged leftLog).Reachable
      ((⟨"/h".toList, [], []⟩ : State), ([] : List Str)) := .init ⟨rfl, rfl⟩
  obtain ⟨y, hy, hcwd, hprev⟩ := Sys.exists_of_run ((cleanHops "/h".toList).logged leftLog)
    [(.operand "/a".toList, Env.ofDirs "/h".toList ["/a".toList] 5)]
    (p := fun y => y.1.cwd = "/a".toList ∧ y.1.prev = "/h".toList) hstart (by decide +kernel)
  obtain ⟨hlog, hdash⟩ := (hop_iff "/h".toList).2 y hy
  refine ⟨y, hy, hcwd, hprev, hlog, ?_⟩
  rw [hdash, hcwd, hprev]
  decide

/-- The home directory is gone. -/
def Env.homeGone (home : Str) : Env home where
  now := 0
  chdir _ _ := none
  isDir _ _ := false
  readable := false
  writable := false
  entered h := by cases h

/-- A `hop` that leads nowhere, from `/tmp`: `prev` is lost all the same. -/
theorem hop_home_gone :
    (hopHome (Env.homeGone "/h".toList) ⟨"/tmp".toList, "/a".toList, []⟩).cwd = "/tmp".toList ∧
      (hopHome (Env.homeGone "/h".toList) ⟨"/tmp".toList, "/a".toList, []⟩).prev = "/tmp".toList ∧
      ¬ OnSuccess ⟨"/tmp".toList, "/a".toList, []⟩ (.bare, Env.homeGone "/h".toList)
        (hopStep ⟨"/tmp".toList, "/a".toList, []⟩ (.bare, Env.homeGone "/h".toList)) := by
  refine ⟨rfl, rfl, ?_⟩
  rintro (⟨d, hd, -⟩ | ⟨-, hs⟩)
  · cases hd
  · exact absurd (congrArg State.prev hs) (by decide)

end Hop

end Cshell
