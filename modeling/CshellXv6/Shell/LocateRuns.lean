/-
When `locate` names the file that `run_cmd` runs.

`run_cmd` looks at `./name` first and then leaves the search to `execvp`;
`locate` splits the working directory and `PATH`, joined with a colon, at the
colons.  A working directory with a colon in its name falls apart, and a path
with a newline in it does not fit on one line.

* `runPath` — the path that `run_cmd` runs;
* `Files` — which file a path names, seen from the working directory;
* `locate_find` — the first path that `locate` prints;
* `locate_predicts_iff` — exactly for which working directories, values of
  `PATH` and names the two agree whatever the files are.
-/
import CshellXv6.Shell.LocateReport

namespace Cshell

open Lines

/-! ### run_cmd -/

/-- The search of `execvp`; an empty entry of `PATH` is the working directory. -/
def execvp (w : World) (file : Str) : Option Str :=
  (((w.path.getD "/bin:/usr/bin".toList).splitOn ':').map fun e =>
    if e = [] then file else e ++ '/' :: file).find? w.isExec

/-- The path that `run_cmd` runs; `none` when it reports that there is none. -/
def runPath (w : World) (cmd : Str) : Option Str :=
  if '/' ∈ cmd then if w.isExec cmd = true then some cmd else none
  else if cmd.head? = some '%' then execvp w cmd.tail
  else
    let cwd := pathBuffer ('.' :: '/' :: cmd)
    if w.isExec cwd = true then some cwd else execvp w cmd

/-! ### Files -/

/-- A path that starts at the working directory. -/
def Relative (r : Str) : Prop := r ≠ [] ∧ r.head? ≠ some '/'

instance (r : Str) : Decidable (Relative r) := inferInstanceAs (Decidable (_ ∧ _))

/-- The executable files of a world: `file x` is the one that the path `x` names. -/
structure Files (w : World) where
  file : Str → Option ℕ
  isExec : ∀ x, w.isExec x = (file x).isSome
  cwd : ∀ r, Relative r → (w.cwd.1 ++ '/' :: r).length < 4096 →
    file (w.cwd.1 ++ '/' :: r) = file r
  dot : ∀ r, Relative r → ('.' :: '/' :: r).length < 4096 → file ('.' :: '/' :: r) = file r

def firstLine (s : Str) : Str := s.takeWhile (· ≠ '\n')

/-- `locate` tells what `run_cmd` does: it says that there is no such file if there is
none to run, and its first line names the file otherwise. -/
def Predicts {w : World} (fs : Files w) (name : Str) : Prop :=
  (runPath w name = none ↔ locate w [name] = notFound name) ∧
    ∀ x, runPath w name = some x → fs.file (firstLine (locate w [name])) = fs.file x

/-! ### The first path of locate -/

section Locate

variable {w : World} {name : Str}

/-- The text of the loop only grows. -/
theorem locateIn_grows (w : World) (name : Str) (dirs : List Str) (res : Str) (exist : Bool) :
    ∃ t b, locateIn w name dirs (res, exist) = (res ++ t, exist || b) := by
  induction dirs generalizing res exist with
  | nil => exact ⟨[], false, by simp [locateIn]⟩
  | cons dir dirs ih =>
    rw [locateIn]
    split
    · obtain ⟨t, b, h⟩ := ih (res ++ pathBuffer (dir ++ '/' :: name) ++ ['\n']) true
      exact ⟨pathBuffer (dir ++ '/' :: name) ++ ['\n'] ++ t, true, by rw [h]; simp⟩
    · exact ih res exist

/-- The first path found is always added. -/
theorem locateIn_hit {dir : Str} (hne : dir ≠ []) (hshort : (dir ++ '/' :: name).length < 4096)
    (hx : w.isExec (dir ++ '/' :: name) = true) (dirs : List Str) :
    ∃ t, locateIn w name (dir :: dirs) ([], false) = (dir ++ '/' :: name ++ '\n' :: t, true) := by
  have hbuf := pathBuffer_of_lt hshort
  have hnew : ¬ (dir ++ '/' :: name ++ ['\n']) <:+: [] := by
    intro h
    have := List.eq_nil_of_infix_nil h
    simp at this
  obtain ⟨t, b, h⟩ := locateIn_grows w name dirs ([] ++ (dir ++ '/' :: name) ++ ['\n']) true
  refine ⟨t, ?_⟩
  rw [locateIn]
  simp only [hbuf]
  rw [if_pos ⟨hne, hx, hnew⟩, h]
  simp

/-- The loop over the directories stands at the first path that is there. -/
theorem locateIn_find {dirs : List Str}
    (hdirs : ∀ d ∈ dirs, d ≠ [] ∧ (d ++ '/' :: name).length < 4096) :
    match (dirs.map (· ++ '/' :: name)).find? w.isExec with
    | none => locateIn w name dirs ([], false) = ([], false)
    | some x => ∃ t, locateIn w name dirs ([], false) = (x ++ '\n' :: t, true) := by
  induction dirs with
  | nil => rfl
  | cons dir dirs ih =>
    obtain ⟨hne, hshort⟩ := hdirs dir List.mem_cons_self
    rw [List.map_cons, List.find?_cons]
    by_cases hx : w.isExec (dir ++ '/' :: name) = true
    · rw [hx]
      exact locateIn_hit hne hshort hx dirs
    · rw [Bool.not_eq_true] at hx
      have hskip : locateIn w name (dir :: dirs) ([], false) = locateIn w name dirs ([], false) := by
        rw [locateIn]
        simp only [pathBuffer_of_lt hshort]
        rw [if_neg (by simp [hx])]
      rw [hx, hskip]
      exact ih fun d hd => hdirs d (List.mem_cons_of_mem dir hd)

/-- The text for one name from the loop over the directories. -/
theorem locate_single {p : Str} (hp : w.path = some p) (name : Str) :
    locate w [name] =
      let r := locateIn w name (((w.cwd.1 ++ ':' :: p).splitOn ':').filter (· ≠ [])) ([], false)
      if r.2 then r.1 else r.1 ++ notFound name := by
  have hloop : locate w [name] = locateNames w ((w.cwd.1 ++ ':' :: p).splitOn ':') [name] [] := by
    simp only [locate, hp]
  rw [hloop, locateNames, locateNames, ← locateIn_filter]
  dsimp only
  rw [append_notFound]

/-- The path in the directory before the first colon is printed first if it is
there. -/
theorem locate_hit {p a rest : Str} (hp : w.path = some p)
    (hsplit : w.cwd.1 ++ ':' :: p = a ++ ':' :: rest) (hcolon : ':' ∉ a) (hne : a ≠ [])
    (hshort : (a ++ '/' :: name).length < 4096) (hx : w.isExec (a ++ '/' :: name) = true) :
    ∃ t, locate w [name] = a ++ '/' :: name ++ '\n' :: t := by
  have hdec : decide (a ≠ []) = true := decide_eq_true hne
  have htext := locate_single hp name
  rw [hsplit, List.splitOn_append_cons_self_of_not_mem hcolon, List.filter_cons,
    if_pos hdec] at htext
  obtain ⟨t, ht⟩ := locateIn_hit hne hshort hx ((rest.splitOn ':').filter (· ≠ []))
  refine ⟨t, ?_⟩
  rw [htext, ht]
  rfl

/-- **The first path that `locate` prints**, where the working directory has no
colon. -/
theorem locate_find {p : Str} (hp : w.path = some p) (hcolon : ':' ∉ w.cwd.1)
    (hshort : ∀ d ∈ searchDirs w p, (d ++ '/' :: name).length < 4096) :
    match ((searchDirs w p).map (· ++ '/' :: name)).find? w.isExec with
    | none => locate w [name] = notFound name
    | some x => ∃ t, locate w [name] = x ++ '\n' :: t := by
  have hdirs : ∀ d ∈ searchDirs w p, d ≠ [] ∧ (d ++ '/' :: name).length < 4096 := by
    intro d hd
    refine ⟨?_, hshort d hd⟩
    rw [← splitOn_searchDirs hcolon] at hd
    simpa using (List.mem_filter.mp hd).2
  have hloop := locateIn_find (w := w) hdirs
  have htext := locate_single hp name
  rw [splitOn_searchDirs hcolon] at htext
  cases hf : ((searchDirs w p).map (· ++ '/' :: name)).find? w.isExec with
  | none =>
    rw [hf] at hloop
    dsimp only at hloop
    rw [htext, hloop]
    rfl
  | some x =>
    rw [hf] at hloop
    obtain ⟨t, ht⟩ := hloop
    refine ⟨t, ?_⟩
    rw [htext, ht]
    rfl

end Locate

/-! ### The two agree -/

/-- A line ends at its newline, or at the first one it has itself. -/
theorem firstLine_line (x t : Str) : firstLine (x ++ '\n' :: t) = firstLine x := by
  unfold firstLine
  rw [List.takeWhile_append]
  split
  case isTrue h =>
    have hx : x.takeWhile (· ≠ '\n') = x := (List.takeWhile_prefix _).eq_of_length h
    rw [hx]
    simp
  case isFalse => rfl

theorem firstLine_eq_self {x : Str} (hx : '\n' ∉ x) : firstLine x = x := by
  rw [firstLine, List.takeWhile_eq_self_iff]
  intro c hc
  have hne : c ≠ '\n' := fun e => hx (e ▸ hc)
  simpa using hne

theorem newline_not_mem_firstLine (x : Str) : '\n' ∉ firstLine x := by
  intro h
  simpa using List.mem_takeWhile_imp h

theorem head?_firstLine {x : Str} (hx : x.head? = some '/') : (firstLine x).head? = some '/' := by
  cases x with
  | nil => cases hx
  | cons c x =>
    cases hx
    rfl

section Agree

variable {w : World} {p name : Str}

/-- The search of `execvp`, where the name is not in the working directory: the empty
entries make no difference. -/
theorem execvp_of_absent (hp : w.path = some p) (hx : w.isExec name = false) :
    execvp w name =
      (((p.splitOn ':').filter (· ≠ [])).map (· ++ '/' :: name)).find? w.isExec := by
  rw [execvp, hp, Option.getD_some]
  induction p.splitOn ':' with
  | nil => rfl
  | cons e es ih =>
    rw [List.map_cons, List.find?_cons, List.filter_cons]
    by_cases he : e = []
    · -- `execvp` looks for the name itself
      rw [if_pos he, hx, if_neg (by simp [he])]
      exact ih
    · rw [if_neg he, if_pos (by simpa using he), List.map_cons, List.find?_cons]
      cases w.isExec (e ++ '/' :: name) with
      | true => rfl
      | false => exact ih

/-- A name in the working directory, in the three ways it is written. -/
structure InCwd (fs : Files w) (name : Str) : Prop where
  cwd : fs.file (w.cwd.1 ++ '/' :: name) = fs.file name
  dot : fs.file ('.' :: '/' :: name) = fs.file name
  short : ('.' :: '/' :: name).length < 4096

theorem inCwd (fs : Files w) (hname : name ≠ []) (hslash : '/' ∉ name)
    (hshort : (w.cwd.1 ++ '/' :: name).length < 4096) : InCwd fs name := by
  have hrel : Relative name := ⟨hname, fun h => hslash (List.mem_of_mem_head? h)⟩
  have hcwd : 1 ≤ w.cwd.1.length := List.length_pos_of_ne_nil (cwd_ne_nil w.cwd)
  have hdot : ('.' :: '/' :: name).length < 4096 := by
    simp only [List.length_append, List.length_cons] at hshort ⊢
    omega
  exact ⟨fs.cwd name hrel hshort, fs.dot name hrel hdot, hdot⟩

/-- `run_cmd` on a name: the file in the working directory, or the search. -/
theorem runPath_name (fs : Files w) (hp : w.path = some p) (hslash : '/' ∉ name)
    (hpct : name.head? ≠ some '%') (hin : InCwd fs name) :
    runPath w name = if w.isExec name = true then some ('.' :: '/' :: name)
      else (((p.splitOn ':').filter (· ≠ [])).map (· ++ '/' :: name)).find? w.isExec := by
  have hdot : w.isExec ('.' :: '/' :: name) = w.isExec name := by
    rw [fs.isExec, fs.isExec, hin.dot]
  rw [runPath, if_neg hslash, if_neg hpct]
  simp only [pathBuffer_of_lt hin.short, hdot]
  by_cases hx : w.isExec name = true
  · rw [if_pos hx, if_pos hx]
  · rw [if_neg hx, if_neg hx]
    exact execvp_of_absent hp (Bool.not_eq_true _ ▸ hx)

/-- **The two agree** where the working directory has no colon and nothing has a
newline. -/
theorem predicts (fs : Files w) (hp : w.path = some p) (hname : name ≠ []) (hslash : '/' ∉ name)
    (hpct : name.head? ≠ some '%') (hshort : ∀ d ∈ searchDirs w p, (d ++ '/' :: name).length < 4096)
    (hcolon : ':' ∉ w.cwd.1) (hline : ∀ d ∈ searchDirs w p, '\n' ∉ d ++ '/' :: name) :
    Predicts fs name := by
  have hin := inCwd fs hname hslash (hshort _ List.mem_cons_self)
  have hfind := locate_find hp hcolon hshort
  have hrun := runPath_name fs hp hslash hpct hin
  have hcwd : w.isExec (w.cwd.1 ++ '/' :: name) = w.isExec name := by
    rw [fs.isExec, fs.isExec, hin.cwd]
  -- a path that is found is printed on a line of its own, which is not the message
  have hprint : ∀ d ∈ searchDirs w p, ∀ t, locate w [name] = d ++ '/' :: name ++ '\n' :: t →
      firstLine (locate w [name]) = d ++ '/' :: name ∧ locate w [name] ≠ notFound name := by
    intro d hd t ht
    rw [ht]
    rw [firstLine_line, firstLine_eq_self (hline d hd)]
    refine ⟨rfl, ?_⟩
    intro he
    have hnd : '\n' ∉ d := fun h => hline d hd (List.mem_append_left _ h)
    have happ : notFound name ++ [] = d ++ '/' :: name ++ '\n' :: t := by
      rw [List.append_nil]
      exact he.symm
    exact notFound_append_ne hnd happ
  rw [searchDirs, List.map_cons, List.find?_cons, hcwd] at hfind
  -- run from the working directory, or found by both in the same entry of `PATH`
  by_cases hx : w.isExec name = true
  · rw [hx] at hfind
    rw [if_pos hx] at hrun
    obtain ⟨t, ht⟩ := hfind
    obtain ⟨hfirst, hmsg⟩ := hprint w.cwd.1 List.mem_cons_self t ht
    refine ⟨⟨fun h => ?_, fun h => absurd h hmsg⟩, ?_⟩
    · rw [hrun] at h
      cases h
    · intro x hxr
      rw [hrun] at hxr
      cases hxr
      rw [hfirst, hin.cwd, hin.dot]
  · rw [if_neg hx] at hrun
    rw [Bool.not_eq_true] at hx
    rw [hx] at hfind
    dsimp only at hfind
    rw [← hrun] at hfind
    cases hr : runPath w name with
    | none =>
      rw [hr] at hfind
      refine ⟨⟨fun _ => hfind, fun _ => hr⟩, ?_⟩
      intro x h
      rw [hr] at h
      cases h
    | some x =>
      rw [hr] at hfind hrun
      obtain ⟨t, ht⟩ := hfind
      obtain ⟨d, hd, rfl⟩ := List.mem_map.mp (List.mem_of_find?_eq_some hrun.symm)
      obtain ⟨hfirst, hmsg⟩ := hprint d (List.mem_cons_of_mem _ hd) t ht
      refine ⟨⟨fun h => ?_, fun h => absurd h hmsg⟩, ?_⟩
      · rw [hr] at h
        cases h
      · intro x hxr
        rw [hr] at hxr
        cases hxr
        rw [hfirst]

end Agree

/-! ### Files for which they do not -/

/-- A path without the `./` in front of it. -/
def stripDots : Str → Str
  | '.' :: '/' :: r => if Relative r then stripDots r else '.' :: '/' :: r
  | x => x

/-- A path as it is written from the working directory. -/
def fromCwd (cwd x : Str) : Str :=
  if (cwd ++ ['/']) <+: x ∧ Relative (x.drop (cwd.length + 1)) then
    stripDots (x.drop (cwd.length + 1))
  else stripDots x

theorem stripDots_dot {r : Str} (h : Relative r) : stripDots ('.' :: '/' :: r) = stripDots r :=
  if_pos h

theorem stripDots_of_ne {x : Str} (h : ∀ r, x ≠ '.' :: '/' :: r) : stripDots x = x := by
  unfold stripDots
  split
  case h_1 r => exact absurd rfl (h r)
  case h_2 => rfl

theorem mem_of_mem_stripDots {c : Char} {x : Str} (h : c ∈ stripDots x) : c ∈ x := by
  fun_induction stripDots x with
  | case1 r hr ih => exact List.mem_cons_of_mem _ (List.mem_cons_of_mem _ (ih h))
  | case2 => exact h
  | case3 => exact h

theorem newline_mem_stripDots {x : Str} (h : '\n' ∈ x) : '\n' ∈ stripDots x := by
  fun_induction stripDots x with
  | case1 r hr ih =>
    refine ih ?_
    rw [List.mem_cons, List.mem_cons] at h
    rcases h with h | h | h
    · exact absurd h (by decide)
    · exact absurd h (by decide)
    · exact h
  | case2 => exact h
  | case3 => exact h

section FromCwd

variable {cwd x r name : Str}

theorem fromCwd_cwd (h : Relative r) : fromCwd cwd (cwd ++ '/' :: r) = stripDots r := by
  have hdrop : (cwd ++ '/' :: r).drop (cwd.length + 1) = r := by
    rw [← List.singleton_append, ← List.append_assoc]
    exact List.drop_left' (by simp)
  have hpre : (cwd ++ ['/']) <+: cwd ++ '/' :: r := ⟨r, by simp⟩
  rw [fromCwd, hdrop, if_pos ⟨hpre, h⟩]

theorem fromCwd_of_not_below (h : ¬ (cwd ++ ['/']) <+: x) : fromCwd cwd x = stripDots x :=
  if_neg fun hc => h hc.1

/-- A relative path is not one below the working directory as it stands. -/
theorem fromCwd_relative (hcwd : cwd.head? = some '/') (h : Relative r) :
    fromCwd cwd r = stripDots r := by
  refine fromCwd_of_not_below ?_
  rintro ⟨t, rfl⟩
  refine h.2 ?_
  cases cwd with
  | nil => cases hcwd
  | cons c cwd => exact hcwd

theorem stripDots_absolute (hx : x.head? = some '/') : stripDots x = x := by
  refine stripDots_of_ne ?_
  rintro r rfl
  cases hx

theorem stripDots_name (hslash : '/' ∉ name) : stripDots name = name := by
  refine stripDots_of_ne ?_
  rintro r rfl
  exact hslash (by simp)

theorem mem_of_mem_fromCwd {c : Char} (h : c ∈ fromCwd cwd x) : c ∈ x := by
  unfold fromCwd at h
  split at h
  · exact List.mem_of_mem_drop (mem_of_mem_stripDots h)
  · exact mem_of_mem_stripDots h

theorem newline_mem_fromCwd (hcwd : '\n' ∉ cwd) (h : '\n' ∈ x) : '\n' ∈ fromCwd cwd x := by
  unfold fromCwd
  split
  case isTrue hc =>
    obtain ⟨⟨r, rfl⟩, -⟩ := hc
    refine newline_mem_stripDots ?_
    rw [List.drop_left' (by simp)]
    rw [List.mem_append, List.mem_append] at h
    rcases h with (h | h) | h
    · exact absurd h hcwd
    · exact absurd h (by decide)
    · exact h
  case isFalse => exact newline_mem_stripDots h

/-- An absolute path that reads as a name is below the working directory. -/
theorem prefix_of_fromCwd_eq (hx : x.head? = some '/') (hslash : '/' ∉ name)
    (h : fromCwd cwd x = name) : (cwd ++ ['/']) <+: x := by
  by_contra hpre
  rw [fromCwd_of_not_below hpre, stripDots_absolute hx] at h
  exact hslash (h ▸ List.mem_of_mem_head? hx)

end FromCwd

/-- A world whose executables are given by a table of the paths from the working
directory. -/
def World.ofTable (cwd : Home) (p : Str) (table : Str → Option ℕ) : World :=
  .execOnly cwd p fun x => (table (fromCwd cwd.1 x)).isSome

def Files.ofTable (cwd : Home) (p : Str) (table : Str → Option ℕ) : Files (.ofTable cwd p table) where
  file x := table (fromCwd cwd.1 x)
  isExec _ := rfl
  cwd r hr _ := by
    show table (fromCwd cwd.1 (cwd.1 ++ '/' :: r)) = _
    rw [fromCwd_cwd hr, fromCwd_relative cwd.2 hr]
  dot r hr _ := by
    have hdot : Relative ('.' :: '/' :: r) := ⟨by simp, by simp⟩
    rw [fromCwd_relative cwd.2 hdot, fromCwd_relative cwd.2 hr, stripDots_dot hr]

def oneFile (x y : Str) : Option ℕ := if y = x then some 1 else none

def twoFiles (x₁ x₂ y : Str) : Option ℕ := if y = x₁ then some 1 else if y = x₂ then some 2 else none

theorem eq_of_oneFile {x y : Str} {k : ℕ} (h : oneFile x y = some k) : y = x := by
  unfold oneFile at h
  split at h
  case isTrue hy => exact hy
  case isFalse => cases h

theorem eq_of_twoFiles {x₁ x₂ y : Str} (h : twoFiles x₁ x₂ y = some 2) : y = x₂ := by
  unfold twoFiles at h
  split at h
  case isTrue => cases h
  case isFalse =>
    split at h
    case isTrue hy => exact hy
    case isFalse => cases h

section Disagree

variable {cwd : Home} {p name : Str} {table : Str → Option ℕ} (hname : name ≠ [])
  (hslash : '/' ∉ name)

include hname hslash

theorem fromCwd_name : fromCwd cwd.1 name = name := by
  have hrel : Relative name := ⟨hname, fun h => hslash (List.mem_of_mem_head? h)⟩
  rw [fromCwd_relative cwd.2 hrel, stripDots_name hslash]

theorem fromCwd_cwd_name : fromCwd cwd.1 (cwd.1 ++ '/' :: name) = name := by
  have hrel : Relative name := ⟨hname, fun h => hslash (List.mem_of_mem_head? h)⟩
  rw [fromCwd_cwd hrel, stripDots_name hslash]

variable (hpct : name.head? ≠ some '%') (hshort : (cwd.1 ++ '/' :: name).length < 4096)

include hpct hshort

/-- A name that is in the working directory is run from there. -/
theorem runs_in_cwd {k : ℕ} (htable : table name = some k) :
    runPath (.ofTable cwd p table) name = some ('.' :: '/' :: name) ∧
      (Files.ofTable cwd p table).file ('.' :: '/' :: name) = some k := by
  have hin := inCwd (Files.ofTable cwd p table) hname hslash hshort
  have hfile : (Files.ofTable cwd p table).file name = some k := by
    show table (fromCwd cwd.1 name) = some k
    rw [fromCwd_name hname hslash, htable]
  have hexec : (World.ofTable cwd p table).isExec name = true := by
    rw [(Files.ofTable cwd p table).isExec name, hfile]
    rfl
  have hrun := runPath_name (Files.ofTable cwd p table) rfl hslash hpct hin
  rw [if_pos hexec] at hrun
  exact ⟨hrun, hin.dot.trans hfile⟩

/-- A working directory with a colon: the directory before the colon has the name
too. -/
theorem not_predicts_colon (hcolon : ':' ∈ cwd.1) :
    ∃ (w : World) (fs : Files w), w.cwd = cwd ∧ w.path = some p ∧ ¬ Predicts fs name := by
  obtain ⟨a, b, hab, hca⟩ := List.eq_append_cons_of_mem hcolon
  have hhead : a.head? = some '/' := by
    have := cwd.2
    rw [hab] at this
    cases a with
    | nil => cases this
    | cons c a => exact this
  have hane : a ≠ [] := by
    rintro rfl
    cases hhead
  have hhead' : (a ++ '/' :: name).head? = some '/' := by
    rw [List.head?_append_of_ne_nil a hane]
    exact hhead
  have hshort' : (a ++ '/' :: name).length < 4096 := by
    rw [hab] at hshort
    simp only [List.length_append, List.length_cons] at hshort ⊢
    omega
  -- no start of `a/name` is below the working directory
  have hpre : ∀ x, x <+: a ++ '/' :: name → ¬ (cwd.1 ++ ['/']) <+: x := by
    intro x hx hc
    obtain ⟨t, ht⟩ := hc.trans hx
    rw [hab, List.append_assoc, List.append_assoc, List.append_right_inj, List.cons_append] at ht
    exact absurd (List.cons.inj ht).1 (by decide)
  have hne : name ≠ a ++ '/' :: name := fun h => hslash (h ▸ by simp)
  have htable : twoFiles (a ++ '/' :: name) name name = some 2 := by
    rw [twoFiles, if_neg hne, if_pos rfl]
  refine ⟨_, .ofTable cwd p (twoFiles (a ++ '/' :: name) name), rfl, rfl, ?_⟩
  rintro ⟨-, hpred⟩
  obtain ⟨hrun, hfile⟩ := runs_in_cwd hname hslash hpct hshort htable
  have hfirst := hpred _ hrun
  have hexec : (World.ofTable cwd p (twoFiles (a ++ '/' :: name) name)).isExec
      (a ++ '/' :: name) = true := by
    show (twoFiles _ _ (fromCwd cwd.1 (a ++ '/' :: name))).isSome = true
    rw [fromCwd_of_not_below (hpre _ (List.prefix_refl _)), stripDots_absolute hhead', twoFiles,
      if_pos rfl]
    rfl
  have hsplit : cwd.1 ++ ':' :: p = a ++ ':' :: (b ++ ':' :: p) := by
    rw [hab, List.append_assoc, List.cons_append]
  obtain ⟨t, ht⟩ := locate_hit rfl hsplit hca hane hshort' hexec
  rw [ht, firstLine_line, hfile] at hfirst
  have hpath : firstLine (a ++ '/' :: name) <+: a ++ '/' :: name := List.takeWhile_prefix _
  exact hpre _ hpath (prefix_of_fromCwd_eq (head?_firstLine hhead') hslash (eq_of_twoFiles hfirst))

/-- A newline in the working directory or in the name: the line ends there. -/
theorem not_predicts_newline (hcolon : ':' ∉ cwd.1) (hnew : '\n' ∈ cwd.1 ∨ '\n' ∈ name) :
    ∃ (w : World) (fs : Files w), w.cwd = cwd ∧ w.path = some p ∧ ¬ Predicts fs name := by
  have htable : oneFile name name = some 1 := if_pos rfl
  refine ⟨_, .ofTable cwd p (oneFile name), rfl, rfl, ?_⟩
  rintro ⟨-, hpred⟩
  obtain ⟨hrun, hfile⟩ := runs_in_cwd hname hslash hpct hshort htable
  have hfirst := hpred _ hrun
  have hexec : (World.ofTable cwd p (oneFile name)).isExec (cwd.1 ++ '/' :: name) = true := by
    show (oneFile name (fromCwd cwd.1 (cwd.1 ++ '/' :: name))).isSome = true
    rw [fromCwd_cwd_name hname hslash, htable]
    rfl
  have hane : cwd.1 ≠ [] := cwd_ne_nil cwd
  have hhead : (cwd.1 ++ '/' :: name).head? = some '/' := by
    rw [List.head?_append_of_ne_nil _ hane]
    exact cwd.2
  obtain ⟨t, ht⟩ := locate_hit rfl rfl hcolon hane hshort hexec
  rw [ht, firstLine_line, hfile] at hfirst
  have hread : fromCwd cwd.1 (firstLine (cwd.1 ++ '/' :: name)) = name := eq_of_oneFile hfirst
  refine newline_not_mem_firstLine (cwd.1 ++ '/' :: name) ?_
  rcases hnew with hnew | hnew
  · have hpre := prefix_of_fromCwd_eq (head?_firstLine hhead) hslash hread
    exact hpre.subset (List.mem_append_left _ hnew)
  · rw [← hread] at hnew
    exact mem_of_mem_fromCwd hnew

omit hname hslash hpct hshort in
/-- If all files read with a newline and there is one to run, no line names it. -/
theorem not_predicts_of_newline {w : World} {fs : Files w} (hp : w.path = some p)
    (hslash : '/' ∉ name) (hpct : name.head? ≠ some '%') (hin : InCwd fs name) (hn : '\n' ∉ name)
    (hfiles : ∀ x, fs.file x ≠ none → '\n' ∈ x) {e : Str} (he : e ∈ p.splitOn ':') (hne : e ≠ [])
    (hex : fs.file (e ++ '/' :: name) ≠ none) : ¬ Predicts fs name := by
  rintro ⟨-, hpred⟩
  have hsome : ∀ x, w.isExec x = true ↔ fs.file x ≠ none := by
    intro x
    rw [fs.isExec, Option.isSome_iff_ne_none]
  have habs : ¬ w.isExec name = true := fun h => hn (hfiles name ((hsome name).mp h))
  have hrun := runPath_name fs hp hslash hpct hin
  rw [if_neg habs] at hrun
  have hfound : (((p.splitOn ':').filter (· ≠ [])).map (· ++ '/' :: name)).find? w.isExec ≠ none := by
    rw [Ne, List.find?_eq_none]
    intro hall
    have hmem : e ∈ (p.splitOn ':').filter (· ≠ []) := List.mem_filter.mpr ⟨he, decide_eq_true hne⟩
    exact hall _ (List.mem_map.mpr ⟨e, hmem, rfl⟩) ((hsome _).mpr hex)
  obtain ⟨x, hx⟩ := Option.ne_none_iff_exists'.mp hfound
  rw [hx] at hrun
  have hfirst := hpred x hrun
  have hxs := (hsome x).mp (List.find?_some hx)
  rw [← hfirst] at hxs
  exact newline_not_mem_firstLine _ (hfiles _ hxs)

/-- A newline in an entry of `PATH`: the line ends there. -/
theorem not_predicts_path (hcwd : '\n' ∉ cwd.1) (hn : '\n' ∉ name) (hnew : '\n' ∈ p) :
    ∃ (w : World) (fs : Files w), w.cwd = cwd ∧ w.path = some p ∧ ¬ Predicts fs name := by
  obtain ⟨e, he, hnewe⟩ := exists_mem_splitOn (c := ':') (by decide) hnew
  have hread : '\n' ∈ fromCwd cwd.1 (e ++ '/' :: name) :=
    newline_mem_fromCwd hcwd (List.mem_append_left _ hnewe)
  have hin := inCwd (Files.ofTable cwd p (oneFile (fromCwd cwd.1 (e ++ '/' :: name)))) hname hslash
    hshort
  refine ⟨_, _, rfl, rfl, not_predicts_of_newline rfl hslash hpct hin hn ?_ he ?_ ?_⟩
  · intro x hx
    obtain ⟨k, hk⟩ := Option.ne_none_iff_exists'.mp hx
    have hxe : fromCwd cwd.1 x = fromCwd cwd.1 (e ++ '/' :: name) := eq_of_oneFile hk
    rw [← hxe] at hread
    exact mem_of_mem_fromCwd hread
  · exact List.ne_nil_of_mem hnewe
  · show oneFile _ (fromCwd cwd.1 (e ++ '/' :: name)) ≠ none
    rw [oneFile, if_pos rfl]
    simp

end Disagree

/-! ### Exactly when -/

/-- **When `locate` names the file that is run**: for every working directory, every
value of `PATH` and every name that is neither empty nor has a slash or starts
with `%`, as long as the paths are shorter than `PATH_MAX`, `locate` tells what
`run_cmd` does whatever the files are, if and only if the working directory has
no colon and neither it, nor `PATH`, nor the name has a newline. -/
theorem locate_predicts_iff {cwd : Home} {p name : Str} (hname : name ≠ []) (hslash : '/' ∉ name)
    (hpct : name.head? ≠ some '%')
    (hshort : ∀ d ∈ cwd.1 :: p.splitOn ':', (d ++ '/' :: name).length < 4096) :
    (∀ (w : World) (fs : Files w), w.cwd = cwd → w.path = some p → Predicts fs name) ↔
      ':' ∉ cwd.1 ∧ '\n' ∉ cwd.1 ∧ '\n' ∉ p ∧ '\n' ∉ name := by
  have hshort' := hshort cwd.1 List.mem_cons_self
  constructor
  · intro h
    have hall : ¬ ∃ (w : World) (fs : Files w), w.cwd = cwd ∧ w.path = some p ∧
        ¬ Predicts fs name := by
      rintro ⟨w, fs, hw, hp, hnot⟩
      exact hnot (h w fs hw hp)
    have hcolon : ':' ∉ cwd.1 := fun hc => hall (not_predicts_colon hname hslash hpct hshort' hc)
    have hcwd : '\n' ∉ cwd.1 := fun hc =>
      hall (not_predicts_newline hname hslash hpct hshort' hcolon (.inl hc))
    have hn : '\n' ∉ name := fun hc =>
      hall (not_predicts_newline hname hslash hpct hshort' hcolon (.inr hc))
    have hp : '\n' ∉ p := fun hc => hall (not_predicts_path hname hslash hpct hshort' hcwd hn hc)
    exact ⟨hcolon, hcwd, hp, hn⟩
  · rintro ⟨hcolon, hcwd, hnp, hn⟩ w fs rfl hp
    have hdirs : ∀ d ∈ searchDirs w p, d ∈ w.cwd.1 :: p.splitOn ':' := by
      intro d hd
      rcases List.mem_cons.mp hd with rfl | hd
      · exact List.mem_cons_self
      · exact List.mem_cons_of_mem _ (List.mem_filter.mp hd).1
    refine predicts fs hp hname hslash hpct (fun d hd => hshort d (hdirs d hd)) hcolon ?_
    intro d hd
    rw [List.mem_append, List.mem_cons, not_or, not_or]
    refine ⟨?_, by decide, hn⟩
    rcases List.mem_cons.mp (hdirs d hd) with rfl | hd
    · exact hcwd
    · exact fun hm => hnp (mem_of_mem_splitOn hd hm)

/-- A plain working directory and an empty entry in `PATH`. -/
theorem locate_predicts_plain :
    runPath (.ofTable ⟨"/home".toList, rfl⟩ ":/bin".toList (oneFile "/bin/ls".toList)) "ls".toList =
        some "/bin/ls".toList ∧
      Predicts (Files.ofTable ⟨"/home".toList, rfl⟩ ":/bin".toList (oneFile "/bin/ls".toList))
        "ls".toList := by
  have h := (@locate_predicts_iff ⟨"/home".toList, rfl⟩ ":/bin".toList "ls".toList (by decide)
    (by decide) (by decide) (by decide)).mpr (by decide)
  refine ⟨by decide +kernel, h _ _ rfl rfl⟩

/-- In the directory `/a:b` the file `x` is run, and `locate` does not find it. -/
theorem locate_loses_colon :
    runPath (.ofTable ⟨"/a:b".toList, rfl⟩ "/bin".toList (oneFile ['x'])) ['x'] =
        some "./x".toList ∧
      locate (.ofTable ⟨"/a:b".toList, rfl⟩ "/bin".toList (oneFile ['x'])) [['x']] =
        notFound ['x'] := by
  refine ⟨?_, ?_⟩
  · decide +kernel
  · decide +kernel

end Cshell
