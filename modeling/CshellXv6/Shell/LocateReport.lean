/-
When `locate` reports every match once.

`locate` keeps one text for all its names.  Before it adds a path it looks for
the path and a newline anywhere in that text, so that a directory that stands
twice in `PATH` is reported once.  A path that is the end of an earlier line,
as `/bin/ls` is of `/usr/bin/ls`, is passed over as well, and when no path of
a name is left the name is said not to be found.

* `namesText` — the text that is meant;
* `locateIn_eq` — the text of the loop over the directories;
* `locate_text_iff` — exactly when the two are the same.
-/
import CshellXv6.Lib.SeenText
import CshellXv6.Shell.Builtins

namespace Cshell

open Lines SeenText

/-! ### The text that is meant -/

/-- The directories to look in: the working directory, then the entries of `PATH`
that are not empty. -/
def searchDirs (w : World) (p : Str) : List Str := w.cwd.1 :: (p.splitOn ':').filter (· ≠ [])

/-- The paths to report for a name, each at its first place. -/
def matchPaths (w : World) (dirs : List Str) (name : Str) : List Str :=
  ((dirs.map (· ++ '/' :: name)).filter fun x => w.isExec x).eraseDups

def notFound (name : Str) : Str := "locate: command not found (".toList ++ name ++ ")\n".toList

/-- The text for a name. -/
def nameText (w : World) (dirs : List Str) (name : Str) : Str :=
  if matchPaths w dirs name = [] then notFound name else unlines (matchPaths w dirs name)

/-- The text for all names. -/
def namesText (w : World) (dirs names : List Str) : Str := names.flatMap (nameText w dirs)

/-- A path of the result. -/
def line (x : Str) : Str := x ++ ['\n']

/-- No path to report stands, with its newline, in the text that is to stand before
it. -/
def NoEcho (w : World) (dirs names : List Str) : Prop :=
  ∀ pre name post, names = pre ++ name :: post →
    Fresh line (namesText w dirs pre) (matchPaths w dirs name)

/-- No path is cut off by the buffer to the path of an executable. -/
def Uncut (w : World) (dirs names : List Str) : Prop :=
  ∀ name ∈ names, ∀ dir ∈ dirs, w.isExec (pathBuffer (dir ++ '/' :: name)) = true →
    (dir ++ '/' :: name).length < 4096

instance (w : World) (dirs names : List Str) : Decidable (Uncut w dirs names) :=
  inferInstanceAs (Decidable (∀ name ∈ names, ∀ dir ∈ dirs,
    w.isExec (pathBuffer (dir ++ '/' :: name)) = true → (dir ++ '/' :: name).length < 4096))

/-! ### The loops -/

/-- Empty entries are passed over. -/
theorem locateIn_filter (w : World) (name : Str) (dirs : List Str) (r : Str × Bool) :
    locateIn w name dirs r = locateIn w name (dirs.filter (· ≠ [])) r := by
  induction dirs generalizing r with
  | nil => rfl
  | cons dir dirs ih =>
    rw [List.filter_cons]
    by_cases hd : dir = []
    · rw [if_neg (by simp [hd]), locateIn, if_neg fun h => h.1 hd]
      exact ih _
    · rw [if_pos (by simp [hd]), locateIn, locateIn]
      split
      · exact ih _
      · exact ih _

theorem locateNames_filter (w : World) (dirs names : List Str) (res : Str) :
    locateNames w dirs names res = locateNames w (dirs.filter (· ≠ [])) names res := by
  induction names generalizing res with
  | nil => rfl
  | cons name names ih =>
    rw [locateNames, locateNames, ← locateIn_filter]
    exact ih _

/-- The message as `locate` puts it together. -/
theorem append_notFound (res name : Str) :
    res ++ "locate: command not found (".toList ++ name ++ ")\n".toList = res ++ notFound name := by
  unfold notFound
  simp only [List.append_assoc]

section Loop

variable {w : World} {dirs : List Str} {name : Str}

/-- The loop over the directories adds the paths that its text does not have. -/
theorem locateIn_addNew (hlong : ∀ x, w.isExec x = true → x.length < 4096) (hne : ∀ d ∈ dirs, d ≠ [])
    (hcut : Uncut w dirs [name]) (res : Str) (exist : Bool) :
    locateIn w name dirs (res, exist) =
      (res ++ unlines (addNew line res ((dirs.map (· ++ '/' :: name)).filter fun x => w.isExec x)),
        exist || !(addNew line res
          ((dirs.map (· ++ '/' :: name)).filter fun x => w.isExec x)).isEmpty) := by
  induction dirs generalizing res exist with
  | nil => simp [locateIn, addNew]
  | cons dir dirs ih =>
    have htail : Uncut w dirs [name] := fun n hn d hd => hcut n hn d (List.mem_cons_of_mem dir hd)
    have hne' : ∀ d ∈ dirs, d ≠ [] := fun d hd => hne d (List.mem_cons_of_mem dir hd)
    have hexec : w.isExec (pathBuffer (dir ++ '/' :: name)) = true ↔
        w.isExec (dir ++ '/' :: name) = true := by
      constructor
      · intro h
        have hlt := hcut name List.mem_cons_self dir List.mem_cons_self h
        rwa [pathBuffer_of_lt hlt] at h
      · intro h
        rwa [pathBuffer_of_lt (hlong _ h)]
    rw [locateIn, List.map_cons, List.filter_cons]
    -- not there, there and seen, or there and new
    by_cases hx : w.isExec (dir ++ '/' :: name) = true
    · have hbuf := pathBuffer_of_lt (hlong _ hx)
      rw [if_pos hx, addNew]
      by_cases hin : line (dir ++ '/' :: name) <:+: res
      · rw [if_pos hin, if_neg fun h => h.2.2 (by rw [hbuf]; exact hin)]
        exact ih hne' htail res exist
      · rw [if_neg hin, if_pos ⟨hne dir List.mem_cons_self, hexec.mpr hx, by rw [hbuf]; exact hin⟩,
          hbuf, ih hne' htail]
        simp [line]
    · rw [if_neg hx, if_neg fun h => hx (hexec.mp h.2.1)]
      exact ih hne' htail res exist

/-- The paths that `locate` adds for a name to the text so far. -/
def heard (w : World) (dirs : List Str) (name res : Str) : List Str :=
  addNew line res (matchPaths w dirs name)

/-- What `locate` adds for a name to the text so far. -/
def answer (w : World) (dirs : List Str) (name res : Str) : Str :=
  if heard w dirs name res = [] then notFound name else unlines (heard w dirs name res)

/-- **The text of the loop over the directories.** -/
theorem locateIn_eq (hlong : ∀ x, w.isExec x = true → x.length < 4096) (hne : ∀ d ∈ dirs, d ≠ [])
    (hcut : Uncut w dirs [name]) (res : Str) :
    locateIn w name dirs (res, false) =
      (res ++ unlines (heard w dirs name res), !(heard w dirs name res).isEmpty) := by
  rw [locateIn_addNew hlong hne hcut, heard, matchPaths, addNew_eraseDups, Bool.false_or]

theorem locateNames_cons {names : List Str} (hlong : ∀ x, w.isExec x = true → x.length < 4096)
    (hne : ∀ d ∈ dirs, d ≠ []) (hcut : Uncut w dirs (name :: names)) (res : Str) :
    locateNames w dirs (name :: names) res =
      locateNames w dirs names (res ++ answer w dirs name res) := by
  have hcut' : Uncut w dirs [name] := fun n hn => hcut n (List.mem_cons.mpr (.inl (by simpa using hn)))
  rw [locateNames, locateIn_eq hlong hne hcut' res]
  refine congrArg (locateNames w dirs names) ?_
  dsimp only
  rw [append_notFound, answer]
  by_cases hh : heard w dirs name res = []
  · have he : ¬ (!(heard w dirs name res).isEmpty) = true := by simpa using hh
    rw [if_pos hh, if_neg he, hh, unlines_nil, List.append_nil]
  · have he : (!(heard w dirs name res).isEmpty) = true := by simpa using hh
    rw [if_pos he, if_neg hh]

end Loop

/-! ### Telling texts apart -/

/-- Lines that are left out leave fewer newlines. -/
theorem count_unlines_sublist {ls ms : List Str} (h : ls.Sublist ms) :
    (unlines ls).count '\n' + ms.length ≤ (unlines ms).count '\n' + ls.length := by
  induction h with
  | slnil => simp
  | cons m _ ih =>
    rw [unlines_cons, List.count_append, List.count_cons_self, List.length_cons]
    omega
  | cons_cons m _ ih =>
    rw [unlines_cons, unlines_cons, List.count_append, List.count_append, List.count_cons_self,
      List.count_cons_self, List.length_cons, List.length_cons]
    omega

/-- A message with the name in brackets never reads like a path of that name,
whatever follows. -/
theorem bracket_append_ne {m e d name x y : Str} (hm : '\n' ∉ m) (hlast : m.getLast? = some '(')
    (he : e = [')', '\n']) (hd : '\n' ∉ d) :
    m ++ name ++ e ++ x ≠ d ++ '/' :: name ++ '\n' :: y := by
  intro h
  rw [he, List.append_assoc _ _ x, List.cons_append, List.singleton_append] at h
  by_cases hn : '\n' ∈ name
  · -- the first line ends inside the name, at the same place on both sides
    obtain ⟨a, b, rfl, ha⟩ := List.eq_append_cons_of_mem hn
    have hcut : (m ++ a) ++ '\n' :: (b ++ ')' :: '\n' :: x) =
        (d ++ '/' :: a) ++ '\n' :: (b ++ '\n' :: y) := by
      simpa only [List.append_assoc, List.cons_append] using h
    have hl : '\n' ∉ m ++ a := by
      rw [List.mem_append, not_or]
      exact ⟨hm, ha⟩
    have hr : '\n' ∉ d ++ '/' :: a := by
      rw [List.mem_append, List.mem_cons, not_or, not_or]
      exact ⟨hd, by decide, ha⟩
    have hline := (append_newline_inj hl hr hcut).1
    have hpre : m = d ++ ['/'] := by
      rw [← List.append_cancel_right_eq m a, hline, List.append_assoc, List.singleton_append]
    rw [hpre, List.getLast?_concat] at hlast
    exact absurd hlast (by decide)
  · have hcut : (m ++ (name ++ [')'])) ++ '\n' :: x = (d ++ '/' :: name) ++ '\n' :: y := by
      rw [← h]
      simp only [List.append_assoc, List.cons_append, List.nil_append]
    have hl : '\n' ∉ m ++ (name ++ [')']) := by
      rw [List.mem_append, List.mem_append, not_or, not_or]
      exact ⟨hm, hn, by decide⟩
    have hr : '\n' ∉ d ++ '/' :: name := by
      rw [List.mem_append, List.mem_cons, not_or, not_or]
      exact ⟨hd, by decide, hn⟩
    have hline := (append_newline_inj hl hr hcut).1
    have hlen : m.length = d.length := by
      have := congrArg List.length hline
      simp only [List.length_append, List.length_cons, List.length_nil] at this
      omega
    -- what is left would give the name one bracket more than it has
    have hname := (List.append_inj hline hlen).2
    have hcount := congrArg (List.count ')') hname
    simp at hcount

section Answer

variable {w : World} {dirs : List Str} {name : Str}

theorem dir_of_mem_matchPaths {x : Str} (h : x ∈ matchPaths w dirs name) :
    ∃ d ∈ dirs, x = d ++ '/' :: name := by
  rw [matchPaths, List.mem_eraseDups] at h
  obtain ⟨d, hd, hx⟩ := List.mem_map.mp (List.mem_filter.mp h).1
  exact ⟨d, hd, hx.symm⟩

theorem count_bracket {m e : Str} (hm : m.count '\n' = 0) (he : e.count '\n' = 1) (name : Str) :
    (m ++ name ++ e).count '\n' = name.count '\n' + 1 := by
  rw [List.count_append, List.count_append, hm, he, Nat.zero_add]

theorem count_notFound (name : Str) : (notFound name).count '\n' = name.count '\n' + 1 :=
  count_bracket (by decide) (by decide) name

theorem notFound_append_ne {d x y : Str} (hd : '\n' ∉ d) :
    notFound name ++ x ≠ d ++ '/' :: name ++ '\n' :: y :=
  bracket_append_ne (by decide) (by decide) (by decide) hd

/-- The newlines of the first path of a name. -/
theorem count_unlines_path {d : Str} {xs : List Str} :
    (unlines ((d ++ '/' :: name) :: xs)).count '\n' =
      d.count '\n' + (name.count '\n' + 1) + (unlines xs).count '\n' := by
  rw [unlines_cons, List.count_append, List.count_append, List.count_cons_self,
    List.count_cons_of_ne (by decide)]
  omega

/-- What `locate` adds for a name has at most the newlines of what is meant. -/
theorem count_answer_le (res : Str) :
    (answer w dirs name res).count '\n' ≤ (nameText w dirs name).count '\n' := by
  have hsub : (heard w dirs name res).Sublist (matchPaths w dirs name) := addNew_sublist res _
  have hcount := count_unlines_sublist hsub
  have hlen := hsub.length_le
  unfold answer nameText
  by_cases hm : matchPaths w dirs name = []
  · rw [hm, List.sublist_nil] at hsub
    rw [if_pos hsub, if_pos hm]
  · rw [if_neg hm]
    by_cases hh : heard w dirs name res = []
    · obtain ⟨x, xs, hx⟩ := List.exists_cons_of_ne_nil hm
      obtain ⟨d, -, rfl⟩ := dir_of_mem_matchPaths (by rw [hx]; exact List.mem_cons_self)
      rw [if_pos hh, hx, count_notFound, count_unlines_path]
      omega
    · rw [if_neg hh]
      omega

/-- If the texts agree from here on, every path of the name was added. -/
theorem heard_of_append {res x y : Str}
    (h : answer w dirs name res ++ x = nameText w dirs name ++ y)
    (hle : x.count '\n' ≤ y.count '\n') : heard w dirs name res = matchPaths w dirs name := by
  have hsub : (heard w dirs name res).Sublist (matchPaths w dirs name) := addNew_sublist res _
  have hcount := congrArg (List.count '\n') h
  rw [List.count_append, List.count_append] at hcount
  refine hsub.eq_of_length_le ?_
  by_contra hlt
  rw [not_le] at hlt
  -- a path was passed over: there are newlines missing, unless all were
  have hm : matchPaths w dirs name ≠ [] := by
    intro e
    simp [e] at hlt
  rw [nameText, if_neg hm] at h hcount
  by_cases hh : heard w dirs name res = []
  · -- the message stands for a single path, whose directory has no newline
    obtain ⟨z, zs, hz⟩ := List.exists_cons_of_ne_nil hm
    obtain ⟨d, -, rfl⟩ := dir_of_mem_matchPaths (by rw [hz]; exact List.mem_cons_self)
    rw [answer, if_pos hh, hz, count_notFound, count_unlines_path] at hcount
    have hd : '\n' ∉ d := by
      rw [← List.count_eq_zero]
      omega
    rw [answer, if_pos hh, hz, unlines_cons, List.append_assoc, List.cons_append] at h
    exact notFound_append_ne hd h
  · rw [answer, if_neg hh] at hcount
    have := count_unlines_sublist hsub
    omega

end Answer

/-! ### The whole text -/

section Names

variable {w : World} {dirs : List Str} (hlong : ∀ x, w.isExec x = true → x.length < 4096)
  (hne : ∀ d ∈ dirs, d ≠ [])

include hlong hne

/-- The text only grows, by at most the newlines that are meant. -/
theorem locateNames_grows {names : List Str} (hcut : Uncut w dirs names) (res : Str) :
    ∃ x, locateNames w dirs names res = res ++ x ∧
      x.count '\n' ≤ (namesText w dirs names).count '\n' := by
  induction names generalizing res with
  | nil => exact ⟨[], by simp [locateNames], by simp⟩
  | cons name names ih =>
    obtain ⟨x, hx, hle⟩ := ih (fun n hn => hcut n (List.mem_cons_of_mem name hn))
      (res ++ answer w dirs name res)
    refine ⟨answer w dirs name res ++ x, ?_, ?_⟩
    · rw [locateNames_cons hlong hne hcut, hx, List.append_assoc]
    · have := @count_answer_le w dirs name res
      rw [namesText, List.flatMap_cons, List.count_append, List.count_append]
      exact Nat.add_le_add this hle

theorem locateNames_iff {names : List Str} (hcut : Uncut w dirs names) (res : Str) :
    locateNames w dirs names res = res ++ namesText w dirs names ↔
      ∀ pre name post, names = pre ++ name :: post →
        Fresh line (res ++ namesText w dirs pre) (matchPaths w dirs name) := by
  induction names generalizing res with
  | nil =>
    refine ⟨?_, fun _ => by simp [locateNames, namesText]⟩
    intro _ pre name post h
    cases pre <;> cases h
  | cons name names ih =>
    have hcut' : Uncut w dirs names := fun n hn => hcut n (List.mem_cons_of_mem name hn)
    rw [forall_split_cons, locateNames_cons hlong hne hcut]
    have hnil : namesText w dirs [] = [] := rfl
    have hcons : ∀ l, namesText w dirs (name :: l) = nameText w dirs name ++ namesText w dirs l :=
      fun _ => rfl
    simp only [hnil, hcons, List.append_nil, ← List.append_assoc]
    rw [← addNew_eq_self_iff]
    change _ ↔ heard w dirs name res = matchPaths w dirs name ∧ _
    constructor
    · -- what follows cannot make up for a name whose text is wrong
      intro h
      obtain ⟨x, hx, hle⟩ := locateNames_grows hlong hne hcut' (res ++ answer w dirs name res)
      have hh : heard w dirs name res = matchPaths w dirs name := by
        rw [hx, List.append_assoc, List.append_assoc] at h
        exact heard_of_append (List.append_cancel_left h) hle
      have hans : answer w dirs name res = nameText w dirs name := by rw [answer, nameText, hh]
      rw [hans] at h
      exact ⟨hh, (ih hcut' _).mp h⟩
    · rintro ⟨hh, hrest⟩
      have hans : answer w dirs name res = nameText w dirs name := by rw [answer, nameText, hh]
      rw [hans]
      exact (ih hcut' _).mpr hrest

end Names

theorem cwd_ne_nil (cwd : Home) : cwd.1 ≠ [] := by
  intro e
  have := cwd.2
  rw [e] at this
  cases this

/-- The directories that `locate` reads off the text it splits. -/
theorem splitOn_searchDirs {w : World} (hcolon : ':' ∉ w.cwd.1) (p : Str) :
    ((w.cwd.1 ++ ':' :: p).splitOn ':').filter (· ≠ []) = searchDirs w p := by
  have hne : decide (w.cwd.1 ≠ []) = true := decide_eq_true (cwd_ne_nil w.cwd)
  rw [List.splitOn_append_cons_self_of_not_mem hcolon, List.filter_cons, if_pos hne]
  rfl

/-- **When `locate` reports every match once**: for every `PATH`, every working
directory without a colon, all files and all names, as long as no path is cut
off by the buffer to the path of an executable, the text is the one that is
meant if and only if no path to report stands, with its newline, in the text
before it. -/
theorem locate_text_iff {w : World} {p : Str} {names : List Str}
    (hlong : ∀ x, w.isExec x = true → x.length < 4096) (hcolon : ':' ∉ w.cwd.1)
    (hp : w.path = some p) (hcut : Uncut w (searchDirs w p) names) :
    locate w names = namesText w (searchDirs w p) names ↔ NoEcho w (searchDirs w p) names := by
  have hne : ∀ d ∈ searchDirs w p, d ≠ [] := by
    intro d hd
    rw [← splitOn_searchDirs hcolon] at hd
    simpa using (List.mem_filter.mp hd).2
  have hiff := locateNames_iff hlong hne hcut []
  simp only [List.nil_append] at hiff
  have htext : locate w names = locateNames w (searchDirs w p) names [] := by
    simp only [locate, hp]
    rw [locateNames_filter, splitOn_searchDirs hcolon]
  rw [htext]
  exact hiff

/-- A file system with executables and nothing else. -/
def World.execOnly (cwd : Home) (path : Str) (isExec : Str → Bool) : World where
  scandir _ := none
  isDir _ := false
  contents _ := none
  isExec := isExec
  cwd := cwd
  path := some path
  stdin := []
  names := names_of_none

/-- Two names, the first in two directories. -/
theorem locate_text_two_names :
    locate (.execOnly ⟨"/".toList, rfl⟩ "/bin::/opt/b".toList
        (· ∈ ["/bin/ls".toList, "/opt/b/ls".toList])) ["ls".toList, "vi".toList] =
      "/bin/ls\n/opt/b/ls\nlocate: command not found (vi)\n".toList ∧
      NoEcho (.execOnly ⟨"/".toList, rfl⟩ "/bin::/opt/b".toList
        (· ∈ ["/bin/ls".toList, "/opt/b/ls".toList])) ["/".toList, "/bin".toList, "/opt/b".toList]
        ["ls".toList, "vi".toList] := by
  refine ⟨by decide +kernel, (locate_text_iff (p := "/bin::/opt/b".toList) ?_ ?_ rfl ?_).mp ?_⟩
  · intro x hx
    have hall : ∀ y ∈ ["/bin/ls".toList, "/opt/b/ls".toList], y.length < 4096 := by decide
    exact hall x (of_decide_eq_true hx)
  · decide
  · decide +kernel
  · decide +kernel

/-- `/bin/ls` is passed over because `/usr/bin/ls` ends in it. -/
theorem locate_skips_suffix :
    locate (.execOnly ⟨"/".toList, rfl⟩ "/usr/bin:/bin".toList
        (· ∈ ["/usr/bin/ls".toList, "/bin/ls".toList])) ["ls".toList] = "/usr/bin/ls\n".toList ∧
      namesText (.execOnly ⟨"/".toList, rfl⟩ "/usr/bin:/bin".toList
        (· ∈ ["/usr/bin/ls".toList, "/bin/ls".toList]))
        (searchDirs (.execOnly ⟨"/".toList, rfl⟩ "/usr/bin:/bin".toList
          (· ∈ ["/usr/bin/ls".toList, "/bin/ls".toList])) "/usr/bin:/bin".toList) ["ls".toList] =
        "/usr/bin/ls\n/bin/ls\n".toList := by
  refine ⟨?_, ?_⟩
  · decide +kernel
  · decide +kernel

end Cshell
