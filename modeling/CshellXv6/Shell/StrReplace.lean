/-
`str_replace` and its two uses in `c-shell/src/main.c`.

`getpwd` shows the working directory with the home directory written as `~`,
and `process_cmd` writes the home directory for a `~` in front of an argument.
Both call `str_replace`, which looks for a text anywhere in the string and
replaces it for as long as it is found at the very start.  It goes by
characters: a directory whose name only starts with that of the home directory
is abbreviated as well.

* `strReplace_once` — a replacement that does not start like the text it is for
  is made once;
* `strReplace_expand` — the expansion of `~` is `expand`;
* `getpwd_iff` — exactly when `getpwd` shows the path that is meant;
* `expand_abbreviated` — expanding what `getpwd` shows gives the directory back.
-/
import CshellXv6.Shell.Redirect

namespace Cshell

/-- `strstr(s, p)`, as an offset into `s`. -/
def strstr (p : Str) : Str → Option ℕ
  | [] => if p = [] then some 0 else none
  | c :: cs => if p <+: c :: cs then some 0 else (strstr p cs).map (· + 1)

/-- The loop of `str_replace(old, sstr, new)`; `none` when it is not through after
`fuel` turns. -/
def strReplaceLoop (sstr new : Str) : ℕ → Str → Option Str
  | 0, _ => none
  | fuel + 1, old =>
    match strstr sstr old with
    | some 0 => strReplaceLoop sstr new fuel (new ++ old.drop sstr.length)
    | _ => some old

/-- `str_replace(old, sstr, new)`. -/
def strReplace (fuel : ℕ) (old sstr new : Str) : Option Str :=
  -- a text that is nowhere in `old` is not at its start either
  match strstr sstr old with
  | none => some old
  | some _ => strReplaceLoop sstr new fuel old

/-- `getpwd`, with `cwd` what `getcwd` gives. -/
def getpwd (fuel : ℕ) (home cwd : Str) : Option Str := strReplace fuel cwd home ['~']

/-- A text is found at the start if it stands there. -/
theorem strstr_eq_zero {p s : Str} : strstr p s = some 0 ↔ p <+: s := by
  cases s with
  | nil => simp [strstr]
  | cons c cs => simp [strstr]

theorem strReplaceLoop_stop {sstr old : Str} (h : ¬ sstr <+: old) (new : Str) (fuel : ℕ) :
    strReplaceLoop sstr new (fuel + 1) old = some old := by
  rw [strReplaceLoop]
  split
  case h_1 h0 => exact absurd (strstr_eq_zero.mp h0) h
  case h_2 => rfl

theorem strReplace_stop {sstr old : Str} (h : ¬ sstr <+: old) (new : Str) (fuel : ℕ) :
    strReplace (fuel + 1) old sstr new = some old := by
  rw [strReplace]
  split
  · rfl
  · exact strReplaceLoop_stop h new fuel

/-- A replacement after which the text is not at the start again is made once. -/
theorem strReplace_once {sstr new rest : Str} (h : ¬ sstr <+: new ++ rest) (fuel : ℕ) :
    strReplace (fuel + 2) (sstr ++ rest) sstr new = some (new ++ rest) := by
  have hstart : strstr sstr (sstr ++ rest) = some 0 :=
    strstr_eq_zero.mpr (List.prefix_append sstr rest)
  rw [strReplace, hstart]
  show strReplaceLoop sstr new (fuel + 2) (sstr ++ rest) = _
  rw [strReplaceLoop, hstart]
  show strReplaceLoop sstr new (fuel + 1) (new ++ (sstr ++ rest).drop sstr.length) = _
  rw [List.drop_left, strReplaceLoop_stop h]

/-- Texts that start with different characters. -/
theorem not_prefix_of_head {p s : Str} {c d : Char} (hp : p.head? = some c) (hs : s.head? = some d)
    (hne : c ≠ d) : ¬ p <+: s := by
  rintro ⟨t, rfl⟩
  cases p with
  | nil => cases hp
  | cons x xs =>
    simp only [List.head?_cons, List.cons_append, Option.some_inj] at hp hs
    exact hne (hp.symm.trans hs)

/-! ### Expansion -/

theorem head?_append_home (home : Home) (s : Str) : (home.1 ++ s).head? = some '/' := by
  rw [List.head?_append, home.2]
  rfl

/-- **The expansion of `~`**: the loop ends, and the first character is replaced if
it is a `~`. -/
theorem strReplace_expand (home : Home) (text : Str) (fuel : ℕ) :
    strReplace (fuel + 2) text ['~'] home.1 = some (expand home text) := by
  cases text with
  | nil => exact strReplace_stop (by simp) _ _
  | cons c cs =>
    by_cases hc : c = '~'
    · subst hc
      have hstop : ¬ ['~'] <+: home.1 ++ cs :=
        not_prefix_of_head rfl (head?_append_home home cs) (by decide)
      exact @strReplace_once ['~'] home.1 cs hstop fuel
    · have hstop : ¬ ['~'] <+: c :: cs :=
        not_prefix_of_head rfl rfl (Ne.symm hc)
      have hexp : expand home (c :: cs) = c :: cs := if_neg (by simpa using hc)
      rw [hexp]
      exact strReplace_stop hstop _ _

/-! ### Abbreviation -/

/-- A directory that starts with the home directory, character by character. -/
theorem getpwd_append (home : Home) (rest : Str) (fuel : ℕ) :
    getpwd (fuel + 2) home.1 (home.1 ++ rest) = some ('~' :: rest) :=
  strReplace_once (not_prefix_of_head home.2 rfl (by decide)) fuel

theorem getpwd_of_not_starts {home : Home} {cwd : Str} (h : ¬ home.1 <+: cwd) (fuel : ℕ) :
    getpwd (fuel + 2) home.1 cwd = some cwd :=
  strReplace_stop h _ _

/-- The directory is the home directory or lies below it. -/
def Within (home cwd : Str) : Prop := cwd = home ∨ home ++ ['/'] <+: cwd

instance (home cwd : Str) : Decidable (Within home cwd) := inferInstanceAs (Decidable (_ ∨ _))

/-- The path that is meant to be shown. -/
def shownPath (home cwd : Str) : Str :=
  if Within home cwd then '~' :: cwd.drop home.length else cwd

theorem Within.starts {home cwd : Str} (h : Within home cwd) : home <+: cwd := by
  rcases h with rfl | h
  · exact List.prefix_refl _
  · exact (List.prefix_append _ _).trans h

/-- What follows the home directory decides whether the directory lies below it. -/
theorem within_append {home : Str} {c : Char} {rest : Str} :
    Within home (home ++ c :: rest) ↔ c = '/' := by
  rw [Within, List.append_right_eq_self, List.prefix_append_right_inj]
  simp [eq_comm]

/-- **When `getpwd` shows the path that is meant**: for every home directory and
working directory, `~` and the rest for a directory that is the home directory or
lies below it, and the directory itself otherwise, if and only if what follows
the home directory at the start of the working directory is a `/`. -/
theorem getpwd_iff (home cwd : Home) :
    (∀ fuel, getpwd (fuel + 2) home.1 cwd.1 = some (shownPath home.1 cwd.1)) ↔
      ∀ c rest, cwd.1 = home.1 ++ c :: rest → c = '/' := by
  constructor
  · intro h c rest hcwd
    by_contra hc
    -- the code writes a `~` where the directory itself is meant
    have hshown : shownPath home.1 cwd.1 = cwd.1 := by
      rw [shownPath, hcwd, if_neg (fun hw => hc (within_append.mp hw))]
    have hcode := h 0
    rw [hshown, hcwd, getpwd_append, Option.some_inj] at hcode
    have hhead := head?_append_home home (c :: rest)
    rw [← hcode] at hhead
    cases hhead
  · intro h fuel
    by_cases hpre : home.1 <+: cwd.1
    · obtain ⟨rest, hcwd⟩ := hpre
      have hwithin : Within home.1 cwd.1 := by
        cases rest with
        | nil => exact .inl (by rw [← hcwd, List.append_nil])
        | cons c rest =>
          rw [← hcwd]
          exact within_append.mpr (h c rest hcwd.symm)
      rw [shownPath, if_pos hwithin, ← hcwd, getpwd_append, List.drop_left]
    · rw [shownPath, if_neg (fun hw => hpre hw.starts), getpwd_of_not_starts hpre]

/-- The home directory `/home/u` and the directory `/home/ux` of somebody else. -/
theorem getpwd_cuts_name :
    getpwd 2 "/home/u".toList "/home/ux".toList = some "~x".toList ∧
      getpwd 2 "/home/u".toList "/home/ux".toList ≠
        some (shownPath "/home/u".toList "/home/ux".toList) := by
  decide

/-! ### There and back -/

/-- **Expansion undoes abbreviation**: for every home directory and working
directory both loops end, the expanded abbreviation is the working directory,
and the expansion of a text replaces a leading `~`, once, and nothing else. -/
theorem expand_abbreviated (home cwd : Home) :
    (∃ abbr, (∀ fuel, strReplace (fuel + 2) cwd.1 home.1 ['~'] = some abbr) ∧
      ∀ fuel, strReplace (fuel + 2) abbr ['~'] home.1 = some cwd.1) ∧
    (∀ t fuel, strReplace (fuel + 2) ('~' :: t) ['~'] home.1 = some (home.1 ++ t)) ∧
    ∀ text fuel, strReplace (fuel + 2) text ['~'] home.1 = some (expand home text) := by
  refine ⟨?_, ?_, strReplace_expand home⟩
  · by_cases hpre : home.1 <+: cwd.1
    · obtain ⟨rest, hcwd⟩ := hpre
      refine ⟨'~' :: rest, ?_, ?_⟩
      · intro fuel
        rw [← hcwd]
        exact getpwd_append home rest fuel
      · intro fuel
        rw [strReplace_expand, ← hcwd]
        rfl
    · refine ⟨cwd.1, getpwd_of_not_starts hpre, ?_⟩
      intro fuel
      have hexp : expand home cwd.1 = cwd.1 := if_neg (by rw [cwd.2]; decide)
      rw [strReplace_expand, hexp]
  · intro t fuel
    rw [strReplace_expand]
    rfl

end Cshell
