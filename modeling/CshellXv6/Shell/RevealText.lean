/-
What a listing of `reveal` can look like.

A listing is never one of the messages of `reveal`: a space in it stands inside
quotes, comes right before the last newline, or is part of what a call for a
directory below printed, and then there are two newlines.  Two directories
whose entries are printed with their paths look alike only when they show
nothing, as the paths of the one start with `/` and those of the other do not.

* `listing_eq_noSuchDirectory_iff`, `listing_ne_revealSyntax`;
* `listing_eq_iff` — when the working directory and a directory given by an
  absolute path are listed alike;
* `reveal_unknown`, `reveal_known`, `reveal_operands` — a call by its arguments.
-/
import CshellXv6.Shell.Builtins

namespace Cshell

open OptionWords

/-! ### Texts that are no message -/

/-- A space stands beside a quote or two newlines. -/
def Listed (t : Str) : Prop := ' ' ∈ t → '\'' ∈ t ∨ 2 ≤ t.count '\n'

instance (t : Str) : Decidable (Listed t) := inferInstanceAs (Decidable (_ → _))

theorem Listed.append {s t : Str} (hs : Listed s) (ht : Listed t) : Listed (s ++ t) := by
  intro h
  rw [List.count_append, List.mem_append]
  rcases List.mem_append.mp h with h | h
  · rcases hs h with hq | hn
    · exact .inl (.inl hq)
    · exact .inr (by omega)
  · rcases ht h with hq | hn
    · exact .inl (.inr hq)
    · exact .inr (by omega)

theorem Listed.flatMap {l : List Str} {f : Str → Str} (h : ∀ x ∈ l, Listed (f x)) :
    Listed (l.flatMap f) := by
  induction l with
  | nil =>
    intro hs
    simp at hs
  | cons x l ih =>
    rw [List.flatMap_cons]
    exact (h x List.mem_cons_self).append (ih fun y hy => h y (List.mem_cons_of_mem x hy))

theorem mem_intercalate {c x : Char} {ls : List Str} (h : x ∈ [c].intercalate ls) :
    x = c ∨ ∃ l ∈ ls, x ∈ l := by
  induction ls with
  | nil => simp at h
  | cons l ls ih =>
    cases ls with
    | nil => exact .inr ⟨l, List.mem_cons_self, by simpa using h⟩
    | cons m ls =>
      rw [List.intercalate_cons_cons, List.mem_append, List.mem_append] at h
      rcases h with (h | h) | h
      · exact .inr ⟨l, List.mem_cons_self, h⟩
      · exact .inl (List.mem_singleton.mp h)
      · rcases ih h with h | ⟨y, hy, h⟩
        · exact .inl h
        · exact .inr ⟨y, List.mem_cons_of_mem l hy, h⟩

theorem mem_intercalate_of_mem {c x : Char} {l : Str} {ls : List Str} (hl : l ∈ ls) (hx : x ∈ l) :
    x ∈ [c].intercalate ls := by
  induction ls with
  | nil => simp at hl
  | cons m ls ih =>
    cases ls with
    | nil =>
      obtain rfl : l = m := by simpa using hl
      simpa using hx
    | cons n ls =>
      rw [List.intercalate_cons_cons, List.mem_append, List.mem_append]
      rcases List.mem_cons.mp hl with rfl | hl
      · exact .inl (.inl hx)
      · exact .inr (ih hl)

/-- A segment with a space is in quotes. -/
theorem quote_mem_segments {close path : Str} (h : ' ' ∈ segments close path) :
    '\'' ∈ segments close path := by
  rcases mem_intercalate h with h | ⟨l, hl, h⟩
  · cases h
  · refine mem_intercalate_of_mem hl ?_
    obtain ⟨s, -, rfl⟩ := List.mem_map.mp hl
    split at h
    · rename_i hs
      rw [if_pos hs]
      exact List.mem_cons_self
    · rename_i hs
      exact absurd h hs

theorem listed_of_quote {t : Str} (h : ' ' ∈ t → '\'' ∈ t) : Listed t := fun hs => .inl (h hs)

theorem listed_joinedName (name : Str) : Listed (joinedName name) :=
  listed_of_quote quote_mem_segments

section Listing

variable {w : World} {o : RevealFlags} {plain again : Str → Str} {dir : Str} {names : List Str}

/-- An entry with its path has its newline. -/
theorem newline_mem_entryText {isDir : Bool} {path name : Str} (ho : o.long = true) :
    '\n' ∈ entryText o plain isDir path name := by
  simp [entryText, ho]

theorem listed_entryText {isDir : Bool} {path name : Str}
    (hp : o.long = true ∨ Listed (plain name)) : Listed (entryText o plain isDir path name) := by
  unfold entryText
  split
  · refine Listed.append (Listed.append (listed_of_quote quote_mem_segments) ?_) (by decide)
    split
    · decide
    · decide
  · rename_i ho
    exact hp.resolve_left ho

/-- The entry and what the call for it prints. -/
theorem listed_entries (hp : o.long = true ∨ ∀ name, Listed (plain name))
    (hagain : ∀ path, again path = [] ∨ '\n' ∈ again path) :
    Listed (entries w o plain again dir names) := by
  refine Listed.flatMap fun name _ => ?_
  dsimp only
  have he : Listed (entryText o plain (w.isDir (entryPath dir name)) (entryPath dir name) name) :=
    listed_entryText (hp.imp_right fun h => h name)
  split
  · rename_i hr
    have ho : o.long = true := by
      rw [RevealFlags.long, (Bool.and_eq_true_iff.mp hr).1, Bool.true_or]
    rcases hagain (entryPath dir name) with ha | ha
    · rw [ha, List.append_nil]
      exact he
    · -- a newline of the entry and one of the call
      intro _
      right
      have h₁ : 0 < (entryText o plain (w.isDir (entryPath dir name)) (entryPath dir name)
          name).count '\n' := List.count_pos_iff.mpr (newline_mem_entryText ho)
      have h₂ : 0 < (again (entryPath dir name)).count '\n' := List.count_pos_iff.mpr ha
      rw [List.count_append]
      omega
  · rw [List.append_nil]
    exact he

/-- The text of a listing that is not empty has a newline. -/
theorem newline_mem_listing :
    listing w o plain again dir = [] ∨ '\n' ∈ listing w o plain again dir := by
  unfold listing
  split
  · exact .inr (by decide)
  · rename_i names _
    by_cases ho : o.long = true
    · rw [if_pos ho, List.append_nil, entries]
      cases o.shown names with
      | nil => exact .inl rfl
      | cons x xs =>
        rw [List.flatMap_cons]
        exact .inr (List.mem_append_left _ (List.mem_append_left _ (newline_mem_entryText ho)))
    · rw [if_neg ho]
      exact .inr (List.mem_append_right _ (List.mem_singleton_self '\n'))

end Listing

theorem newline_mem_reveal (w : World) (depth : ℕ) (args : List Str) :
    reveal w depth args = [] ∨ '\n' ∈ reveal w depth args := by
  cases depth with
  | zero => exact .inl rfl
  | succ depth =>
    rw [reveal]
    split
    · exact .inr (by simp [invalidOption])
    · split
      · exact .inr (by decide)
      · exact .inr (by decide)
      · exact newline_mem_listing
      · dsimp only
        split
        · exact newline_mem_listing
        · exact newline_mem_listing
        · exact .inr (by decide)

/-! ### Listings and messages -/

section Messages

variable {w : World} {o : RevealFlags} {plain again : Str → Str} {dir : Str} {names : List Str}

theorem listed_listing (h : w.scandir dir = some names)
    (hp : o.long = true ∨ ∀ name, Listed (plain name))
    (hagain : ∀ path, again path = [] ∨ '\n' ∈ again path) :
    Listed (listing w o plain again dir) := by
  rw [listing, h]
  refine (listed_entries hp hagain).append ?_
  split
  · decide
  · decide

/-- The short listing of a call with one argument. -/
theorem listing_short (h : w.scandir dir = some names) (ho : o.long = false) :
    listing w o plain again dir =
      (o.shown names).flatMap plain ++ ['\n'] := by
  have hr : o.recurse = false := by
    rw [RevealFlags.long, Bool.or_eq_false_iff] at ho
    exact ho.1
  simp [listing, h, entries, entryText, ho, hr]

/-- It ends in a space and a newline, or is the newline alone. -/
theorem spaced_ne_noSuchDirectory (xs : List Str) :
    xs.flatMap spacedName ++ ['\n'] ≠ noSuchDirectory := by
  intro h
  have hlast : (xs.flatMap spacedName).getLast? = some 'y' := by
    have hd := congrArg (fun t => t.dropLast.getLast?) h
    rw [List.dropLast_concat] at hd
    rw [hd]
    decide
  rcases List.eq_nil_or_concat xs with rfl | ⟨ys, x, rfl⟩
  · simp at hlast
  · have hx : (spacedName x).getLast? = some ' ' := by
      unfold spacedName
      split
      · have hq : '\'' :: x ++ "' ".toList = ('\'' :: x ++ ['\'']) ++ [' '] := by simp
        rw [hq, List.getLast?_concat]
      · exact List.getLast?_concat
    have hne : spacedName x ≠ [] := by
      intro he
      simp [he] at hx
    rw [List.concat_eq_append, List.flatMap_append, List.flatMap_singleton,
      List.getLast?_append_of_ne_nil _ hne, hx] at hlast
    simp at hlast

/-- Only a directory that cannot be read gives the message. -/
theorem listing_eq_noSuchDirectory_iff (hp : plain = spacedName ∨ plain = joinedName)
    (hagain : ∀ path, again path = [] ∨ '\n' ∈ again path) :
    listing w o plain again dir = noSuchDirectory ↔ w.scandir dir = none := by
  cases hs : w.scandir dir with
  | none => simp [listing, hs]
  | some names =>
    simp only [reduceCtorEq, iff_false]
    intro h
    by_cases ho : o.long = true
    · exact absurd (h ▸ listed_listing hs (.inl ho) hagain) (by decide)
    · rcases hp with rfl | rfl
      · rw [listing_short hs (by simpa using ho)] at h
        exact spaced_ne_noSuchDirectory _ h
      · exact absurd (h ▸ listed_listing hs (.inr listed_joinedName) hagain) (by decide)

theorem listing_ne_revealSyntax (hagain : ∀ path, again path = [] ∨ '\n' ∈ again path) :
    listing w o joinedName again dir ≠ revealSyntax := by
  intro h
  cases hs : w.scandir dir with
  | none =>
    rw [listing, hs] at h
    change noSuchDirectory = revealSyntax at h
    exact absurd h (by decide)
  | some names => exact absurd (h ▸ listed_listing hs (.inr listed_joinedName) hagain) (by decide)

end Messages

/-! ### Two directories -/

theorem head_segments_slash {close path : Str} (h : path.head? = some '/') :
    (segments close path).head? = some '/' := by
  obtain ⟨rest, rfl⟩ : ∃ rest, path = '/' :: rest := ⟨path.tail, List.eq_cons_of_mem_head? h⟩
  obtain ⟨p, ps, hp⟩ := List.exists_cons_of_ne_nil (List.splitOn_ne_nil '/' rest)
  have hs : ('/' :: rest).splitOn '/' = [] :: p :: ps := by
    rw [List.splitOn_cons_eq_if_modifyHead, if_pos (by simp), hp]
  simp [segments, hs]

theorem head_segments_name {close path : Str} (hne : path ≠ []) (h : '/' ∉ path) :
    ∃ c, (segments close path).head? = some c ∧ c ≠ '/' := by
  obtain ⟨a, rest, rfl⟩ := List.exists_cons_of_ne_nil hne
  have ha : a ≠ '/' := fun e => h (e ▸ List.mem_cons_self)
  rw [segments, List.splitOn_eq_singleton h, List.map_singleton, List.intercalate_singleton]
  split
  · exact ⟨'\'', rfl, by decide⟩
  · exact ⟨a, rfl, ha⟩

theorem entryPath_dot {name : Str} (h : LegalName name) :
    entryPath ['.'] name ≠ [] ∧ '/' ∉ entryPath ['.'] name := by
  rw [entryPath, if_pos rfl, pathBuffer]
  refine ⟨?_, fun hm => h.2.1 (List.mem_of_mem_take hm)⟩
  obtain ⟨a, rest, rfl⟩ := List.exists_cons_of_ne_nil h.1
  simp

theorem head_entryPath {dir : Str} (name : Str) (h : dir.head? = some '/') :
    (entryPath dir name).head? = some '/' := by
  obtain ⟨rest, rfl⟩ : ∃ rest, dir = '/' :: rest := ⟨dir.tail, List.eq_cons_of_mem_head? h⟩
  rw [entryPath, if_neg (by simp), pathBuffer]
  split <;> rfl

section Directories

variable {w : World} {o : RevealFlags} {plain again again' : Str → Str} {dir : Str}
  {names : List Str}

/-- With paths, the text starts as the first path shown. -/
theorem head_entries {P : Char → Prop} (ho : o.long = true) (hne : o.shown names ≠ [])
    (h : ∀ name ∈ names, ∃ c, (segments ['\''] (entryPath dir name)).head? = some c ∧ P c) :
    ∃ c, (entries w o plain again dir names).head? = some c ∧ P c := by
  obtain ⟨x, xs, hx⟩ := List.exists_cons_of_ne_nil hne
  have hmem : x ∈ names := List.mem_of_mem_filter (hx ▸ List.mem_cons_self : x ∈ o.shown names)
  obtain ⟨c, hc, hP⟩ := h x hmem
  refine ⟨c, ?_, hP⟩
  obtain ⟨rest, hrest⟩ : ∃ rest, segments ['\''] (entryPath dir x) = c :: rest :=
    ⟨_, List.eq_cons_of_mem_head? hc⟩
  simp [entries, hx, entryText, ho, hrest]

theorem entries_nil (h : o.shown names = []) : entries w o plain again dir names = [] := by
  rw [entries, h]
  rfl

theorem head_entries_dot (hs : w.scandir ['.'] = some names) (ho : o.long = true)
    (hne : o.shown names ≠ []) :
    ∃ c, (entries w o plain again ['.'] names).head? = some c ∧ c ≠ '/' := by
  refine head_entries ho hne fun name hn => ?_
  obtain ⟨hpath, hslash⟩ := entryPath_dot (w.names _ _ hs name hn)
  exact head_segments_name hpath hslash

theorem head_entries_slash (habs : dir.head? = some '/') (ho : o.long = true)
    (hne : o.shown names ≠ []) : (entries w o plain again dir names).head? = some '/' := by
  have h : ∃ c, (entries w o plain again dir names).head? = some c ∧ c = '/' :=
    head_entries ho hne fun name _ => ⟨'/', head_segments_slash (head_entryPath name habs), rfl⟩
  obtain ⟨c, hc, rfl⟩ := h
  exact hc

/-- With paths, the entries of `.` and of a directory by its absolute path look alike
only when there are none. -/
theorem entries_eq_iff (hs : w.scandir ['.'] = some names) (habs : dir.head? = some '/')
    (ho : o.long = true) (names' : List Str) :
    entries w o plain again ['.'] names = entries w o plain again' dir names' ↔
      o.shown names = [] ∧ o.shown names' = [] := by
  constructor
  · intro h
    by_cases hl : o.shown names = []
    · refine ⟨hl, ?_⟩
      by_contra hl'
      have hc : (entries w o plain again' dir names').head? = some '/' :=
        head_entries_slash habs ho hl'
      rw [← h, entries_nil hl] at hc
      simp at hc
    · have hdot : ∃ c, (entries w o plain again ['.'] names).head? = some c ∧ c ≠ '/' :=
        head_entries_dot hs ho hl
      obtain ⟨c, hc, hcs⟩ := hdot
      rw [h] at hc
      by_cases hl' : o.shown names' = []
      · simp [entries_nil hl'] at hc
      · rw [head_entries_slash habs ho hl'] at hc
        exact absurd (Option.some.inj hc).symm hcs
  · rintro ⟨hl, hl'⟩
    rw [entries_nil hl, entries_nil hl']

/-- `.` and `dir` look alike: neither can be read, or both can and show the same.  With
paths they do so only when they show nothing. -/
def LooksSame (w : World) (o : RevealFlags) (dir : Str) : Prop :=
  match w.scandir ['.'], w.scandir dir with
  | none, none => True
  | some l, some l' =>
    if o.long then o.shown l = [] ∧ o.shown l' = []
    else (o.shown l).flatMap spacedName = (o.shown l').flatMap spacedName
  | _, _ => False

/-- The listings of `.` and of a directory by its absolute path. -/
theorem listing_eq_iff (habs : dir.head? = some '/')
    (hp : plain = spacedName ∨ plain = joinedName ∧ o.long = true)
    (ha : ∀ path, again path = [] ∨ '\n' ∈ again path)
    (ha' : ∀ path, again' path = [] ∨ '\n' ∈ again' path) :
    listing w o plain again ['.'] = listing w o plain again' dir ↔ LooksSame w o dir := by
  have hp' : plain = spacedName ∨ plain = joinedName := hp.imp_right And.left
  cases hs : w.scandir ['.'] with
  | none =>
    have hdot : listing w o plain again ['.'] = noSuchDirectory := by rw [listing, hs]
    rw [hdot, eq_comm, listing_eq_noSuchDirectory_iff hp' ha', LooksSame, hs]
    cases w.scandir dir with
    | none => simp
    | some l' => simp
  | some l =>
    cases hs' : w.scandir dir with
    | none =>
      have hdir : listing w o plain again' dir = noSuchDirectory := by rw [listing, hs']
      rw [hdir, listing_eq_noSuchDirectory_iff hp' ha, LooksSame, hs, hs']
      simp
    | some l' =>
      by_cases ho : o.long = true
      · simp only [listing, hs, hs', LooksSame, ho, if_true, List.append_nil]
        exact entries_eq_iff hs habs ho l'
      · obtain rfl : plain = spacedName := hp.resolve_right fun h => ho h.2
        have ho' : o.long = false := by simpa using ho
        rw [listing_short hs ho', listing_short hs' ho', LooksSame, hs, hs']
        simp [ho']

end Directories

/-! ### Calls by their arguments -/

section Calls

variable {w : World} {depth : ℕ} {cmd : Str} {ws : List Str}

/-- What follows words with an unknown letter is not looked at. -/
theorem reveal_append_unknown {os : List Str} (hos : ∀ a ∈ os, isDash a = true)
    (h : ¬ Known revealLetter os) :
    ∃ c, ∀ r, reveal w (depth + 1) (cmd :: (os ++ r)) = invalidOption "cshell".toList c := by
  obtain ⟨c, hc⟩ := words_append_unknown hos h
  refine ⟨c, fun r => ?_⟩
  rw [reveal, List.tail_cons, hc]

theorem reveal_unknown (h : ¬ Known revealLetter (ws.takeWhile isDash)) :
    ∃ c, reveal w (depth + 1) (cmd :: ws) = invalidOption "cshell".toList c := by
  obtain ⟨c, hc⟩ := words_unknown h
  exact ⟨c, by rw [reveal, List.tail_cons, hc]⟩

/-- The flags that the letters set. -/
def revealFlags (os : List Str) : RevealFlags := ⟨hasLetter 'a' os, hasLetter 't' os⟩

theorem words_reveal (h : Known revealLetter (ws.takeWhile isDash)) :
    words revealLetter isDash ws ⟨false, false⟩ =
      .ok (revealFlags (ws.takeWhile isDash), ws.dropWhile isDash) := by
  obtain ⟨o, ho⟩ := words_known h ⟨false, false⟩
  have ha : o.hidden = (false || hasLetter 'a' (ws.takeWhile isDash)) := by
    refine words_flag (b := RevealFlags.hidden) (fun c g hg f => ?_) ho
    rcases twoLetters_cases hg with ⟨rfl, rfl⟩ | ⟨rfl, rfl⟩ <;> simp
  have ht : o.recurse = (false || hasLetter 't' (ws.takeWhile isDash)) := by
    refine words_flag (b := RevealFlags.recurse) (fun c g hg f => ?_) ho
    rcases twoLetters_cases hg with ⟨rfl, rfl⟩ | ⟨rfl, rfl⟩ <;> simp
  rw [ho, revealFlags, ← Bool.false_or (hasLetter 'a' _), ← Bool.false_or (hasLetter 't' _), ← ha, ← ht]

/-- The format of the names in a short listing. -/
def plainName (ws : List Str) : Str → Str := if ws.length = 1 then spacedName else joinedName

/-- Options of known letters and at most one operand: a listing. -/
theorem reveal_known (hws : ws ≠ []) (h : Known revealLetter (ws.takeWhile isDash))
    (hr : (ws.dropWhile isDash).length ≤ 1) :
    ∃ again, (∀ path, again path = [] ∨ '\n' ∈ again path) ∧
      reveal w (depth + 1) (cmd :: ws) =
        listing w (revealFlags (ws.takeWhile isDash)) (plainName ws) again
          ((ws.dropWhile isDash).headD ['.']) := by
  match ws with
  | [] => exact absurd rfl hws
  | [a] =>
    refine ⟨fun path => reveal w depth [cmd, a, path], fun path => newline_mem_reveal _ _ _, ?_⟩
    rw [reveal, List.tail_cons, words_reveal h]
    rfl
  | a :: b :: ws =>
    refine ⟨fun path => reveal w depth ((cmd :: a :: b :: ws).dropLast ++ [path]),
      fun path => newline_mem_reveal _ _ _, ?_⟩
    rw [reveal, List.tail_cons, words_reveal h]
    match hd : (a :: b :: ws).dropWhile isDash with
    | [] => rfl
    | [dir] => rfl
    | _ :: _ :: _ =>
      rw [hd] at hr
      simp at hr

/-- Options of known letters and more than one operand. -/
theorem reveal_operands (h : Known revealLetter (ws.takeWhile isDash))
    (hr : 2 ≤ (ws.dropWhile isDash).length) : reveal w (depth + 1) (cmd :: ws) = revealSyntax := by
  match ws with
  | [] => simp at hr
  | [a] =>
    have hle := (List.dropWhile_suffix isDash (l := [a])).length_le
    simp only [List.length_singleton] at hle
    omega
  | a :: b :: ws =>
    rw [reveal, List.tail_cons, words_reveal h]
    match hd : (a :: b :: ws).dropWhile isDash with
    | [] => simp [hd] at hr
    | [dir] => simp [hd] at hr
    | _ :: _ :: _ => rfl

end Calls

end Cshell
