/-
Which calls of `reveal` list the tree.

`reveal` calls itself for the directories below with its own arguments, the
last one replaced by the path.  With a directory given that is the directory,
and with a single option word the path is added.  With several option words
and no directory the last option word gives way, and its letters are lost from
the second level on.  The path is read as an argument again: a directory in the
working directory whose name starts with `-` is taken for an option word.

* `treeText` — the tree as it is to be listed;
* `listing_tree` — a call whose recursive calls list the directories below;
* `reveal_operand` — a call with a directory given;
* `reveal_tree_iff` — exactly which option words list every tree.
-/
import CshellXv6.Lib.FileTree
import CshellXv6.Shell.RevealText

namespace Cshell

open OptionWords FileTree

/-! ### The tree -/

/-- The path under which an entry is printed. -/
def joinPath (dir name : Str) : Str :=
  if dir = ['.'] then name
  else if dir.getLast? = some '/' then dir ++ name
  else dir ++ '/' :: name

/-- With `a` every name is listed, otherwise those that do not start with a dot. -/
def visible (o : RevealFlags) (name : Str) : Bool := o.hidden || name.head? ≠ some '.'

/-- The entries to list: with `t` the whole subtree, otherwise the one directory. -/
def traversal (o : RevealFlags) (dir : Str) (es : List (Entry Str)) : List (Str × Bool) :=
  preorder joinPath (visible o) o.recurse dir es

/-- The line of an entry; with `t` a directory has a slash. -/
def treeLine (o : RevealFlags) (l : Str × Bool) : Str :=
  segments ['\''] l.1 ++ (if l.2 && o.recurse then ['/'] else []) ++ ['\n']

def treeText (o : RevealFlags) (dir : Str) (es : List (Entry Str)) : Str :=
  (traversal o dir es).flatMap (treeLine o)

/-- `scandir` gives these names, and `.` and `..`. -/
def Scans (w : World) (dir : Str) (names : List Str) : Prop :=
  ∃ l, w.scandir dir = some l ∧ l.filter (fun x => x ≠ ['.'] ∧ x ≠ ['.', '.']) = names

/-- The directory has this tree; the entries are in the order of `scandir`. -/
def HasTree (w : World) (dir : Str) (es : List (Entry Str)) : Prop :=
  Found joinPath w.isDir (Scans w) dir es

/-- The paths to print fit the buffer. -/
def Fits (o : RevealFlags) (dir : Str) (es : List (Entry Str)) : Prop :=
  ∀ l ∈ traversal o dir es, l.1.length < 4096

/-! ### One directory -/

theorem entryPath_eq {dir name : Str} (h : (joinPath dir name).length < 4096) :
    entryPath dir name = joinPath dir name :=
  pathBuffer_of_lt h

/-- What is shown of the names that `scandir` gives. -/
theorem shown_eq (o : RevealFlags) (l : List Str) :
    o.shown l = (l.filter fun x => x ≠ ['.'] ∧ x ≠ ['.', '.']).filter (visible o) := by
  rw [RevealFlags.shown, List.filter_filter]
  refine List.filter_congr ?_
  intro x _
  unfold RevealFlags.skips visible
  cases o.hidden <;> by_cases h₁ : x = ['.'] <;> by_cases h₂ : x = ['.', '.'] <;> simp [h₁, h₂]

theorem treeText_eq (o : RevealFlags) (dir : Str) (es : List (Entry Str)) :
    treeText o dir es =
      es.flatMap fun e => (Entry.visit joinPath (visible o) o.recurse dir e).flatMap (treeLine o) := by
  rw [treeText, traversal, preorder_eq_flatMap, List.flatMap_assoc]

theorem mem_traversal {o : RevealFlags} {dir : Str} {es : List (Entry Str)} {l : Str × Bool}
    {e : Entry Str} (he : e ∈ es) (hl : l ∈ Entry.visit joinPath (visible o) o.recurse dir e) :
    l ∈ traversal o dir es := by
  rw [traversal, preorder_eq_flatMap]
  exact List.mem_flatMap.mpr ⟨e, he, hl⟩

/-- Entries that are passed over and entries that give nothing. -/
theorem flatMap_filter_eq {α β : Type} {p : α → Bool} {f g : α → List β} {l : List α}
    (hp : ∀ x ∈ l, p x = true → f x = g x) (hn : ∀ x ∈ l, p x = false → g x = []) :
    (l.filter p).flatMap f = l.flatMap g := by
  induction l with
  | nil => rfl
  | cons x l ih =>
    have hrest := ih (fun y hy => hp y (List.mem_cons_of_mem x hy))
      fun y hy => hn y (List.mem_cons_of_mem x hy)
    rw [List.filter_cons, List.flatMap_cons]
    by_cases hx : p x = true
    · rw [if_pos hx, List.flatMap_cons, hrest, hp x List.mem_cons_self hx]
    · rw [if_neg hx, hrest, hn x List.mem_cons_self (by simpa using hx), List.nil_append]

section Listing

variable {w : World} {o : RevealFlags} {plain again : Str → Str} {dir : Str} {es : List (Entry Str)}

/-- The directories below are listed as well. -/
theorem Fits.below {name : Str} {es' : List (Entry Str)} (h : Fits o dir es)
    (he : .dir name es' ∈ es) (hv : visible o name = true) (hr : o.recurse = true) :
    Fits o (joinPath dir name) es' := by
  intro l hl
  refine h l (mem_traversal he ?_)
  rw [Entry.visit, if_pos hv, if_pos hr]
  exact List.mem_cons_of_mem _ hl

/-- The text of one entry. -/
theorem entry_text (ho : o.long = true) (hfit : Fits o dir es) {e : Entry Str} (he : e ∈ es)
    (hfound : Entry.Found joinPath w.isDir (Scans w) dir e) (hv : visible o e.name = true)
    (hagain : ∀ name es', e = .dir name es' → o.recurse = true →
      again (joinPath dir name) = treeText o (joinPath dir name) es') :
    (entryText o plain (w.isDir (entryPath dir e.name)) (entryPath dir e.name) e.name ++
        if o.recurse && w.isDir (entryPath dir e.name) then again (entryPath dir e.name) else []) =
      (Entry.visit joinPath (visible o) o.recurse dir e).flatMap (treeLine o) := by
  cases e with
  | file name =>
    rw [Entry.name] at hv ⊢
    have hvisit : Entry.visit joinPath (visible o) o.recurse dir (.file name) =
        [(joinPath dir name, false)] := by
      rw [Entry.visit, if_pos hv]
    have hpath := entryPath_eq (hfit _ (mem_traversal he (by rw [hvisit]; exact List.mem_cons_self)))
    have hdir : w.isDir (joinPath dir name) = false := hfound
    rw [hvisit, hpath, hdir, entryText, if_pos ho, Bool.and_false, if_neg Bool.false_ne_true]
    simp [treeLine]
  | dir name es' =>
    rw [Entry.name] at hv ⊢
    have hvisit : Entry.visit joinPath (visible o) o.recurse dir (.dir name es') =
        (joinPath dir name, true) ::
          if o.recurse then preorder joinPath (visible o) o.recurse (joinPath dir name) es' else [] := by
      rw [Entry.visit, if_pos hv]
    have hpath := entryPath_eq (hfit _ (mem_traversal he (by rw [hvisit]; exact List.mem_cons_self)))
    have hdir : w.isDir (joinPath dir name) = true := hfound.1
    rw [hvisit, hpath, hdir, entryText, if_pos ho, Bool.and_true, List.flatMap_cons]
    -- with `t` the call for the directory follows its line
    by_cases hr : o.recurse = true
    · rw [if_pos hr, if_pos hr, hagain name es' rfl hr]
      simp [treeLine, treeText, traversal, hr]
    · rw [if_neg hr, if_neg hr]
      simp [treeLine, hr]

/-- **A call whose recursive calls list the directories below** lists the tree. -/
theorem listing_tree (ho : o.long = true) (htree : HasTree w dir es) (hfit : Fits o dir es)
    (hagain : ∀ name es', .dir name es' ∈ es → visible o name = true → o.recurse = true →
      again (joinPath dir name) = treeText o (joinPath dir name) es') :
    listing w o plain again dir = treeText o dir es := by
  obtain ⟨⟨l, hl, hnames⟩, hall⟩ := htree
  rw [listing, hl]
  simp only [ho, if_true, List.append_nil]
  rw [entries, shown_eq, hnames, treeText_eq, List.filter_map, List.flatMap_map]
  refine flatMap_filter_eq ?_ ?_
  · intro e he hv
    refine entry_text ho hfit he (hall.of_mem he) hv ?_
    rintro name es' rfl hr
    exact hagain name es' he hv hr
  · intro e he hv
    rw [Entry.visit_of_not_shown (by simpa using hv), List.flatMap_nil]

end Listing

/-! ### A directory given -/

theorem ne_nil_of_long {os : List Str} (h : (revealFlags os).long = true) : os ≠ [] := by
  rintro rfl
  exact absurd h (by decide)

section Operand

variable {w : World} {cmd : Str} {os : List Str}

/-- A call with a directory given replaces it by the path. -/
theorem reveal_dir (hos : ∀ a ∈ os, isDash a = true) (hne : os ≠ []) (hk : Known revealLetter os)
    {dir : Str} (hdir : isDash dir = false) (depth : ℕ) :
    reveal w (depth + 1) (cmd :: (os ++ [dir])) =
      listing w (revealFlags os) joinedName (fun path => reveal w depth (cmd :: (os ++ [path]))) dir := by
  have htake : (os ++ [dir]).takeWhile isDash = os := by
    rw [List.takeWhile_append_of_pos hos]
    simp [hdir]
  have hdrop : (os ++ [dir]).dropWhile isDash = [dir] := by
    rw [List.dropWhile_append_of_pos hos]
    simp [hdir]
  have hwords := @words_reveal (os ++ [dir]) (by rwa [htake])
  rw [htake, hdrop] at hwords
  have hlast : (cmd :: (os ++ [dir])).dropLast = cmd :: os := by
    rw [← List.cons_append, List.dropLast_concat]
  obtain ⟨a, as, rfl⟩ := List.exists_cons_of_ne_nil hne
  rw [reveal, List.tail_cons, hwords]
  cases as with
  | nil => rfl
  | cons b as =>
    simp only [List.cons_append] at hlast ⊢
    rw [hlast]
    rfl

/-- No directory that is gone into from the working directory reads as an option
word. -/
def NoDash (o : RevealFlags) (dir : Str) (es : List (Entry Str)) : Prop :=
  dir = ['.'] → o.recurse = true → ∀ name es', .dir name es' ∈ es → visible o name = true →
    isDash name = false

theorem name_of_scans {w : World} {dir : Str} {es : List (Entry Str)} (h : HasTree w dir es)
    {e : Entry Str} (he : e ∈ es) : e.name ≠ ['.'] ∧ e.name ≠ ['.', '.'] := by
  obtain ⟨⟨l, -, hl⟩, -⟩ := h
  have hm : e.name ∈ es.map Entry.name := List.mem_map.mpr ⟨e, he, rfl⟩
  rw [← hl] at hm
  simpa using (List.mem_filter.mp hm).2

/-- The path below a directory is not the working directory. -/
theorem joinPath_ne_dot {dir name : Str} (hname : name ≠ ['.']) : joinPath dir name ≠ ['.'] := by
  unfold joinPath
  split
  case isTrue => exact hname
  case isFalse =>
    intro h
    have hslash : '/' ∈ ['.'] := by
      rw [← h]
      split
      case isTrue hlast => exact List.mem_append_left _ (List.mem_of_getLast? hlast)
      case isFalse => simp
    exact absurd hslash (by decide)

/-- Below another directory than the working directory no path starts with `-`. -/
theorem isDash_joinPath {dir name : Str} (hne : dir ≠ ['.']) (hdir : isDash dir = false) :
    isDash (joinPath dir name) = false := by
  unfold joinPath
  rw [if_neg hne]
  cases dir with
  | nil => rfl
  | cons c dir =>
    have hc : isDash (c :: dir) = isDash (c :: dir ++ name) := rfl
    have hc' : isDash (c :: dir) = isDash (c :: dir ++ '/' :: name) := rfl
    split
    · rw [← hc]
      exact hdir
    · rw [← hc']
      exact hdir

/-- **A call with a directory given lists its tree**, whatever the option words. -/
theorem reveal_operand (hos : ∀ a ∈ os, isDash a = true) (hk : Known revealLetter os)
    (ho : (revealFlags os).long = true) {depth : ℕ} {dir : Str} {es : List (Entry Str)}
    (hdepth : heights es < depth) (hdir : isDash dir = false) (htree : HasTree w dir es)
    (hfit : Fits (revealFlags os) dir es) (hdash : NoDash (revealFlags os) dir es) :
    reveal w depth (cmd :: (os ++ [dir])) = treeText (revealFlags os) dir es := by
  have hne := ne_nil_of_long ho
  -- on the depth: the tree below a directory is lower
  induction depth generalizing dir es with
  | zero => omega
  | succ depth ih =>
    rw [reveal_dir hos hne hk hdir]
    refine listing_tree ho htree hfit ?_
    intro name es' he hv hr
    have hheight : heights es' + 1 ≤ heights es := height_le he
    obtain ⟨-, hall⟩ := id htree
    obtain ⟨-, hlists, hbelow⟩ := hall.of_mem he
    have hdot : joinPath dir name ≠ ['.'] := joinPath_ne_dot (name_of_scans htree he).1
    have hdash' : isDash (joinPath dir name) = false := by
      by_cases hd : dir = ['.']
      · have hpath : joinPath dir name = name := if_pos hd
        rw [hpath]
        exact hdash hd hr name es' he hv
      · exact isDash_joinPath hd hdir
    exact ih (by omega) hdash' ⟨hlists, hbelow⟩ (hfit.below he hv hr) fun h => absurd h hdot

end Operand

/-! ### Option words only -/

/-- The option words that the recursive calls of a call without a directory get. -/
def carried (os : List Str) : List Str := if os.length = 1 then os else os.dropLast

theorem mem_of_mem_carried {os : List Str} {a : Str} (h : a ∈ carried os) : a ∈ os := by
  unfold carried at h
  split at h
  · exact h
  · exact (List.dropLast_sublist os).subset h

theorem carried_ne_nil {os : List Str} (h : os ≠ []) : carried os ≠ [] := by
  match os with
  | [] => exact absurd rfl h
  | [a] => simp [carried]
  | a :: b :: os => simp [carried]

/-- A call with option words only. -/
theorem reveal_options {w : World} {cmd : Str} {os : List Str} (hos : ∀ a ∈ os, isDash a = true)
    (hne : os ≠ []) (hk : Known revealLetter os) (depth : ℕ) :
    reveal w (depth + 1) (cmd :: os) =
      listing w (revealFlags os) (plainName os)
        (fun path => reveal w depth (cmd :: (carried os ++ [path]))) ['.'] := by
  have htake : os.takeWhile isDash = os := List.takeWhile_eq_self_iff.mpr hos
  have hdrop : os.dropWhile isDash = [] := List.dropWhile_eq_nil_iff.mpr hos
  have hwords := @words_reveal os (by rwa [htake])
  rw [htake, hdrop] at hwords
  match os with
  | [] => exact absurd rfl hne
  | [a] =>
    rw [reveal, List.tail_cons, hwords]
    rfl
  | a :: b :: os =>
    rw [reveal, List.tail_cons, hwords]
    rfl

/-! ### The call -/

section Call

variable {w : World} {cmd : Str} {os : List Str} {operand : Option Str}

/-- From some depth on the call prints the tree of its directory. -/
def ListsTree (w : World) (cmd : Str) (os : List Str) (operand : Option Str)
    (es : List (Entry Str)) : Prop :=
  ∃ n, ∀ depth, n ≤ depth → reveal w depth (cmd :: (os ++ operand.toList)) =
    treeText (revealFlags os) (operand.getD ['.']) es

/-- The option words that the recursive calls get. -/
def passedOn (os : List Str) (operand : Option Str) : List Str :=
  if operand = none then carried os else os

theorem mem_of_mem_passedOn {a : Str} (h : a ∈ passedOn os operand) : a ∈ os := by
  unfold passedOn at h
  split at h
  · exact mem_of_mem_carried h
  · exact h

theorem passedOn_ne_nil (h : os ≠ []) : passedOn os operand ≠ [] := by
  unfold passedOn
  split
  · exact carried_ne_nil h
  · exact h

/-- No letter is passed on that was not there. -/
theorem hasLetter_of_passedOn {c : Char} (h : hasLetter c (passedOn os operand) = true) :
    hasLetter c os = true := by
  obtain ⟨a, ha, hc⟩ := List.any_eq_true.mp h
  exact List.any_eq_true.mpr ⟨a, mem_of_mem_passedOn ha, hc⟩

/-- A call by the option words that it passes on. -/
theorem reveal_call (hos : ∀ a ∈ os, isDash a = true) (hne : os ≠ []) (hk : Known revealLetter os)
    (hop : ∀ d ∈ operand, isDash d = false) (depth : ℕ) :
    ∃ plain, reveal w (depth + 1) (cmd :: (os ++ operand.toList)) =
      listing w (revealFlags os) plain
        (fun path => reveal w depth (cmd :: (passedOn os operand ++ [path]))) (operand.getD ['.']) := by
  cases operand with
  | none =>
    refine ⟨plainName os, ?_⟩
    rw [Option.toList_none, List.append_nil]
    exact reveal_options hos hne hk depth
  | some dir =>
    refine ⟨joinedName, ?_⟩
    rw [Option.toList_some]
    exact reveal_dir hos hne hk (hop dir rfl) depth

/-- **A call that passes all its letters on lists the tree**, as one does that does not
go below. -/
theorem listsTree (hos : ∀ a ∈ os, isDash a = true) (hk : Known revealLetter os)
    (ho : (revealFlags os).long = true) (hop : ∀ d ∈ operand, isDash d = false)
    {es : List (Entry Str)} (htree : HasTree w (operand.getD ['.']) es)
    (hfit : Fits (revealFlags os) (operand.getD ['.']) es)
    (hgo : ∀ name es', .dir name es' ∈ es → visible (revealFlags os) name = true →
      (revealFlags os).recurse = true →
        isDash (joinPath (operand.getD ['.']) name) = false ∧
          revealFlags (passedOn os operand) = revealFlags os) :
    ListsTree w cmd os operand es := by
  have hne := ne_nil_of_long ho
  refine ⟨heights es + 1, ?_⟩
  intro depth hdepth
  obtain ⟨d, rfl⟩ : ∃ d, depth = d + 1 := ⟨depth - 1, by omega⟩
  obtain ⟨plain, hcall⟩ := reveal_call hos hne hk hop d
  rw [hcall]
  refine listing_tree ho htree hfit ?_
  intro name es' he hv hr
  obtain ⟨hdash, hflags⟩ := hgo name es' he hv hr
  have hheight : heights es' + 1 ≤ heights es := height_le he
  obtain ⟨-, hlists, hbelow⟩ := htree.2.of_mem he
  have hdot : joinPath (operand.getD ['.']) name ≠ ['.'] :=
    joinPath_ne_dot (name_of_scans htree he).1
  rw [← hflags]
  refine reveal_operand (fun a ha => hos a (mem_of_mem_passedOn ha))
    (fun a ha => hk a (mem_of_mem_passedOn ha)) ?_ ?_ hdash ⟨hlists, hbelow⟩ ?_ fun h => absurd h hdot
  · rw [hflags]
    exact ho
  · omega
  · rw [hflags]
    exact hfit.below he hv hr

end Call

/-! ### A tree that shows what is lost -/

/-- The hidden directory `.h`. -/
def dotH : Str := ['.', 'h']

/-- A directory in the working directory, with an empty hidden one in it. -/
def nested (x : Str) : List (Entry Str) := [.dir x [.dir dotH []]]

def nestedWorld (x : Str) (hx : LegalName x) : World where
  scandir d :=
    if d = ['.'] then some [['.'], ['.', '.'], x]
    else if d = x then some [['.'], ['.', '.'], dotH]
    else if d = x ++ '/' :: dotH then some [['.'], ['.', '.']]
    else none
  isDir d := d = x ∨ d = x ++ '/' :: dotH
  contents _ := none
  isExec _ := false
  cwd := ⟨['/'], root_absolute⟩
  path := none
  stdin := []
  names d l h y hy := by
    have hdots : ∀ z ∈ [['.'], ['.', '.'], dotH], LegalName z := by decide
    split at h
    · cases h
      rcases List.mem_cons.mp hy with rfl | hy
      · exact hdots _ (by simp)
      rcases List.mem_cons.mp hy with rfl | hy
      · exact hdots _ (by simp)
      rw [List.mem_singleton.mp hy]
      exact hx
    · split at h
      · cases h
        exact hdots y hy
      · split at h
        · cases h
          refine hdots y ?_
          rcases List.mem_cons.mp hy with rfl | hy
          · simp
          · rw [List.mem_singleton.mp hy]
            simp
        · cases h

section Nested

variable {x : Str} (hx : LegalName x)

theorem scandir_dot : (nestedWorld x hx).scandir ['.'] = some [['.'], ['.', '.'], x] := by
  simp [nestedWorld]

theorem isDir_name : (nestedWorld x hx).isDir x = true := decide_eq_true (.inl rfl)

theorem isDir_dotH : (nestedWorld x hx).isDir (x ++ '/' :: dotH) = true := decide_eq_true (.inr rfl)

variable (hdot : x ≠ ['.'])

include hdot

theorem scandir_name : (nestedWorld x hx).scandir x = some [['.'], ['.', '.'], dotH] := by
  show (if x = ['.'] then _ else if x = x then _ else _) = _
  rw [if_neg hdot, if_pos rfl]

omit hdot in
theorem scandir_dotH :
    (nestedWorld x hx).scandir (x ++ '/' :: dotH) = some [['.'], ['.', '.']] := by
  have hne : x ++ '/' :: dotH ≠ ['.'] := by
    intro h
    have := congrArg List.length h
    simp [dotH] at this
  have hne' : x ++ '/' :: dotH ≠ x := by
    intro h
    have := congrArg List.length h
    simp [dotH] at this
  show (if x ++ '/' :: dotH = ['.'] then _ else if x ++ '/' :: dotH = x then _ else
    if x ++ '/' :: dotH = x ++ '/' :: dotH then _ else _) = _
  rw [if_neg hne, if_neg hne', if_pos rfl]

include hx in
theorem joinPath_nested : joinPath x dotH = x ++ '/' :: dotH := by
  have hlast : x.getLast? ≠ some '/' := fun h => hx.2.1 (List.mem_of_getLast? h)
  rw [joinPath, if_neg hdot, if_neg hlast]

variable (hdots : x ≠ ['.', '.'])

include hdots

theorem hasTree_nested : HasTree (nestedWorld x hx) ['.'] (nested x) := by
  have htop : joinPath ['.'] x = x := if_pos rfl
  have hpath := joinPath_nested hx hdot
  refine ⟨⟨_, scandir_dot hx, ?_⟩, ?_, trivial⟩
  · simp [nested, Entry.name, hdot, hdots]
  · rw [Entry.Found, htop]
    refine ⟨isDir_name hx, ⟨_, scandir_name hx hdot, by decide⟩, ?_, trivial⟩
    rw [Entry.Found, hpath]
    exact ⟨isDir_dotH hx, ⟨_, scandir_dotH hx, by decide⟩, trivial⟩

omit hdots in
include hx in
/-- The lines of the tree: the hidden directory is there with `a`. -/
theorem traversal_nested {o : RevealFlags} (hr : o.recurse = true) (hv : visible o x = true) :
    traversal o ['.'] (nested x) =
      (x, true) :: if o.hidden then [(x ++ '/' :: dotH, true)] else [] := by
  have htop : joinPath ['.'] x = x := if_pos rfl
  have hpath := joinPath_nested hx hdot
  have hvh : visible o dotH = o.hidden := by
    unfold visible
    simp [dotH]
  rw [traversal, nested, preorder, Entry.visit, if_pos hv, if_pos hr, htop]
  simp only [preorder, Entry.visit, hvh, hpath, hr, if_true, List.append_nil]

omit hdots in
include hx in
theorem fits_nested {o : RevealFlags} (hr : o.recurse = true) (hv : visible o x = true)
    (hlen : x.length + 3 < 4096) : Fits o ['.'] (nested x) := by
  intro l hl
  rw [traversal_nested hx hdot hr hv] at hl
  rcases List.mem_cons.mp hl with rfl | hl
  · show x.length < 4096
    omega
  · split at hl
    · rw [List.mem_singleton.mp hl]
      simpa [dotH] using hlen
    · cases hl

/-- What the call below has to print. -/
theorem reveal_below {cmd : Str} {os : List Str} {operand : Option Str}
    (hos : ∀ a ∈ os, isDash a = true) (hne : os ≠ []) (hk : Known revealLetter os)
    (ho : (revealFlags os).long = true) (hop : ∀ d ∈ operand, isDash d = false)
    (hhere : operand.getD ['.'] = ['.']) (hr : (revealFlags os).recurse = true)
    (hv : visible (revealFlags os) x = true) (hlen : x.length < 4096)
    (h : ListsTree (nestedWorld x hx) cmd os operand (nested x)) :
    ∃ n, reveal (nestedWorld x hx) (n + 1) (cmd :: (passedOn os operand ++ [x])) =
      if (revealFlags os).hidden then treeLine (revealFlags os) (x ++ '/' :: dotH, true) else [] := by
  obtain ⟨n, hn⟩ := h
  refine ⟨n, ?_⟩
  obtain ⟨plain, hcall⟩ := @reveal_call (nestedWorld x hx) cmd os operand hos hne hk hop (n + 1)
  have htext := hn (n + 1 + 1) (by omega)
  have hpath : entryPath ['.'] x = x := entryPath_eq hlen
  have hshown : (revealFlags os).shown [['.'], ['.', '.'], x] = [x] := by
    rw [shown_eq]
    simp [hdot, hdots, hv]
  rw [hcall, hhere, listing, scandir_dot, treeText, traversal_nested hx hdot hr hv] at htext
  simp only [entries, hshown, ho, hpath, isDir_name, hr, Bool.and_self, if_true, List.flatMap_cons,
    List.flatMap_nil, List.append_nil] at htext
  have hline : entryText (revealFlags os) plain true x x = treeLine (revealFlags os) (x, true) := by
    rw [entryText, if_pos ho]
    rfl
  rw [hline] at htext
  have hrest := List.append_cancel_left htext
  rw [hrest]
  split
  · rw [List.flatMap_cons, List.flatMap_nil, List.append_nil]
  · rfl

end Nested

/-! ### What the call below prints -/

section Below

variable {x : Str} (hx : LegalName x) (hdot : x ≠ ['.']) {cmd : Str} {os : List Str}
  (hos : ∀ a ∈ os, isDash a = true) (hne : os ≠ []) (hk : Known revealLetter os)

/-- The quotes of a segment. -/
def quoted (close s : Str) : Str := if ' ' ∈ s then '\'' :: s ++ close else s

include hx in
theorem segments_name (close : Str) : segments close x = quoted close x := by
  rw [segments, List.splitOn_eq_singleton hx.2.1, List.map_singleton, List.intercalate_singleton]
  rfl

include hx in
theorem segments_dotH (close : Str) :
    segments close (x ++ '/' :: dotH) = quoted close x ++ '/' :: dotH := by
  have hsplit : (x ++ '/' :: dotH).splitOn '/' = [x, dotH] := by
    rw [List.splitOn_append_cons_self_of_not_mem hx.2.1, List.splitOn_eq_singleton (by decide)]
  rw [segments, hsplit]
  simp only [List.map_cons, List.map_nil, List.intercalate_cons_cons, List.intercalate_singleton]
  rw [List.append_assoc]
  rfl

include hdot hos hne hk in
/-- A name that is no option word is listed with the letters that are left. -/
theorem reveal_name (hdash : isDash x = false) (hlen : x.length + 3 < 4096) (n : ℕ) :
    ∃ t, reveal (nestedWorld x hx) (n + 1) (cmd :: (os ++ [x])) =
      if (revealFlags os).hidden then
        treeLine (revealFlags os) (x ++ '/' :: dotH, true) ++ t
      else if (revealFlags os).recurse then [] else ['\n'] := by
  have hpath : entryPath x dotH = x ++ '/' :: dotH := by
    rw [← joinPath_nested hx hdot]
    refine entryPath_eq ?_
    rw [joinPath_nested hx hdot]
    simpa [dotH] using hlen
  rw [reveal_dir hos hne hk hdash, listing, scandir_name hx hdot]
  by_cases hh : (revealFlags os).hidden = true
  · have hlong : (revealFlags os).long = true := by rw [RevealFlags.long, hh, Bool.or_true]
    have hshown : (revealFlags os).shown [['.'], ['.', '.'], dotH] = [dotH] := by
      rw [shown_eq]
      simp [visible, hh, dotH]
    refine ⟨if (revealFlags os).recurse then
      reveal (nestedWorld x hx) n (cmd :: (os ++ [x ++ '/' :: dotH])) else [], ?_⟩
    rw [if_pos hh]
    simp only [entries, hshown, hlong, hpath, isDir_dotH, Bool.and_true, if_true, List.flatMap_cons,
      List.flatMap_nil, List.append_nil, entryText, treeLine, Bool.true_and]
  · have hshown : (revealFlags os).shown [['.'], ['.', '.'], dotH] = [] := by
      rw [shown_eq]
      simp [visible, hh, dotH]
    have hh' : (revealFlags os).hidden = false := by simpa using hh
    have hlong : (revealFlags os).long = (revealFlags os).recurse := by
      rw [RevealFlags.long, hh', Bool.or_false]
    refine ⟨[], ?_⟩
    rw [if_neg hh]
    simp only [entries, hshown, hlong, List.flatMap_nil, List.nil_append]

include hx hos hne in
/-- A name that reads as an option word: the message, or the working directory
again. -/
theorem reveal_dash (hdash : isDash x = true) (hlen : x.length < 4096) (n : ℕ) :
    (∃ c, reveal (nestedWorld x hx) (n + 1) (cmd :: (os ++ [x])) =
      invalidOption "cshell".toList c) ∨
    ' ' ∉ x ∧ ∃ t, reveal (nestedWorld x hx) (n + 1) (cmd :: (os ++ [x])) = x ++ '\n' :: t ∨
      reveal (nestedWorld x hx) (n + 1) (cmd :: (os ++ [x])) = x ++ '/' :: '\n' :: t := by
  have hall : ∀ a ∈ os ++ [x], isDash a = true := by
    intro a ha
    rcases List.mem_append.mp ha with ha | ha
    · exact hos a ha
    · rw [List.mem_singleton.mp ha]
      exact hdash
  have htake : (os ++ [x]).takeWhile isDash = os ++ [x] := List.takeWhile_eq_self_iff.mpr hall
  -- all its letters are known, or one is not
  by_cases hk : Known revealLetter (os ++ [x])
  · right
    have hhead : x.head? = some '-' := of_decide_eq_true hdash
    have hspace : ' ' ∉ x := by
      obtain ⟨cs, rfl⟩ : ∃ cs, x = '-' :: cs := ⟨x.tail, List.eq_cons_of_mem_head? hhead⟩
      intro hm
      rcases List.mem_cons.mp hm with h | hm
      · exact absurd h (by decide)
      · exact absurd (hk _ (List.mem_append_right _ (List.mem_singleton_self _)) ' ' hm) (by decide)
    have hquoted : ∀ close, quoted close x = x := fun close => if_neg hspace
    refine ⟨hspace, ?_⟩
    have hshown : ∀ o : RevealFlags, o.shown [['.'], ['.', '.'], x] = [x] := by
      intro o
      have hv : visible o x = true := by simp [visible, hhead]
      have hdot : x ≠ ['.'] := fun e => absurd (e ▸ hhead) (by decide)
      have hdots : x ≠ ['.', '.'] := fun e => absurd (e ▸ hhead) (by decide)
      rw [shown_eq]
      simp [hdot, hdots, hv]
    have hpath : entryPath ['.'] x = x := entryPath_eq hlen
    have hplain : plainName (os ++ [x]) = joinedName := by
      have hpos := List.length_pos_of_ne_nil hne
      refine if_neg ?_
      rw [List.length_append, List.length_singleton]
      omega
    rw [reveal_options hall (by simp) hk, listing, scandir_dot]
    simp only [entries, hshown, hpath, hplain, isDir_name, Bool.and_true, List.flatMap_cons,
      List.flatMap_nil, List.append_nil, entryText, Bool.true_and, joinedName, segments_name hx, hquoted]
    by_cases hr : (revealFlags (os ++ [x])).recurse = true
    · have hlong : (revealFlags (os ++ [x])).long = true := by rw [RevealFlags.long, hr, Bool.true_or]
      simp only [hlong, hr, if_true, List.append_assoc, List.append_nil, List.cons_append,
        List.nil_append]
      exact ⟨_, .inr rfl⟩
    · by_cases hlong : (revealFlags (os ++ [x])).long = true
      · simp only [hlong, hr, if_true, if_false, List.append_nil, Bool.false_eq_true]
        exact ⟨[], .inl rfl⟩
      · simp only [hlong, hr, if_false, List.append_nil, Bool.false_eq_true]
        exact ⟨[], .inl rfl⟩
  · left
    obtain ⟨c, hc⟩ := @reveal_unknown (nestedWorld x hx) n cmd (os ++ [x]) (by rwa [htake])
    exact ⟨c, hc⟩

end Below

/-! ### Exactly when -/

theorem treeLine_ne_nil (o : RevealFlags) (l : Str × Bool) : treeLine o l ≠ [] := by
  simp [treeLine]

/-- With `t`, letters that were there and no others: if the text for the hidden
directory is the same, none is lost. -/
theorem flags_eq_of_text {o o' : RevealFlags} {p t : Str} (hr : o.recurse = true)
    (hle : o'.hidden = true → o.hidden = true)
    (h : (if o'.hidden then treeLine o' (p, true) ++ t else if o'.recurse then [] else ['\n']) =
      if o.hidden then treeLine o (p, true) else []) : o' = o := by
  obtain ⟨hid, rec⟩ := o
  obtain ⟨hid', rec'⟩ := o'
  dsimp only at hr hle h
  subst hr
  -- the directory is printed with its slash, without it, or not at all
  cases hid' with
  | true =>
    rw [hle rfl] at h ⊢
    cases rec' with
    | true => rfl
    | false =>
      rw [if_pos rfl, if_pos rfl] at h
      simp [treeLine] at h
  | false =>
    rw [if_neg Bool.false_ne_true] at h
    cases hid with
    | true =>
      rw [if_pos rfl] at h
      cases rec' with
      | true => exact absurd h.symm (treeLine_ne_nil _ _)
      | false =>
        have hlen := congrArg List.length h
        simp [treeLine] at hlen
    | false =>
      cases rec' with
      | true => rfl
      | false => cases h

theorem treeLine_dotH {x : Str} (hx : LegalName x) (o : RevealFlags) :
    ∃ t, treeLine o (x ++ '/' :: dotH, true) = quoted ['\''] x ++ '/' :: '.' :: t := by
  rw [treeLine, segments_dotH hx, List.append_assoc, List.append_assoc]
  exact ⟨_, rfl⟩

/-- The message is no line of the tree. -/
theorem message_ne_line {x : Str} {c : Char} (hx : LegalName x) (hdash : isDash x = true)
    (o : RevealFlags) :
    invalidOption "cshell".toList c ≠
      if o.hidden then treeLine o (x ++ '/' :: dotH, true) else [] := by
  intro h
  have hc : (invalidOption "cshell".toList c).head? = some 'c' := rfl
  rw [h] at hc
  split at hc
  case isTrue =>
    obtain ⟨t, ht⟩ := treeLine_dotH hx o
    obtain ⟨cs, rfl⟩ : ∃ cs, x = '-' :: cs :=
      ⟨x.tail, List.eq_cons_of_mem_head? (of_decide_eq_true hdash)⟩
    rw [ht, quoted] at hc
    split at hc
    · exact absurd hc (by simp)
    · exact absurd hc (by simp)
  case isFalse => cases hc

/-- The name on a line of its own is not what comes below it. -/
theorem name_text_ne {x s t : Str} (hx : LegalName x) (hspace : ' ' ∉ x) (o : RevealFlags)
    (hs : s = x ++ '\n' :: t ∨ s = x ++ '/' :: '\n' :: t) :
    s ≠ if o.hidden then treeLine o (x ++ '/' :: dotH, true) else [] := by
  intro h
  split at h
  case isTrue =>
    obtain ⟨t', ht'⟩ := treeLine_dotH hx o
    have hquoted : quoted ['\''] x = x := if_neg hspace
    rw [ht', hquoted] at h
    rcases hs with rfl | rfl
    · have := List.append_cancel_left h
      simp at this
    · have := List.append_cancel_left h
      simp at this
  case isFalse =>
    rcases hs with rfl | rfl
    · simp at h
    · simp at h

/-- The tree shows a name that reads as an option word, and a lost letter. -/
theorem of_listsTree_nested {x : Str} (hx : LegalName x) (hdot : x ≠ ['.']) (hdots : x ≠ ['.', '.'])
    (hlen : x.length + 3 < 4096) {cmd : Str} {os : List Str} {operand : Option Str}
    (hos : ∀ a ∈ os, isDash a = true) (hk : Known revealLetter os)
    (ho : (revealFlags os).long = true) (hop : ∀ d ∈ operand, isDash d = false)
    (hhere : operand.getD ['.'] = ['.']) (hr : (revealFlags os).recurse = true)
    (hv : visible (revealFlags os) x = true)
    (h : ListsTree (nestedWorld x hx) cmd os operand (nested x)) :
    isDash x = false ∧ revealFlags (passedOn os operand) = revealFlags os := by
  have hne := ne_nil_of_long ho
  have hos' : ∀ a ∈ passedOn os operand, isDash a = true := fun a ha => hos a (mem_of_mem_passedOn ha)
  have hne' : passedOn os operand ≠ [] := passedOn_ne_nil hne
  have hk' : Known revealLetter (passedOn os operand) := fun a ha => hk a (mem_of_mem_passedOn ha)
  obtain ⟨n, hbelow⟩ := reveal_below hx hdot hdots hos hne hk ho hop hhere hr hv (by omega) h
  cases hdash : isDash x with
  | false =>
    refine ⟨rfl, ?_⟩
    obtain ⟨t, ht⟩ := @reveal_name x hx hdot cmd _ hos' hne' hk' hdash hlen n
    rw [ht] at hbelow
    exact flags_eq_of_text hr hasLetter_of_passedOn hbelow
  | true =>
    exfalso
    rcases @reveal_dash x hx cmd _ hos' hne' hdash (by omega) n with ⟨c, hc⟩ | ⟨hspace, t, ht⟩
    · rw [hc] at hbelow
      exact message_ne_line hx hdash _ hbelow
    · exact name_text_ne hx hspace _ ht hbelow

/-- A name that an entry of a directory can have. -/
structure EntryName (x : Str) : Prop where
  legal : LegalName x
  ne_dot : x ≠ ['.']
  ne_dots : x ≠ ['.', '.']
  short : x.length ≤ 255

/-- **Which calls of `reveal` list the tree**: for option words with the letters `a`
and `t` only and at least one of them, split, repeated and ordered in any way,
and at most one directory that does not start with `-`, and for every set of
names that directories right in the listed directory may have, the call prints
every tree with such names whose paths fit the buffer if and only if `t` is not
there, or another directory than `.` is given, or each of those names that is
listed does not start with `-` and the option words that the recursive calls
get have the same letters. -/
theorem reveal_tree_iff {cmd : Str} {os : List Str} {operand : Option Str} {names : Set Str}
    (hos : ∀ a ∈ os, isDash a = true) (hk : Known revealLetter os)
    (ho : (revealFlags os).long = true) (hop : ∀ d ∈ operand, isDash d = false)
    (hnames : ∀ x ∈ names, EntryName x) :
    (∀ (w : World) (es : List (Entry Str)), HasTree w (operand.getD ['.']) es →
      Fits (revealFlags os) (operand.getD ['.']) es →
      (∀ name es', .dir name es' ∈ es → name ∈ names) → ListsTree w cmd os operand es) ↔
    (revealFlags os).recurse = false ∨ operand.getD ['.'] ≠ ['.'] ∨
      ∀ x ∈ names, visible (revealFlags os) x = true →
        isDash x = false ∧ revealFlags (passedOn os operand) = revealFlags os := by
  constructor
  · intro h
    by_cases hr : (revealFlags os).recurse = true
    · by_cases hhere : operand.getD ['.'] = ['.']
      · -- the tree with one such directory tells
        refine .inr (.inr ?_)
        intro x hxn hv
        obtain ⟨hx, hdot, hdots, hshort⟩ := hnames x hxn
        have hlen : x.length + 3 < 4096 := by omega
        have hlists : ListsTree (nestedWorld x hx) cmd os operand (nested x) := by
          refine h _ _ ?_ ?_ ?_
          · rw [hhere]
            exact hasTree_nested hx hdot hdots
          · rw [hhere]
            exact fits_nested hx hdot hr hv hlen
          · intro name es' he
            cases List.mem_singleton.mp he
            exact hxn
        exact of_listsTree_nested hx hdot hdots hlen hos hk ho hop hhere hr hv hlists
      · exact .inr (.inl hhere)
    · exact .inl (by simpa using hr)
  · intro hcond w es htree hfit hdirs
    refine listsTree hos hk ho hop htree hfit ?_
    intro name es' he hv hr
    rcases hcond with hcond | hcond | hcond
    · rw [hcond] at hr
      cases hr
    · cases operand with
      | none => exact absurd rfl hcond
      | some dir => exact ⟨isDash_joinPath hcond (hop dir rfl), rfl⟩
    · obtain ⟨hdash, hflags⟩ := hcond name (hdirs name es' he) hv
      refine ⟨?_, hflags⟩
      by_cases hhere : operand.getD ['.'] = ['.']
      · rw [hhere]
        exact hdash
      · cases operand with
        | none => exact absurd rfl hhere
        | some dir => exact isDash_joinPath hhere (hop dir rfl)

/-- One option word with both letters, and `d` with a hidden directory in it. -/
theorem reveal_tree_one_word :
    ListsTree (nestedWorld ['d'] (by decide)) "reveal".toList ["-at".toList] none (nested ['d']) := by
  have hiff := @reveal_tree_iff "reveal".toList ["-at".toList] none {['d']} (by decide)
    (by decide) (by decide) (by simp) (by
      rintro x rfl
      exact ⟨by decide, by decide, by decide, by decide⟩)
  refine hiff.mpr (.inr (.inr ?_)) _ _ (hasTree_nested _ (by decide) (by decide)) ?_ ?_
  · rintro x rfl -
    exact ⟨by decide, by decide⟩
  · exact fits_nested (by decide) (by decide) (by decide) (by decide) (by decide)
  · intro name es' he
    cases List.mem_singleton.mp he
    rfl

/-- `-a -t`: the call for `d` has lost the `t`, and lists `d/.h` like a file. -/
theorem reveal_loses_letter :
    HasTree (nestedWorld ['d'] (by decide)) ['.'] (nested ['d']) ∧
      treeText (revealFlags ["-a".toList, "-t".toList]) ['.'] (nested ['d']) = "d/\nd/.h/\n".toList ∧
      reveal (nestedWorld ['d'] (by decide)) 9 ["reveal".toList, "-a".toList, "-t".toList] =
        "d/\nd/.h\n".toList ∧
      ¬ ListsTree (nestedWorld ['d'] (by decide)) "reveal".toList ["-a".toList, "-t".toList] none
        (nested ['d']) := by
  refine ⟨hasTree_nested _ (by decide) (by decide), ?_, ?_, ?_⟩
  · decide +kernel
  · decide +kernel
  · intro h
    have hflags := of_listsTree_nested (by decide) (by decide) (by decide) (by decide) (by decide)
      (by decide) (by decide) (by simp) rfl (by decide) (by decide) h
    exact absurd hflags.2 (by decide)

end Cshell
