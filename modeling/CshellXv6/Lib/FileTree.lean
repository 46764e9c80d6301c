/-
Trees of files and directories.

A directory is the list of its entries, in the order in which they are read.
Paths are whatever `join` makes of the path of a directory and a name, so that
they can be printed and looked up as a program writes them.

* `preorder` — the entries from a directory on, each before those below it;
* `Found` — a file system has the tree at a path.
-/
import Mathlib.Data.List.Basic

namespace FileTree

/-- An entry of a directory. -/
inductive Entry (N : Type) where
  | file (name : N)
  | dir (name : N) (entries : List (Entry N))

variable {N P : Type}

namespace Entry

def name : Entry N → N
  | file n => n
  | dir n _ => n

def isDir : Entry N → Bool
  | file _ => false
  | dir _ _ => true

end Entry

/-! ### Heights -/

mutual

/-- How many directories are nested in an entry. -/
def Entry.height : Entry N → ℕ
  | .file _ => 0
  | .dir _ es => heights es + 1

def heights : List (Entry N) → ℕ
  | [] => 0
  | e :: es => max e.height (heights es)

end

theorem height_le {es : List (Entry N)} {e : Entry N} (h : e ∈ es) : e.height ≤ heights es := by
  induction es with
  | nil => cases h
  | cons x es ih =>
    rw [heights]
    rcases List.mem_cons.mp h with rfl | h
    · exact Nat.le_max_left _ _
    · exact Nat.le_trans (ih h) (Nat.le_max_right _ _)

/-! ### Traversal -/

section Traversal

variable (join : P → N → P) (shown : N → Bool) (deep : Bool)

mutual

/-- The entry with its path, if it is shown; with `deep`, followed by those below. -/
def Entry.visit (p : P) : Entry N → List (P × Bool)
  | .file n => if shown n then [(join p n, false)] else []
  | .dir n es =>
    if shown n then (join p n, true) :: if deep then preorder (join p n) es else [] else []

/-- The entries in their order, each with its path and whether it is a directory. -/
def preorder (p : P) : List (Entry N) → List (P × Bool)
  | [] => []
  | e :: es => Entry.visit p e ++ preorder p es

end

theorem preorder_eq_flatMap (p : P) (es : List (Entry N)) :
    preorder join shown deep p es = es.flatMap (Entry.visit join shown deep p) := by
  induction es with
  | nil => rfl
  | cons e es ih => rw [preorder, ih, List.flatMap_cons]

variable {join shown deep}

theorem Entry.visit_of_not_shown {e : Entry N} (h : ¬ shown e.name = true) (p : P) :
    Entry.visit join shown deep p e = [] := by
  cases e with
  | file n => exact if_neg h
  | dir n es => exact if_neg h

end Traversal

/-! ### File systems -/

section Found

variable (join : P → N → P) (isDir : P → Bool) (lists : P → List N → Prop)

mutual

/-- The entry stands below `p`, with everything in it. -/
def Entry.Found (p : P) : Entry N → Prop
  | .file n => isDir (join p n) = false
  | .dir n es =>
    isDir (join p n) = true ∧ lists (join p n) (es.map Entry.name) ∧ AllFound (join p n) es

def AllFound (p : P) : List (Entry N) → Prop
  | [] => True
  | e :: es => Entry.Found p e ∧ AllFound p es

end

/-- The directory `p` has these entries, with everything in them. -/
def Found (p : P) (es : List (Entry N)) : Prop :=
  lists p (es.map Entry.name) ∧ AllFound join isDir lists p es

variable {join isDir lists}

theorem AllFound.of_mem {p : P} {es : List (Entry N)} (h : AllFound join isDir lists p es)
    {e : Entry N} (he : e ∈ es) : Entry.Found join isDir lists p e := by
  induction es with
  | nil => cases he
  | cons x es ih =>
    rw [AllFound] at h
    rcases List.mem_cons.mp he with rfl | he
    · exact h.1
    · exact ih h.2 he

end Found

end FileTree
