/-
The frecency table (`search` and `update` of `c-shell/src/bins.c`).

The table is a text file with a row for each directory.  `update` loads it,
counts a visit and writes it again; `search` goes over its rows.  Both read
with `fgets` and `sscanf` and pass over a row that does not give all three
values.  A score is an `int` and a stamp a `long`, which wrap around; the rank
is a `double` in the source and exact here.

The format has no escape: the path ends at the first quote, and a row at the
first newline.

* `updateTable`, `searchTable` — the two functions on the table;
* `scanRow_printRow`, `path_of_scanRow` — which rows are read back;
* `round_trip_iff` — exactly which tables are read back.
-/
import Mathlib.Data.List.Infix
import Mathlib.Data.Rat.Defs
import Mathlib.Algebra.Order.Field.Rat
import CshellXv6.Lib.CString
import CshellXv6.Lib.Lines
import CshellXv6.Shell.Lexer

namespace Cshell

open CString Lines

/-- `struct element`. -/
structure Element where
  path : Str
  score : Int32
  stamp : Int64
  deriving DecidableEq

/-! ### The file -/

/-- `fprintf` of a row, without the newline. -/
def printRow (e : Element) : Str :=
  "\x7bp:\"".toList ++ (e.path ++ ("\",s:\"".toList ++ (signed e.score.toInt ++
    ("\",t:\"".toList ++ (signed e.stamp.toInt ++ "\"\x7d".toList)))))

def printTable (t : List Element) : Str := unlines (t.map printRow)

/-- The text of a format of `sscanf`. -/
def literal (l s : Str) : Option Str := if l <+: s then some (s.drop l.length) else none

/-- `sscanf` of a row; `none` unless all three values are read.  What follows the last
value makes no difference. -/
def scanRow (line : Str) : Option Element := do
  let s ← literal "\x7bp:\"".toList line
  -- `%[^"]` reads at least one character
  let path := s.takeWhile (· ≠ '"')
  if path = [] then none
  else
    let s ← literal "\",s:\"".toList (s.dropWhile (· ≠ '"'))
    let (score, s) ← scanInt s
    let s ← literal "\",t:\"".toList s
    let (stamp, _) ← scanInt s
    return ⟨path, .ofInt score, .ofInt stamp⟩

/-- `PATH_MAX`. -/
def PATH_MAX : ℕ := 4096

/-- The rows of a file, as `search` reads them. -/
def readRows (file : Str) : List Element := (fgets (PATH_MAX + 100) file).filterMap scanRow

/-- The rows that `update` loads: it stops at 100. -/
def loadTable (file : Str) : List Element := (readRows file).take 100

/-! ### Ranks -/

/-- `score / ((age / 12813) / 11 + 1)`. -/
def rank (now : Int64) (e : Element) : ℚ :=
  (e.score.toInt : ℚ) / (((now.toInt - e.stamp.toInt : ℤ) : ℚ) / 12813 / 11 + 1)

/-- `DBL_MAX`. -/
def DBL_MAX : ℚ := (2 ^ 53 - 1) * 2 ^ 971

/-! ### `update` -/

/-- The index that `update` keeps while it loads: `minRank` and `min` are the smallest
rank so far and its index, `count` the index of the next row. -/
def loadMin (now : Int64) : ℚ → ℕ → ℕ → List Element → ℕ
  | _, min, _, [] => min
  | minRank, min, count, e :: es =>
    if rank now e < minRank then loadMin now (rank now e) count (count + 1) es
    else loadMin now minRank min (count + 1) es

/-- `update` between the load and the write. -/
def updateTable (now : Int64) (path : Str) (t : List Element) : List Element :=
  match t.findIdx? (·.path = path) with
  | some found => t.modify found fun e => { e with score := e.score + 1, stamp := now }
  | none =>
    if t.length < 100 then t ++ [⟨path, 1, now⟩]
    else t.set (loadMin now DBL_MAX 0 0 t) ⟨path, 1, now⟩

/-- `update`: the file it writes. -/
def update (now : Int64) (path file : Str) : Str := printTable (updateTable now path (loadTable file))

/-! ### `search` -/

/-- What `strrchr` leaves of a path: its last component. -/
def lastComponent (path : Str) : Str := (path.reverse.takeWhile (· ≠ '/')).reverse

/-- The variables of the loop of `search`. -/
structure Search where
  maxRank : ℚ := -1
  matched : Option Str := none
  maxRankBk : ℚ := -1
  matchedBk : Option Str := none

/-- One row: the query must be in the path of an existing directory; if it is in the
last component the row competes for `matched` as well. -/
def searchRow (now : Int64) (isDir : Str → Bool) (query : Str) (s : Search) (e : Element) : Search :=
  if query <:+: e.path ∧ isDir e.path = true then
    let r := rank now e
    -- `strstr(base, path)`
    let s := if query <:+: lastComponent e.path ∧ s.maxRank < r then
      { s with maxRank := r, matched := some e.path } else s
    if s.maxRankBk < r then { s with maxRankBk := r, matchedBk := some e.path } else s
  else s

/-- `search` on the rows; `none` when it returns false. -/
def searchTable (now : Int64) (isDir : Str → Bool) (query : Str) (t : List Element) : Option Str :=
  let s := t.foldl (searchRow now isDir query) {}
  s.matched.or s.matchedBk

/-- `search`. -/
def search (now : Int64) (isDir : Str → Bool) (query file : Str) : Option Str :=
  searchTable now isDir query (readRows file)

/-! ### Which rows are read back -/

theorem literal_append (l s : Str) : literal l (l ++ s) = some s := by
  rw [literal, if_pos (List.prefix_append l s), List.drop_left]

theorem eq_of_literal {l s r : Str} (h : literal l s = some r) : s = l ++ r := by
  unfold literal at h
  split at h
  case isTrue hp =>
    obtain ⟨t, rfl⟩ := hp
    rw [List.drop_left] at h
    cases h
    rfl
  case isFalse => cases h

/-- A path without a quote is read up to the quote. -/
theorem takeWhile_path {p : Str} (hp : '"' ∉ p) (s : Str) :
    (p ++ '"' :: s).takeWhile (· ≠ '"') = p ∧ (p ++ '"' :: s).dropWhile (· ≠ '"') = '"' :: s := by
  have hall : ∀ c ∈ p, decide (c ≠ '"') = true := by
    intro c hc
    have hne : c ≠ '"' := fun e => hp (e ▸ hc)
    simpa using hne
  rw [List.takeWhile_append_of_pos hall, List.dropWhile_append_of_pos hall]
  simp

theorem scanInt_int32 (x : Int32) {rest : Str} (hr : ∀ c ∈ rest.head?, c.isDigit = false) :
    scanInt (signed x.toInt ++ rest) = some (x.toInt, rest) := by
  have hlo := x.le_toInt
  have hhi := x.toInt_lt
  exact scanInt_signed (by omega) (by omega) hr

theorem scanInt_int64 (x : Int64) {rest : Str} (hr : ∀ c ∈ rest.head?, c.isDigit = false) :
    scanInt (signed x.toInt ++ rest) = some (x.toInt, rest) :=
  scanInt_signed x.le_toInt x.toInt_lt hr

/-- **A row whose path has no quote is read back.** -/
theorem scanRow_printRow {e : Element} (hne : e.path ≠ []) (hq : '"' ∉ e.path) (rest : Str) :
    scanRow (printRow e ++ rest) = some e := by
  have hscore : scanInt (signed e.score.toInt ++ ("\",t:\"".toList ++ (signed e.stamp.toInt ++
      ("\"\x7d".toList ++ rest)))) = some (e.score.toInt, "\",t:\"".toList ++
        (signed e.stamp.toInt ++ ("\"\x7d".toList ++ rest))) :=
    scanInt_int32 e.score (fun c hc => by cases hc; rfl)
  have hstamp : scanInt (signed e.stamp.toInt ++ ("\"\x7d".toList ++ rest)) =
      some (e.stamp.toInt, "\"\x7d".toList ++ rest) :=
    scanInt_int64 e.stamp (fun c hc => by cases hc; rfl)
  obtain ⟨htake, hdrop⟩ := takeWhile_path hq (",s:\"".toList ++ (signed e.score.toInt ++
    ("\",t:\"".toList ++ (signed e.stamp.toInt ++ ("\"\x7d".toList ++ rest)))))
  have hquote : ∀ s : Str, '"' :: (",s:\"".toList ++ s) = "\",s:\"".toList ++ s := fun _ => rfl
  rw [hquote] at htake hdrop
  simp only [scanRow, printRow, List.append_assoc, literal_append, Option.bind_eq_bind,
    Option.bind_some, htake, hdrop, if_neg hne, hscore, hstamp, Option.pure_def,
    Int32.ofInt_toInt, Int64.ofInt_toInt]

/-- A path that is read has no quote, and is not the end of its row. -/
theorem path_of_scanRow {line : Str} {e : Element} (h : scanRow line = some e) :
    '"' ∉ e.path ∧ ∀ c ∈ e.path, c ∈ line.dropLast := by
  unfold scanRow at h
  obtain ⟨s, hs, h⟩ := Option.bind_eq_some_iff.mp h
  dsimp only at h
  split at h
  case isTrue => cases h
  case isFalse =>
    obtain ⟨s₁, hs₁, h⟩ := Option.bind_eq_some_iff.mp h
    obtain ⟨⟨score, s₂⟩, -, h⟩ := Option.bind_eq_some_iff.mp h
    obtain ⟨s₃, -, h⟩ := Option.bind_eq_some_iff.mp h
    obtain ⟨⟨stamp, s₄⟩, -, h⟩ := Option.bind_eq_some_iff.mp h
    cases h
    refine ⟨?_, ?_⟩
    · intro hm
      simpa using List.mem_takeWhile_imp hm
    · intro c hc
      -- the text after the path is not empty, so the row goes on after it
      have hsplit : line = "\x7bp:\"".toList ++ (s.takeWhile (· ≠ '"') ++
          ("\",s:\"".toList ++ s₁)) := by
        rw [eq_of_literal hs, ← eq_of_literal hs₁, List.takeWhile_append_dropWhile]
      have hlast : line.dropLast = "\x7bp:\"".toList ++ (s.takeWhile (· ≠ '"') ++
          ("\",s:\"".toList ++ s₁).dropLast) := by
        rw [hsplit, List.dropLast_append_of_ne_nil (by simp), List.dropLast_append_of_ne_nil (by simp)]
      rw [hlast]
      exact List.mem_append_right _ (List.mem_append_left _ hc)

theorem length_signed_le {v : ℤ} {k : ℕ} (hk : 0 < k) (h : v.natAbs < 10 ^ k) :
    (signed v).length ≤ k + 1 := by
  have hd : (decimal v.natAbs).length ≤ k := (Nat.length_toDigits_le_iff (by omega) hk).mpr h
  unfold signed
  split
  · rw [List.length_cons]
    omega
  · omega

/-- The buffer of `fgets` is large enough for a row. -/
theorem length_printRow {e : Element} (h : e.path.length < PATH_MAX) :
    (printRow e).length + 1 < PATH_MAX + 100 := by
  have hscore : (signed e.score.toInt).length ≤ 10 + 1 := by
    have hlo := e.score.le_toInt
    have hhi := e.score.toInt_lt
    exact length_signed_le (by omega) (by omega)
  have hstamp : (signed e.stamp.toInt).length ≤ 19 + 1 := by
    have hlo := e.stamp.le_toInt
    have hhi := e.stamp.toInt_lt
    exact length_signed_le (by omega) (by omega)
  have h₁ : "\x7bp:\"".toList.length = 4 := rfl
  have h₂ : "\",s:\"".toList.length = 5 := rfl
  have h₃ : "\",t:\"".toList.length = 5 := rfl
  have h₄ : "\"\x7d".toList.length = 2 := rfl
  simp only [printRow, List.length_append, h₁, h₂, h₃, h₄]
  omega

theorem newline_not_mem_printRow {e : Element} (h : '\n' ∉ e.path) : '\n' ∉ printRow e := by
  have hscore : '\n' ∉ signed e.score.toInt := not_mem_signed (by decide) (by decide) _
  have hstamp : '\n' ∉ signed e.stamp.toInt := not_mem_signed (by decide) (by decide) _
  simp only [printRow, List.mem_append, not_or]
  exact ⟨by decide, h, by decide, hscore, by decide, hstamp, by decide⟩

/-! ### Which tables are read back -/

/-- A directory path: absolute, without a NUL, shorter than `PATH_MAX`. -/
structure LegalPath (p : Str) : Prop where
  absolute : p.head? = some '/'
  noNul : '\x00' ∉ p
  short : p.length < PATH_MAX

theorem LegalPath.ne_nil {p : Str} (h : LegalPath p) : p ≠ [] := by
  rintro rfl
  cases h.absolute

/-- No row is read with a quote or a newline in its path. -/
theorem path_of_mem_readRows {file : Str} {e : Element} (h : e ∈ readRows file) :
    '"' ∉ e.path ∧ '\n' ∉ e.path := by
  obtain ⟨line, hline, hrow⟩ := List.mem_filterMap.mp h
  obtain ⟨hq, hlast⟩ := path_of_scanRow hrow
  exact ⟨hq, fun hm => newline_of_mem_fgets hline (hlast _ hm)⟩

/-- A table whose paths have neither is read back row by row. -/
theorem readRows_printTable {t : List Element} (hl : ∀ e ∈ t, LegalPath e.path)
    (hq : ∀ e ∈ t, '"' ∉ e.path ∧ '\n' ∉ e.path) : readRows (printTable t) = t := by
  induction t with
  | nil => rfl
  | cons e t ih =>
    obtain ⟨hquote, hnew⟩ := hq e List.mem_cons_self
    have hlegal := hl e List.mem_cons_self
    have hrest : readRows (printTable t) = t :=
      ih (fun x hx => hl x (List.mem_cons_of_mem e hx)) fun x hx => hq x (List.mem_cons_of_mem e hx)
    have hfirst : fgets (PATH_MAX + 100) (printTable (e :: t)) =
        (printRow e ++ ['\n']) :: fgets (PATH_MAX + 100) (printTable t) := by
      rw [printTable, List.map_cons, unlines_cons]
      exact fgets_line (newline_not_mem_printRow hnew) (length_printRow hlegal.short) _
    rw [readRows, hfirst, List.filterMap_cons, scanRow_printRow hlegal.ne_nil hquote]
    exact congrArg (e :: ·) hrest

/-- **Which tables are read back**: for every table of at most 100 legal paths,
what `update` and `search` read of the file that `update` writes for it is the
table again if and only if no path has a quote or a newline. -/
theorem round_trip_iff {t : List Element} (hlen : t.length ≤ 100)
    (hl : ∀ e ∈ t, LegalPath e.path) :
    (loadTable (printTable t) = t ∧ readRows (printTable t) = t) ↔
      ∀ e ∈ t, '"' ∉ e.path ∧ '\n' ∉ e.path := by
  constructor
  · rintro ⟨-, h⟩ e he
    rw [← h] at he
    exact path_of_mem_readRows he
  · intro hq
    have h := readRows_printTable hl hq
    rw [loadTable, h]
    exact ⟨List.take_of_length_le hlen, rfl⟩

/-- A row with a blank, a comma and a brace in its path. -/
theorem round_trip_braces :
    loadTable (printTable [⟨"/a b,\x7dc".toList, 3, -7⟩]) = [⟨"/a b,\x7dc".toList, 3, -7⟩] ∧
      readRows (printTable [⟨"/a b,\x7dc".toList, 3, -7⟩]) = [⟨"/a b,\x7dc".toList, 3, -7⟩] :=
  (round_trip_iff (by decide) (by
    intro e he
    rw [List.mem_singleton] at he
    subst he
    exact ⟨rfl, by decide, by decide⟩)).mpr (by decide)

/-- The directory `/a"b`: its row is read as nothing. -/
theorem quote_lost : LegalPath "/a\"b".toList ∧
    loadTable (printTable [⟨"/a\"b".toList, 1, 0⟩]) = [] ∧
    readRows (printTable [⟨"/a\"b".toList, 1, 0⟩]) = [] := by
  refine ⟨⟨rfl, by decide, by decide⟩, ?_, ?_⟩
  · decide +kernel
  · decide +kernel

end Cshell
