/-
`spy` of `c-shell/src/bins.c`: the files that a process has open.

`spy` prints a table for one process: its working directory, its program, the
files that are mapped into its memory, each once, and its descriptors in
ascending order.  The targets of the links in `/proc` are all read into one
buffer, and only for the first two of them a terminator is put behind the text.

The code has the same body twice, for the shell itself and for the process
named by the operand; the second does not close the file of the mappings, so
that the shell has one descriptor less after it.

* `spy` — the text of a call, and the descriptors that are free after it;
* `fdRows_sorted` — the descriptors that are listed, and in which order;
* `path_iff` — exactly when the path in a descriptor's row is the link's target;
* `count_memRows` — how often a mapped file is listed;
* `spies_print` — what a series of calls prints, with a limited number of
  descriptors.
-/
import Mathlib.Data.List.Nodup
import CshellXv6.Lib.CBuffer
import CshellXv6.Lib.CString
import CshellXv6.Lib.InsertionSort
import CshellXv6.Lib.Lines
import CshellXv6.Lib.SeenTable
import CshellXv6.Shell.Frecency

namespace Cshell

namespace Spy

open CBuffer CString Lines

/-- The target of a symbolic link. -/
def Target := { t : Str // t ≠ [] ∧ '\x00' ∉ t }

/-- The bytes that `readlink` writes into a buffer of `PATH_MAX - 1`. -/
def Target.bytes (t : Target) : Str := t.val.take (PATH_MAX - 1)

/-- `st_mode`, as far as the macros tell it apart. -/
inductive Mode where
  | reg
  | dir
  | chr
  | blk
  | fifo
  | lnk
  | sock
  | other
  deriving DecidableEq

/-- What `/proc` says of a process; `fd` is in the order of `readdir`, and
`stat n` is what `stat` says of the link of descriptor `n`. -/
structure Proc where
  cwd : Option Target
  exe : Option Target
  maps : Option Str
  fd : Option (List Str)
  link : ℤ → Option Target
  stat : ℤ → Option Mode

/-- A row of the table, behind the process id. -/
structure Row where
  fd : Str
  type : Str
  path : Str
  deriving DecidableEq, Repr

/-- `printf("%d\t%s\t%s\t%s\n", ...)` -/
def Row.print (pid : ℤ) (r : Row) : Str :=
  signed pid ++ '\t' :: r.fd ++ '\t' :: r.type ++ '\t' :: r.path ++ ['\n']

/-- The rows `cwd` and `txt`: the link is read, the text is terminated and
printed. -/
def linkRow (fd type : String) (buff : Str) : Option Target → List Row × Str
  | none => ([], buff)
  | some t =>
    let buff := overlay buff t.bytes
    if 0 < t.bytes.length then
      let buff := buff.set t.bytes.length '\x00'
      ([⟨fd.toList, type.toList, text '\x00' buff⟩], buff)
    else ([], buff)

/-- The words of a line, as `%s` of `sscanf` takes them one after the other. -/
def words (line : Str) : List Str := line.splitOnP isSpace |>.filter (· ≠ [])

/-- The path in a line of `maps`, unless there is none or it is no file. -/
def mapped (line : Str) : Option Str :=
  match (words line)[5]? with
  | none => none
  | some path => if path.head? = some '[' then none else some path

/-- The files of `maps`, line by line. -/
def mappedFiles (maps : Str) : List Str := (fgets 9999 maps).filterMap mapped

/-- The rows `mem`, with a table of 512 paths that were printed. -/
def memRows (maps : Str) : List Row :=
  (SeenTable.pass 512 [] (mappedFiles maps)).map fun path => ⟨"mem".toList, "REG".toList, path⟩

/-- The number in the name of an entry of the descriptors' directory. -/
def fdNumber (name : Str) : Option ℤ :=
  if name.head? = some '.' then none
  else if (strtol name).2 ≠ [] then none
  else some (toInt (strtol name).1)

/-- `fds`, before it is sorted. -/
def fdNumbers (names : List Str) : List ℤ := (names.filterMap fdNumber).take 1024

/-- `fds`, sorted. -/
def sortedFds (names : List Str) : List ℤ :=
  InsertionSort.sort (fun x k => k < x) (fdNumbers names)

/-- The names of the types. -/
def typeName : Option Mode → String
  | some .reg => "REG"
  | some .dir => "DIR"
  | some .chr => "CHR"
  | some .blk => "BLK"
  | some .fifo => "FIFO"
  | some .lnk => "LNK"
  | some .sock => "SOCK"
  | some .other | none => "UNK"

/-- The loop over the descriptors. -/
def fdRows (p : Proc) : Str → List ℤ → List Row
  | _, [] => []
  | buff, n :: ns =>
    match p.link n with
    | none => fdRows p buff ns
    | some t =>
      let buff := overlay buff t.bytes
      ⟨signed n, (typeName (p.stat n)).toList, text '\x00' buff⟩ :: fdRows p buff ns

/-- The rows of a process.  A file or a directory can only be opened when one
of the shell's descriptors is free; `closes` says whether `maps` is closed. -/
def table (closes : Bool) (p : Proc) (free : ℕ) : List Row × ℕ :=
  let (cwd, buff) := linkRow "cwd" "DIR" (List.replicate PATH_MAX '\x00') p.cwd
  let (txt, buff) := linkRow "txt" "REG" buff p.exe
  let (mem, free) :=
    match p.maps with
    | some maps =>
      if 0 < free then (memRows maps, if closes then free else free - 1) else ([], free)
    | none => ([], free)
  let fds :=
    match p.fd with
    | some names => if 0 < free then fdRows p buff (sortedFds names) else []
    | none => []
  (cwd ++ txt ++ mem ++ fds, free)

/-- The system at a call: the shell's own process id, which processes
`kill(pid, 0)` does not find, and `/proc`. -/
structure World where
  self : ℤ
  gone : ℤ → Bool
  proc : ℤ → Option Proc

/-- The body for one process. -/
def spyPid (closes : Bool) (w : World) (pid : ℤ) (free : ℕ) : Str × ℕ :=
  if w.gone pid then ("spy: no such process\n".toList, free)
  else
    match w.proc pid with
    | none => ("spy: no such process\n".toList, free)
    | some p =>
      let (rows, free) := table closes p free
      ("PID\tFD\tTYPE\tPATH\n".toList ++ rows.flatMap (Row.print pid), free)

/-- `spy`, with `args` behind the command's name. -/
def spy (w : World) (args : List Str) (free : ℕ) : Str × ℕ :=
  match args with
  | [] => spyPid true w w.self free
  | [a] =>
    let (l, e) := strtol a
    if e ≠ [] ∨ l < 0 then ("spy: invalid pid\n".toList, free)
    else spyPid false w (toInt l) free
  | _ :: _ :: _ => ("spy: invalid syntax\n".toList, free)

/-! ### The descriptors -/

/-- The descriptors that get a row, with the targets of their links. -/
def shown (p : Proc) (ns : List ℤ) : List (ℤ × Target) :=
  ns.filterMap fun n => (p.link n).map (n, ·)

/-- The bytes that were read for the first `i` of them, in order. -/
def readBefore (p : Proc) (ns : List ℤ) (i : ℕ) : List Str :=
  ((shown p ns).take i).map fun x => x.2.bytes

variable {p : Proc} {buff : Str} {ns : List ℤ} {i : ℕ}

/-- The row of a descriptor, with what the buffer holds when its link is read. -/
theorem getElem?_fdRows : (fdRows p buff ns)[i]? = ((shown p ns)[i]?).map fun x =>
    ⟨signed x.1, (typeName (p.stat x.1)).toList,
      text '\x00' (overlay ((readBefore p ns i).foldl overlay buff) x.2.bytes)⟩ := by
  induction ns generalizing buff i with
  | nil => rfl
  | cons n ns ih =>
    cases hn : p.link n with
    | none =>
      have hshown : shown p (n :: ns) = shown p ns := List.filterMap_cons_none (by simp [hn])
      rw [fdRows, hn, readBefore, hshown]
      exact ih
    | some t =>
      have hshown : shown p (n :: ns) = (n, t) :: shown p ns :=
        List.filterMap_cons_some (by simp [hn])
      rw [fdRows, hn, readBefore, hshown]
      cases i with
      | zero => rfl
      | succ i =>
        rw [List.getElem?_cons_succ, List.getElem?_cons_succ, List.take_succ_cons, List.map_cons,
          List.foldl_cons]
        exact ih

theorem length_bytes (t : Target) : 0 < t.bytes.length ∧ t.bytes.length < PATH_MAX := by
  have hpos : 0 < t.val.length := List.length_pos_of_ne_nil t.property.1
  rw [Target.bytes, List.length_take, PATH_MAX]
  omega

theorem not_mem_bytes (t : Target) : '\x00' ∉ t.bytes :=
  fun h => t.property.2 (List.mem_of_mem_take h)

/-- What the rows `cwd` and `txt` leave in the buffer. -/
theorem getElem?_linkRow {fd type : String} {o : Option Target} (hb : buff.length = PATH_MAX)
    {k : ℕ} : (linkRow fd type buff o).2[k]? = some '\x00' ↔
      (∀ t ∈ o, t.bytes.length ≤ k) ∧ ((∃ t ∈ o, t.bytes.length = k) ∨ buff[k]? = some '\x00') := by
  cases o with
  | none => simp [linkRow]
  | some t =>
    obtain ⟨hpos, hlt⟩ := length_bytes t
    have hlen : (overlay buff t.bytes).length = PATH_MAX := by
      rw [length_overlay (by omega), hb]
    rw [linkRow, if_pos hpos]
    by_cases hk : t.bytes.length = k
    · subst hk
      rw [List.getElem?_set_self (by omega)]
      simp
    · rw [List.getElem?_set_ne hk, getElem?_overlay_iff (not_mem_bytes t)]
      simp [hk]

theorem length_linkRow {fd type : String} {o : Option Target} (hb : buff.length = PATH_MAX) :
    (linkRow fd type buff o).2.length = PATH_MAX := by
  cases o with
  | none => exact hb
  | some t =>
    obtain ⟨hpos, hlt⟩ := length_bytes t
    rw [linkRow, if_pos hpos, List.length_set, length_overlay (by omega), hb]

/-- The buffer when the loop over the descriptors begins. -/
def fdBuffer (p : Proc) : Str :=
  (linkRow "txt" "REG" (linkRow "cwd" "DIR" (List.replicate PATH_MAX '\x00') p.cwd).2 p.exe).2

theorem length_fdBuffer (p : Proc) : (fdBuffer p).length = PATH_MAX :=
  length_linkRow (length_linkRow List.length_replicate)

theorem getElem?_fdBuffer {k : ℕ} (hk : k < PATH_MAX) : (fdBuffer p)[k]? = some '\x00' ↔
    (∀ e ∈ p.exe, e.bytes.length ≤ k) ∧
      ((∃ e ∈ p.exe, e.bytes.length = k) ∨ ∀ c ∈ p.cwd, c.bytes.length ≤ k) := by
  have hzero : (List.replicate PATH_MAX '\x00')[k]? = some '\x00' := by
    rw [List.getElem?_replicate, if_pos hk]
  rw [fdBuffer, getElem?_linkRow (length_linkRow List.length_replicate),
    getElem?_linkRow List.length_replicate]
  simp [hzero]

/-- **Exactly when a path is right.**  The path in the row of a descriptor
starts with the target of its link.  It is the target exactly when the target
is no shorter than those of the descriptors before it, no shorter than the
program's path, and no shorter than the working directory's, this one but for
a target as long as the program's path: where an earlier text was longer, its
rest is printed behind. -/
theorem path_iff {n : ℤ} {t : Target} {r : Row} (ht : (shown p ns)[i]? = some (n, t))
    (hr : (fdRows p (fdBuffer p) ns)[i]? = some r) :
    t.bytes <+: r.path ∧
      (r.path = t.bytes ↔ (∀ b ∈ readBefore p ns i, b.length ≤ t.bytes.length) ∧
        (∀ e ∈ p.exe, e.bytes.length ≤ t.bytes.length) ∧
        ((∃ e ∈ p.exe, e.bytes.length = t.bytes.length) ∨
          ∀ c ∈ p.cwd, c.bytes.length ≤ t.bytes.length)) := by
  have hbefore : ∀ b ∈ readBefore p ns i, '\x00' ∉ b ∧ b.length < PATH_MAX := by
    intro b hb
    obtain ⟨x, -, rfl⟩ := List.mem_map.mp hb
    exact ⟨not_mem_bytes x.2, (length_bytes x.2).2⟩
  have hlen : ((readBefore p ns i).foldl overlay (fdBuffer p)).length = PATH_MAX := by
    rw [length_foldl_overlay, length_fdBuffer]
    intro b hb
    rw [length_fdBuffer]
    exact le_of_lt (hbefore b hb).2
  rw [getElem?_fdRows, ht, Option.map_some, Option.some_inj] at hr
  subst hr
  refine ⟨?_, ?_⟩
  · simp only [text_overlay (not_mem_bytes t)]
    exact List.prefix_append _ _
  · simp only
    rw [text_overlay_iff (not_mem_bytes t) (by rw [hlen]; exact (length_bytes t).2),
      getElem?_foldl_overlay fun b hb => (hbefore b hb).1, getElem?_fdBuffer (length_bytes t).2]

/-- A program in `/bin/sh` that has the file `/a` open. -/
def shProc : Proc where
  cwd := some ⟨"/".toList, by decide, by decide⟩
  exe := some ⟨"/bin/sh".toList, by decide, by decide⟩
  maps := some []
  fd := some ["0".toList]
  link _ := some ⟨"/a".toList, by decide, by decide⟩
  stat _ := some .reg

theorem path_iff_sh : ∃ r, (fdRows shProc (fdBuffer shProc) [0])[0]? = some r ∧
    "/a".toList <+: r.path ∧ r.path ≠ "/a".toList := by
  have hrow : (fdRows shProc (fdBuffer shProc) [0])[0]? = _ := getElem?_fdRows
  obtain ⟨hstart, hiff⟩ := path_iff (i := 0) (t := ⟨"/a".toList, by decide, by decide⟩) rfl hrow
  refine ⟨_, hrow, hstart, fun h => ?_⟩
  have := (hiff.mp h).2.1 ⟨"/bin/sh".toList, by decide, by decide⟩ rfl
  exact absurd this (by decide)

/-! ### Which descriptors are listed -/

theorem fdNumber_decimal {d : ℕ} (hd : d < 2 ^ 31) : fdNumber (decimal d) = some (d : ℤ) := by
  have hdot : (decimal d).head? ≠ some '.' := by
    intro h
    have hdigit := isDigit_of_mem_decimal (List.mem_of_mem_head? h)
    exact absurd hdigit (by decide)
  have hmin : min (d : ℤ) (2 ^ 63 - 1) = d := by omega
  have hint : toInt d = d := by
    rw [toInt, Int.bmod_def]
    omega
  rw [fdNumber, if_neg hdot, strtol_decimal, hmin, if_neg (by simp), hint]

/-- The names of a directory of descriptors: hidden ones, and the numbers. -/
def FdNames (names : List Str) (ds : List ℕ) : Prop :=
  names.filter (fun name => name.head? ≠ some '.') = ds.map decimal ∧ ds.Nodup ∧
    ∀ d ∈ ds, d < 2 ^ 31

variable {names : List Str} {ds : List ℕ}

theorem fdNumbers_eq (h : FdNames names ds) :
    fdNumbers names = (ds.take 1024).map (Nat.cast : ℕ → ℤ) := by
  obtain ⟨hnames, -, hlt⟩ := h
  have hskip : ∀ l : List Str, l.filterMap fdNumber =
      (l.filter (fun name => name.head? ≠ some '.')).filterMap fdNumber := by
    intro l
    rw [List.filterMap_filter]
    refine List.filterMap_congr fun name _ => ?_
    by_cases hdot : name.head? = some '.'
    · simp [fdNumber, hdot]
    · simp [hdot]
  rw [fdNumbers, hskip, hnames, List.filterMap_map, List.map_take]
  congr 1
  rw [← List.filterMap_eq_map]
  exact List.filterMap_congr fun d hd => fdNumber_decimal (hlt d hd)

theorem sortedFds_pairwise (h : FdNames names ds) :
    (sortedFds names).Pairwise (· < ·) ∧
      ∀ n, n ∈ sortedFds names ↔ ∃ d ∈ ds.take 1024, (d : ℤ) = n := by
  have hperm : (sortedFds names).Perm ((ds.take 1024).map (Nat.cast : ℕ → ℤ)) := by
    rw [← fdNumbers_eq h]
    exact InsertionSort.sort_perm _ _
  have hle : (sortedFds names).Pairwise (· ≤ ·) := by
    refine InsertionSort.sort_pairwise (fun a b c (hab : a ≤ b) hbc => hab.trans hbc) (fun x k hx => ?_) (fun x k hx => ?_) _
    · have : k < x := by simpa using hx
      exact le_of_lt this
    · simpa using hx
  have hnodup : (sortedFds names).Nodup := by
    rw [hperm.nodup_iff]
    exact (h.2.1.sublist (List.take_sublist _ _)).map Nat.cast_injective
  refine ⟨?_, fun n => ?_⟩
  · exact (List.pairwise_and_iff.mpr ⟨hle, hnodup⟩).imp fun hab => lt_of_le_of_ne hab.1 hab.2
  · rw [hperm.mem_iff, List.mem_map]

/-- The columns of a row that do not depend on the buffer. -/
theorem fdRows_map (p : Proc) (buff : Str) (ns : List ℤ) :
    (fdRows p buff ns).map (fun r => (r.fd, r.type)) =
      (ns.filter fun n => (p.link n).isSome).map fun n => (signed n, (typeName (p.stat n)).toList) := by
  induction ns generalizing buff with
  | nil => rfl
  | cons n ns ih =>
    cases hn : p.link n with
    | none =>
      rw [fdRows, hn, List.filter_cons_of_neg (by simp [hn])]
      exact ih buff
    | some t =>
      rw [fdRows, hn, List.filter_cons_of_pos (by simp [hn]), List.map_cons, List.map_cons]
      exact congrArg _ (ih _)

theorem signed_natCast (d : ℕ) : signed d = decimal d := by
  rw [signed, if_neg (by omega), Int.natAbs_natCast]

/-- **The descriptors in ascending order.**  There is a row for exactly those
of the first 1024 descriptors of the directory whose links can be read, each
once, ascending, with its number and its type. -/
theorem fdRows_sorted (h : FdNames names ds) (p : Proc) (buff : Str) :
    ∃ fs : List ℕ, fs.Pairwise (· < ·) ∧
      (∀ d, d ∈ fs ↔ d ∈ ds.take 1024 ∧ (p.link d).isSome) ∧
      (fdRows p buff (sortedFds names)).map (fun r => (r.fd, r.type)) =
        fs.map fun d => (decimal d, (typeName (p.stat d)).toList) := by
  obtain ⟨hpair, hmem⟩ := sortedFds_pairwise h
  have hcast : ∀ n ∈ sortedFds names, ((n.toNat : ℕ) : ℤ) = n := by
    intro n hn
    obtain ⟨d, -, rfl⟩ := (hmem n).mp hn
    rfl
  refine ⟨((sortedFds names).filter fun n => (p.link n).isSome).map Int.toNat, ?_, ?_, ?_⟩
  · rw [List.pairwise_map]
    refine (hpair.sublist List.filter_sublist).imp_of_mem fun ha hb hab => ?_
    have ha' := hcast _ (List.mem_of_mem_filter ha)
    have hb' := hcast _ (List.mem_of_mem_filter hb)
    omega
  · intro d
    rw [List.mem_map]
    constructor
    · rintro ⟨n, hn, rfl⟩
      rw [List.mem_filter] at hn
      obtain ⟨d, hd, rfl⟩ := (hmem n).mp hn.1
      exact ⟨hd, hn.2⟩
    · rintro ⟨hd, hl⟩
      exact ⟨d, List.mem_filter.mpr ⟨(hmem d).mpr ⟨d, hd, rfl⟩, hl⟩, rfl⟩
  · rw [fdRows_map, List.map_map]
    refine List.map_congr_left fun n hn => ?_
    have hn' := hcast n (List.mem_of_mem_filter hn)
    simp only [Function.comp_apply]
    rw [hn', ← signed_natCast, hn']

theorem fdRows_sorted_two : ∃ fs : List ℕ, fs.Pairwise (· < ·) ∧
    (∀ d, d ∈ fs ↔ d ∈ [10, 2].take 1024 ∧ (shProc.link d).isSome) ∧
    (fdRows shProc [] (sortedFds [".".toList, "10".toList, "2".toList])).map
      (fun r => (r.fd, r.type)) =
        fs.map fun d => (decimal d, (typeName (shProc.stat d)).toList) :=
  fdRows_sorted ⟨by decide, by decide, by decide⟩ shProc []

/-! ### The mapped files -/

/-- **Each mapped file once, up to 512.**  The rows follow the lines of `maps`;
each of the first 512 files has one row, any other as many as it has lines. -/
theorem count_memRows (maps path : Str) :
    ((memRows maps).map Row.path).Sublist (mappedFiles maps) ∧
      ((memRows maps).map Row.path).count path =
        if path ∈ (mappedFiles maps).eraseDups.take 512 then 1
        else (mappedFiles maps).count path := by
  have hpath : (memRows maps).map Row.path = SeenTable.pass 512 [] (mappedFiles maps) := by
    rw [memRows, List.map_map]
    exact List.map_id _
  rw [hpath, SeenTable.count_pass, SeenTable.table_eq]
  exact ⟨SeenTable.pass_sublist, rfl⟩

/-! ### A series of calls -/

/-- The calls, each with the system as it finds it: their texts, and the
descriptors that are free in the end. -/
def spies : List (World × List Str) → ℕ → List Str × ℕ
  | [], free => ([], free)
  | c :: cs, free =>
    let (out, free) := spy c.1 c.2 free
    let (outs, free) := spies cs free
    (out :: outs, free)

/-- How many descriptors the body for another process leaves open. -/
def leak (w : World) (pid : ℤ) : ℕ :=
  if !w.gone pid && ((w.proc pid).bind Proc.maps).isSome then 1 else 0

/-- How many descriptors a call leaves open: the body for the shell itself
leaves none. -/
def leaked (c : World × List Str) : ℕ :=
  match c.2 with
  | [a] => if (strtol a).2 ≠ [] ∨ (strtol a).1 < 0 then 0 else leak c.1 (toInt (strtol a).1)
  | _ => 0

/-- No call needs more than two descriptors. -/
theorem table_enough (closes : Bool) (p : Proc) {free : ℕ} (h : 2 ≤ free) :
    (table closes p free).1 = (table closes p 2).1 := by
  have hpos : 0 < free := by omega
  have hleft : 0 < free - 1 := by omega
  cases hm : p.maps with
  | none =>
    cases hf : p.fd with
    | none => simp [table, hm, hf]
    | some names => simp [table, hm, hf, hpos]
  | some maps =>
    cases hf : p.fd with
    | none => simp [table, hm, hf, hpos]
    | some names =>
      cases closes with
      | true => simp [table, hm, hf, hpos]
      | false => simp [table, hm, hf, hpos, hleft]

theorem table_free (closes : Bool) (p : Proc) (free : ℕ) :
    (table closes p free).2 = free - if !closes && p.maps.isSome then 1 else 0 := by
  cases hm : p.maps with
  | none => simp [table, hm]
  | some maps =>
    by_cases hfree : 0 < free
    · cases closes with
      | true => simp [table, hm, hfree]
      | false => simp [table, hm, hfree]
    · obtain rfl : free = 0 := by omega
      simp [table, hm]

theorem spyPid_enough (closes : Bool) (w : World) (pid : ℤ) {free : ℕ} (h : 2 ≤ free) :
    (spyPid closes w pid free).1 = (spyPid closes w pid 2).1 := by
  unfold spyPid
  split
  · rfl
  · split
    · rfl
    · rename_i p _
      simp only [table_enough closes p h]

theorem spyPid_free (closes : Bool) (w : World) (pid : ℤ) (free : ℕ) :
    (spyPid closes w pid free).2 = free - if closes then 0 else leak w pid := by
  unfold spyPid leak
  split
  · rename_i hgone
    simp [hgone]
  · rename_i hgone
    split
    · rename_i hp
      simp [hp]
    · rename_i p hp
      rw [table_free]
      cases closes <;> simp [hgone, hp]

theorem spy_enough (w : World) (args : List Str) {free : ℕ} (h : 2 ≤ free) :
    (spy w args free).1 = (spy w args 2).1 := by
  unfold spy
  split
  · exact spyPid_enough true w _ h
  · split
    split
    · rfl
    · exact spyPid_enough false w _ h
  · rfl

theorem spy_free (w : World) (args : List Str) (free : ℕ) :
    (spy w args free).2 = free - leaked (w, args) := by
  unfold spy leaked
  split
  · exact spyPid_free true w _ free
  · simp only
    split
    · rfl
    · exact spyPid_free false w _ free
  · rfl

/-- What a call finds free is what the calls before it have left. -/
theorem getElem?_spies (cs : List (World × List Str)) (free i : ℕ) :
    (spies cs free).1[i]? =
      cs[i]?.map fun c => (spy c.1 c.2 (free - ((cs.take i).map leaked).sum)).1 := by
  induction cs generalizing free i with
  | nil => rfl
  | cons c cs ih =>
    cases i with
    | zero => rfl
    | succ i =>
      simp only [spies, List.getElem?_cons_succ, List.take_succ_cons, List.map_cons, List.sum_cons]
      rw [ih, spy_free, Nat.sub_sub]

/-- **Each `spy` of a process costs a descriptor.**  In a series of calls, a
call prints all it would print with descriptors in abundance as long as two are
left by the calls before it that named a process; when none is left, it prints
no more than with no descriptor at all, the rows `cwd` and `txt`. -/
theorem spies_print (cs : List (World × List Str)) (free i : ℕ) (c : World × List Str)
    (hc : cs[i]? = some c) :
    (((cs.take i).map leaked).sum + 2 ≤ free →
      (spies cs free).1[i]? = some (spy c.1 c.2 2).1) ∧
    (free ≤ ((cs.take i).map leaked).sum →
      (spies cs free).1[i]? = some (spy c.1 c.2 0).1) := by
  rw [getElem?_spies, hc, Option.map_some]
  constructor
  · intro h
    rw [spy_enough c.1 c.2 (by omega)]
  · intro h
    rw [Nat.sub_eq_zero_of_le h]

/-- A shell with three free descriptors that looks at the same process twice. -/
theorem spies_print_twice :
    ((spies [(⟨1, fun _ => false, fun _ => some shProc⟩, ["1".toList]),
        (⟨1, fun _ => false, fun _ => some shProc⟩, ["1".toList])] 3).1[1]? =
      some (spy ⟨1, fun _ => false, fun _ => some shProc⟩ ["1".toList] 2).1) :=
  (spies_print _ 3 1 (⟨1, fun _ => false, fun _ => some shProc⟩, ["1".toList]) rfl).1 (by decide)

end Spy

end Cshell
