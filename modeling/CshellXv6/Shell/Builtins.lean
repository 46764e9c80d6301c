/-
`reveal`, `locate` and `peek` of `c-shell/src/bins.c`: the text they print.

A builtin gets its argument vector, the command's name in front, and sees the
files from the working directory, standard input and `PATH`.  `scandir` gives
the names in the order of `alphasort`; standard input is the list of what is
read up to one end of file after the other, as `peek` clears the end-of-file
mark and a terminal can deliver more.

`reveal` calls itself for the directories below, and an entry whose name looks
like an option can make it do so for ever.  The model gets the depth up to
which calls are nested; deeper ones print nothing.

* `reveal`, `locate`, `peek` — the text of a call;
* `readBack` — the loop of `peek -r` that reads a file from its end in chunks.
-/
import Mathlib.Data.List.Infix
import CshellXv6.Lib.CString
import CshellXv6.Lib.Lines
import CshellXv6.Lib.Options
import CshellXv6.Shell.ProcessCmd

namespace Cshell

/-- The name of a directory entry. -/
def LegalName (x : Str) : Prop := x ≠ [] ∧ '/' ∉ x ∧ '\x00' ∉ x

instance (x : Str) : Decidable (LegalName x) := inferInstanceAs (Decidable (_ ∧ _))

/-- What a builtin sees.  `contents` is `none` for a file that does not open,
`isExec` the test for a regular file with `X_OK`. -/
structure World where
  scandir : Str → Option (List Str)
  isDir : Str → Bool
  contents : Str → Option Str
  isExec : Str → Bool
  cwd : Home
  path : Option Str
  stdin : List Str
  names : ∀ d l, scandir d = some l → ∀ x ∈ l, LegalName x

theorem root_absolute : (['/'] : Str).head? = some '/' := rfl

/-- A world without directories has no names to be legal. -/
theorem names_of_none (_d : Str) (l : List Str) (h : (none : Option (List Str)) = some l) :
    ∀ x ∈ l, LegalName x := by
  cases h

/-- `snprintf` into a buffer of `PATH_MAX` characters. -/
def pathBuffer (s : Str) : Str := s.take 4095

theorem pathBuffer_of_lt {s : Str} (h : s.length < 4096) : pathBuffer s = s :=
  List.take_of_length_le (Nat.le_of_lt_succ h)

/-- The message for an unknown letter; `cmd` is the name the builtin gives itself. -/
def invalidOption (cmd : Str) (c : Char) : Str := cmd ++ ": invalid option ".toList ++ [c, '\n']

/-! ### reveal -/

structure RevealFlags where
  hidden : Bool
  recurse : Bool
  deriving DecidableEq, Repr

/-- The letters of `reveal`. -/
def revealLetter : Char → Option (RevealFlags → RevealFlags) :=
  OptionWords.twoLetters 'a' 't' (fun o => { o with hidden := true })
    fun o => { o with recurse := true }

def noSuchDirectory : Str := "reveal: no such directory\n".toList

def revealSyntax : Str := "reveal: invalid syntax\n".toList

/-- The entries that are passed over. -/
def RevealFlags.skips (o : RevealFlags) (name : Str) : Bool :=
  (!o.hidden && name.head? = some '.') || name = ['.'] || name = ['.', '.']

def RevealFlags.shown (o : RevealFlags) (names : List Str) : List Str :=
  names.filter fun x => !o.skips x

/-- One entry to a line, with its path. -/
def RevealFlags.long (o : RevealFlags) : Bool := o.recurse || o.hidden

def entryPath (dir name : Str) : Str :=
  pathBuffer <|
    if dir = ['.'] then name
    else if dir.getLast? = some '/' then dir ++ name
    else dir ++ '/' :: name

/-- The loop over the segments of a path: those with a space are put in quotes,
where `close` is the closing one. -/
def segments (close path : Str) : Str :=
  ['/'].intercalate
    ((path.splitOn '/').map fun s => if ' ' ∈ s then '\'' :: s ++ close else s)

/-- A name in the listing of a call with one argument. -/
def spacedName (name : Str) : Str :=
  if ' ' ∈ name then '\'' :: name ++ "' ".toList else name ++ [' ']

/-- A name in that of a call with more: no space after it, and the quote closed
twice. -/
def joinedName (name : Str) : Str := segments "''".toList name

/-- The line of an entry, `plain` the format of the short listing. -/
def entryText (o : RevealFlags) (plain : Str → Str) (isDir : Bool) (path name : Str) : Str :=
  if o.long then segments ['\''] path ++ (if isDir && o.recurse then ['/'] else []) ++ ['\n']
  else plain name

/-- The loop over the entries of `dir`; `again` is the recursive call. -/
def entries (w : World) (o : RevealFlags) (plain : Str → Str) (again : Str → Str) (dir : Str)
    (names : List Str) : Str :=
  (o.shown names).flatMap fun name =>
    let path := entryPath dir name
    entryText o plain (w.isDir path) path name ++
      if o.recurse && w.isDir path then again path else []

/-- `scandir`, the loop and the newline after a short listing. -/
def listing (w : World) (o : RevealFlags) (plain : Str → Str) (again : Str → Str) (dir : Str) :
    Str :=
  match w.scandir dir with
  | none => noSuchDirectory
  | some names => entries w o plain again dir names ++ if o.long then [] else ['\n']

/-- `reveal(args, len)`, with calls nested at most `depth` deep. -/
def reveal (w : World) (depth : ℕ) (args : List Str) : Str :=
  match depth with
  | 0 => []
  | depth + 1 =>
    match OptionWords.words revealLetter isDash args.tail ⟨false, false⟩ with
    | .error c => invalidOption "cshell".toList c
    | .ok (o, rest) =>
      match args with
      | [] | [_] => ['\n']
      | [cmd, a] =>
        listing w o spacedName (fun path => reveal w depth [cmd, a, path]) (rest.headD ['.'])
      | _ :: _ :: _ :: _ =>
        -- with option words only, the last of them gives way to the path
        let again := fun path => reveal w depth (args.dropLast ++ [path])
        match rest with
        | [] => listing w o joinedName again ['.']
        | [dir] => listing w o joinedName again dir
        | _ :: _ :: _ => revealSyntax

/-! ### locate -/

/-- The loop over the directories: the result so far, and `exist`. -/
def locateIn (w : World) (name : Str) : List Str → Str × Bool → Str × Bool
  | [], r => r
  | dir :: dirs, (res, exist) =>
    let target := pathBuffer (dir ++ '/' :: name)
    -- a path counts as seen when it ends a path of the result
    if dir ≠ [] ∧ w.isExec target = true ∧ ¬ (target ++ ['\n']) <:+: res then
      locateIn w name dirs (res ++ target ++ ['\n'], true)
    else locateIn w name dirs (res, exist)

/-- The loop over the names. -/
def locateNames (w : World) (dirs : List Str) : List Str → Str → Str
  | [], res => res
  | name :: names, res =>
    let r := locateIn w name dirs (res, false)
    locateNames w dirs names
      (if r.2 then r.1 else r.1 ++ "locate: command not found (".toList ++ name ++ ")\n".toList)

/-- `locate(names, res, k)` and the `printf` of `res` after it. -/
def locate (w : World) (names : List Str) : Str :=
  match w.path with
  | none => "cshell: PATH environment variable not set\n".toList
  | some p => locateNames w ((w.cwd.1 ++ ':' :: p).splitOn ':') names []

/-! ### peek -/

structure PeekFlags where
  rev : Bool
  num : Bool
  deriving DecidableEq, Repr

/-- The letters of `peek`. -/
def peekLetter : Char → Option (PeekFlags → PeekFlags) :=
  OptionWords.twoLetters 'r' 'n' (fun o => { o with rev := true })
    fun o => { o with num := true }

/-- An option word of `peek`; a `-` alone is standard input. -/
def isOption (a : Str) : Bool := isDash a && a ≠ ['-']

def peekSyntax : Str := "peek: invalid syntax\n".toList

/-- The string that a buffer holds. -/
def cstr (s : Str) : Str := s.takeWhile (· ≠ '\x00')

/-- The lines as they are printed.  With `num` the ones that are not empty are
numbered, from `k` on by `step`. -/
def numbered (num : Bool) (step : ℤ) : ℤ → List Str → List Str
  | _, [] => []
  | k, l :: ls =>
    if l = [] then [] :: numbered num step k ls
    else if num then (CString.signed k ++ ' ' :: cstr l) :: numbered num step (k + step) ls
    else cstr l :: numbered num step k ls

/-- How many lines get a number. -/
def countLines (ls : List Str) : ℤ := (ls.filter fun l => cstr l ≠ []).length

/-- The inner loop of `peek -r`, from `j - 1` down; `last` is `prev + 1`.  The lines
it prints, and `prev + 1` at its end. -/
def scanBack (buffer : Str) : ℕ → ℕ → List Str × ℕ
  | 0, last => ([], last)
  | j + 1, last =>
    if buffer[j]? = some '\n' then
      ((buffer.take last).drop (j + 1) :: (scanBack buffer j j).1, (scanBack buffer j j).2)
    else scanBack buffer j last

/-- The outer loop, `pos` bytes before the part that is done; `rest` is the start of a
line of which the end is read.  The last line is printed after the loop.  Every turn
moves `pos`, so the size of the file is fuel enough. -/
def readBack (chunk : ℕ) (file : Str) : ℕ → ℕ → Str → List Str
  | 0, _, rest => if rest = [] then [] else [rest]
  | fuel + 1, pos, rest =>
    if pos = 0 then if rest = [] then [] else [rest]
    else
      let reade := if chunk < pos then chunk else pos
      let buffer := (file.drop (pos - reade)).take reade ++ rest
      let last :=
        if pos - reade + reade = file.length ∧ buffer.getLast? = some '\n' then buffer.length - 1
        else buffer.length
      let r := scanBack buffer last last
      r.1 ++ readBack chunk file fuel (pos - reade) (buffer.take r.2)

/-- `peek -r` of a file: the lines in the order they are printed. -/
def fileBackward (file : Str) : List Str := readBack 2048 file file.length file.length []

/-- The lines printed for one operand, and what is left of standard input. -/
def peekOperand (w : World) (o : PeekFlags) (stdin : List Str) (a : Str) : List Str × List Str :=
  if a = ['-'] then
    let ls := (Lines.lines (stdin.headD [])).map cstr
    (if o.rev then numbered o.num (-1) (countLines ls) ls.reverse else numbered o.num 1 1 ls,
      stdin.tail)
  else if w.isDir a then (["peek: is a directory".toList], stdin)
  else
    match w.contents a with
    | none => (["peek: no such file or directory".toList], stdin)
    | some file =>
      (if o.rev then numbered o.num (-1) (countLines (Lines.lines file)) (fileBackward file)
        else numbered o.num 1 1 ((Lines.lines file).map cstr), stdin)

/-- The loop over the operands. -/
def peekOperands (w : World) (o : PeekFlags) : List Str → List Str → List Str
  | _, [] => []
  | stdin, a :: as =>
    (peekOperand w o stdin a).1 ++ peekOperands w o (peekOperand w o stdin a).2 as

/-- `peek(args, len)`. -/
def peek (w : World) (args : List Str) : Str :=
  match OptionWords.words peekLetter isOption args.tail ⟨false, false⟩ with
  | .error c => invalidOption "peek".toList c
  | .ok (o, []) =>
    if args.getLast? = some ['-'] then Lines.unlines (peekOperands w o w.stdin [['-']])
    else peekSyntax
  | .ok (o, a :: as) => Lines.unlines (peekOperands w o w.stdin (a :: as))

end Cshell
