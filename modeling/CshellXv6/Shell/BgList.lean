/-
The job table as the code keeps it (`c-shell/src/main.c`; `activities`, `ping` and
`resume` of `c-shell/src/bins.c`).

`bg_list` is a block of `bg_size` entries that is reallocated when a job comes or
goes; an entry has two blocks of its own, `members` and `name`, of which the first
`num` elements are in use.  A job is deleted with `memmove`, a member by moving the
later ones down in both blocks.  `resume` looks its job up once and keeps the index
while it waits, and `plant` may run between any two of its waits.

The printed texts are those of the source.  Allocations succeed; a block that was
just allocated holds any values (`junk`).  `jobs` is a `long long` and is not
followed past its range; the `job` of an entry is an `int`.

* `Table` and its operations, under the names of the source;
* `step` — the operations one after another, `resume` in several steps.
-/
import CshellXv6.Lib.CArray
import CshellXv6.Lib.CString
import CshellXv6.Lib.Transition
import CshellXv6.Shell.Lexer

namespace BgList

open Cshell CArray CString

/-! ### The table -/

/-- An entry of `bg_list`. -/
structure Bg where
  pid : ℕ
  job : ℤ
  cmd : Str
  pgid : ℕ
  sus : Bool
  members : List ℕ
  num : ℕ
  name : List Str
  fullCmd : List Str
  deriving DecidableEq, Repr

/-- A status that `waitpid` hands out. -/
inductive Status
  | stopped
  | continued
  | exited (code : ℕ)
  | signaled
  deriving DecidableEq, Repr

/-- `WIFEXITED(status) && WEXITSTATUS(status) == 0`. -/
def Status.normal : Status → Bool
  | .exited code => code = 0
  | _ => false

/-- The global variables: `bg_list`, `bg_size`, `jobs`, and `wait_list` up to
`wait_index`. -/
structure Table where
  bgList : List Bg
  bgSize : ℕ
  jobs : ℕ
  waitList : List (ℕ × Bool)
  deriving DecidableEq, Repr

/-- The members in use. -/
def Bg.pids (e : Bg) : List ℕ := e.members.take e.num

/-- The names in use. -/
def Bg.names (e : Bg) : List Str := e.name.take e.num

/-- The members with their names. -/
def Bg.pairs (e : Bg) : List (ℕ × Str) := e.pids.zip e.names

/-- What `announce_bg` prints. -/
structure Report where
  name : Str
  pid : ℕ
  stat : Bool
  deriving DecidableEq, Repr

def Report.text (r : Report) : Str :=
  r.name ++ " with pid ".toList ++ decimal r.pid ++
    (if r.stat then " exited normally\n".toList else " exited abnormally\n".toList)

namespace Table

variable (junk : Bg) (t : Table)

/-- A new entry at the end.  The four functions that register a job differ in the
arguments and in what they print. -/
def register (pids : List ℕ) (names : List Str) (num : ℕ) (sus : Bool) (cmd : Str)
    (args : List Str) : Table :=
  { t with
    bgSize := t.bgSize + 1
    bgList := (realloc junk t.bgList (t.bgSize + 1)).set t.bgSize
      { pid := pids.headD 0
        job := toInt t.jobs
        cmd := cmd
        pgid := pids.headD 0
        sus := sus
        members := copyLoop pids (malloc junk.pid num) 0 num
        num := num
        name := copyLoop names (malloc junk.cmd num) 0 num
        fullCmd := args }
    jobs := t.jobs + 1 }

/-- `printf("[%lld] %d\n",jobs,pid)`. -/
def runningText (pid : ℕ) : Str := '[' :: decimal t.jobs ++ "] ".toList ++ decimal pid ++ ['\n']

/-- `printf("[%lld] + Stopped\t%s\n",jobs,cmd)`. -/
def stoppedText (cmd : Str) : Str := '[' :: decimal t.jobs ++ "] + Stopped\t".toList ++ cmd ++ ['\n']

/-- `assign_bg`. -/
def assignBg (pid : ℕ) (cmd : Str) (args : List Str) : Table × Str :=
  (t.register junk [pid] [cmd] 1 false cmd args, t.runningText pid)

/-- `assign_stopped`. -/
def assignStopped (pid : ℕ) (cmd : Str) (args : List Str) : Table × Str :=
  (t.register junk [pid] [cmd] 1 true cmd args, t.stoppedText cmd)

/-- `assign_bg_multi`. -/
def assignBgMulti (pids : List ℕ) (num : ℕ) (names : List Str) (fullCmd : Str) (args : List Str) :
    Table × Str :=
  (t.register junk pids names num false fullCmd args, t.runningText (pids.headD 0))

/-- `assign_stopped_multi`. -/
def assignStoppedMulti (pids : List ℕ) (cmds : List Str) (num : ℕ) (fullCmd : Str)
    (args : List Str) : Table × Str :=
  (t.register junk pids cmds num true fullCmd args, t.stoppedText fullCmd)

/-- The job at index `i` goes: `memmove`, `bg_size--`, `realloc`. -/
def removeAt (i : ℕ) : Table :=
  { t with
    bgList := realloc junk (memmove t.bgList i (i + 1) (t.bgSize - i - 1)) (t.bgSize - 1)
    bgSize := t.bgSize - 1 }

/-- `bg_list[i].sus = b`. -/
def setSus (i : ℕ) (b : Bool) : Table :=
  { t with bgList := t.bgList.modify i fun e => { e with sus := b } }

/-- The loops of `announce_bg` that look for a process, from the job at index `i` on:
the index of the job and of the member. -/
def search (pid : ℕ) : List Bg → ℕ → Option (ℕ × ℕ)
  | [], _ => none
  | e :: es, i =>
    match e.pids.idxOf? pid with
    | some m => some (i, m)
    | none => search pid es (i + 1)

/-- The loop of `announce_bg` that takes the member at index `m` out. -/
def dropMember (e : Bg) (m : ℕ) : Bg :=
  { e with
    members := shiftDown e.members m (e.num - 1 - m)
    name := shiftDown e.name m (e.num - 1 - m)
    num := e.num - 1 }

/-- `announce_bg`, without the printing. -/
def announceBg (pid : ℕ) : Table :=
  match search pid (t.bgList.take t.bgSize) 0 with
  | none => t
  | some (i, m) =>
    match t.bgList[i]? with
    | none => t
    | some e =>
      let t' := { t with bgList := t.bgList.set i (dropMember e m) }
      if (dropMember e m).num = 0 then t'.removeAt junk i else t'

/-- What `announce_bg` prints, if anything. -/
def report (pid : ℕ) (stat : Bool) : Option Report :=
  match search pid (t.bgList.take t.bgSize) 0 with
  | none => none
  | some (i, m) => (t.bgList[i]?).bind fun e => e.name[m]?.map fun name => ⟨name, pid, stat⟩

/-- `no_longer_waiting`. -/
def noLongerWaiting : Table :=
  { t.waitList.foldl (fun t w => t.announceBg junk w.1) t with waitList := [] }

/-- What its loop prints. -/
def reports (t : Table) : List (ℕ × Bool) → List Report
  | [] => []
  | w :: ws => (t.report w.1 w.2).toList ++ reports (t.announceBg junk w.1) ws

/-- The loops of `plant` over the table. -/
def mark (pid : ℕ) (b : Bool) : Table :=
  { t with
    bgList := (t.bgList.take t.bgSize).map
      (fun e => if pid ∈ e.pids then { e with sus := b } else e) ++ t.bgList.drop t.bgSize }

/-- One round of the loop of `plant`. -/
def plantOne (pid : ℕ) : Status → Table
  | .stopped => t.mark pid true
  | .continued => t.mark pid false
  | st => if t.waitList.length < 100 then { t with waitList := t.waitList ++ [(pid, st.normal)] } else t

/-- `plant`: the statuses that `waitpid` hands out one after another. -/
def plant (sts : List (ℕ × Status)) : Table := sts.foldl (fun t x => t.plantOne x.1 x.2) t

/-- The loop of `resume` that looks for the job with the number `n`. -/
def findJob (n : ℤ) : Option ℕ := (t.bgList.take t.bgSize).findIdx? fun e => e.job = n

/-- The loop of `ping` that looks for a job by the process id of its entry. -/
def findPid (n : ℤ) : Option ℕ := (t.bgList.take t.bgSize).findIdx? fun e => e.pid = n

end Table

/-! ### `activities` and `ping` -/

/-- A line of `activities`. -/
inductive Line
  | job (n : ℤ) (pgid : ℕ)
  | member (pid : ℕ) (name : Str) (stopped : Bool)
  deriving DecidableEq, Repr

def Line.text : Line → Str
  | .job n pgid => '[' :: signed n ++ "] pgid ".toList ++ decimal pgid ++ ['\n']
  | .member pid name stopped =>
    "  ".toList ++ decimal pid ++ ' ' :: name ++
      (if stopped then "  Stopped\n".toList else "  Running\n".toList)

/-- The lines `activities` prints of a table. -/
def Table.lines (t : Table) : List Line :=
  (t.bgList.take t.bgSize).flatMap fun e =>
    .job e.job e.pgid :: e.pairs.map fun x => .member x.1 x.2 e.sus

/-- `activities`: the table afterwards and the lines, without the announcements. -/
def Table.activities (junk : Bg) (t : Table) : Table × List Line :=
  (t.noLongerWaiting junk, (t.noLongerWaiting junk).lines)

/-- A signal that is sent. -/
inductive Signal
  | kill (pid : ℤ) (sig : ℤ)
  | killpg (pgid : ℕ) (sig : ℤ)
  deriving DecidableEq, Repr

def Signal.invalidPing : List Signal × Str := ([], "ping: invalid syntax\n".toList)

def Signal.noSuchProcess : List Signal × Str := ([], "ping: no such process found\n".toList)

/-- `ping`: the signal that is sent and what is printed. -/
def ping (t : Table) : List Str → List Signal × Str
  | [_, who, what] =>
    let (sig, rest) := strtol what
    if rest ≠ [] ∨ sig < 0 then Signal.invalidPing
    else
      match who with
      | '%' :: ds =>
        let (n, rest) := strtol ds
        if rest ≠ [] then Signal.invalidPing
        else
          match (t.findJob n).bind fun i => t.bgList[i]? with
          | none => Signal.noSuchProcess
          | some e => ([.killpg e.pgid (sig.tmod 64)],
              "Sent signal ".toList ++ signed sig ++ " to %".toList ++ signed n ++ ['\n'])
      | _ =>
        let (pid, rest) := strtol who
        if rest ≠ [] then Signal.invalidPing
        else
          match t.findPid pid with
          | none => Signal.noSuchProcess
          | some _ => ([.kill (toInt pid) (sig.tmod 64)],
              "Sent signal ".toList ++ signed sig ++ " to ".toList ++ signed pid ++ ['\n'])
  | _ => Signal.invalidPing

/-! ### `resume` -/

/-- What a call of `resume` comes to: an error message, or the index of the job, its
number and, for `fg`, whether there is a timeout. -/
inductive Call
  | invalid
  | noSuch
  | bg (i : ℕ) (n : ℤ)
  | fg (i : ℕ) (n : ℤ) (timeout : Bool)
  deriving DecidableEq, Repr

/-- The job number of the second argument, if it has the form `%n`. -/
def jobNum : List Str → Option ℤ
  | _ :: ('%' :: ds) :: _ => if (strtol ds).2 = [] then some (strtol ds).1 else none
  | _ => none

/-- The arguments after the job number, for the job at index `i`. -/
def resumeMode (i : ℕ) (n : ℤ) : List Str → Call
  | how :: rest =>
    if how = "bg".toList then
      if rest = [] then .bg i n else .invalid
    else if how = "fg".toList then
      match rest with
      | [] => .fg i n false
      | [flag, secs] =>
        if flag ≠ "--timeout".toList then .invalid
        else if (strtol secs).2 ≠ [] ∨ toInt (strtol secs).1 ≤ 0 then .invalid
        else .fg i n true
      | _ => .invalid
    else .invalid
  | [] => .invalid

/-- `resume` up to its effects. -/
def resume (t : Table) (args : List Str) : Call :=
  if args.length < 3 then .invalid
  else
    match jobNum args with
    | none => .invalid
    | some n =>
      match t.findJob n with
      | none => .noSuch
      | some i => resumeMode i n (args.drop 2)

/-- A job that is resumed in the foreground: the index and the number that were looked
up, and the copied members that are still to be waited for. -/
structure Resuming where
  index : ℕ
  n : ℤ
  timeout : Bool
  todo : List ℕ
  stopped : Bool
  deriving DecidableEq, Repr

inductive Mode
  | idle
  | resuming (w : Resuming)
  deriving DecidableEq, Repr

structure State where
  table : Table
  mode : Mode
  deriving DecidableEq, Repr

/-- What a `waitpid` of `resume` comes to: a status, of which only
`WIFSTOPPED` is looked at (any value after a failed call), or `EINTR`. -/
inductive Outcome
  | status (stopped : Bool)
  | interrupted
  deriving DecidableEq, Repr

inductive Act
  | assignBg (pid : ℕ) (cmd : Str) (args : List Str)
  | assignStopped (pid : ℕ) (cmd : Str) (args : List Str)
  | assignBgMulti (pids : List ℕ) (num : ℕ) (names : List Str) (fullCmd : Str) (args : List Str)
  | assignStoppedMulti (pids : List ℕ) (cmds : List Str) (num : ℕ) (fullCmd : Str) (args : List Str)
  | announceBg (pid : ℕ)
  | noLongerWaiting
  | plant (sts : List (ℕ × Status))
  | resume (args : List Str)
  | waitpid (o : Outcome)
  | resumed
  deriving DecidableEq, Repr

/-- `resume` in its effects before the first wait. -/
def startResume (s : State) : Call → Option State
  | .invalid | .noSuch => some s
  | .bg i _ => some { s with table := s.table.setSus i false }
  | .fg i n timeout => (s.table.bgList[i]?).map fun e =>
      ⟨s.table.setSus i false, .resuming ⟨i, n, timeout, e.pids, false⟩⟩

/-- One step.  The arrays a job is registered with have at least `num` elements. -/
def step (junk : Bg) (s : State) : Act → Option State
  | .plant sts => some { s with table := s.table.plant sts }
  | .assignBg pid cmd args =>
    if s.mode = .idle then some { s with table := (s.table.assignBg junk pid cmd args).1 } else none
  | .assignStopped pid cmd args =>
    if s.mode = .idle then some { s with table := (s.table.assignStopped junk pid cmd args).1 }
    else none
  | .assignBgMulti pids num names fullCmd args =>
    if s.mode = .idle ∧ 1 ≤ num ∧ num ≤ pids.length ∧ num ≤ names.length then
      some { s with table := (s.table.assignBgMulti junk pids num names fullCmd args).1 }
    else none
  | .assignStoppedMulti pids cmds num fullCmd args =>
    if s.mode = .idle ∧ 1 ≤ num ∧ num ≤ pids.length ∧ num ≤ cmds.length then
      some { s with table := (s.table.assignStoppedMulti junk pids cmds num fullCmd args).1 }
    else none
  | .announceBg pid =>
    if s.mode = .idle then some { s with table := s.table.announceBg junk pid } else none
  | .noLongerWaiting =>
    if s.mode = .idle then some { s with table := s.table.noLongerWaiting junk } else none
  | .resume args => if s.mode = .idle then startResume s (resume s.table args) else none
  | .waitpid o =>
    match s.mode, o with
    | .resuming ⟨i, n, timeout, _ :: ps, st⟩, .status stopped =>
      some { s with mode := .resuming ⟨i, n, timeout, ps, st || stopped⟩ }
    -- `timed`: the job stays in the table as it is
    | .resuming ⟨_, _, true, _ :: _, _⟩, .interrupted => some { s with mode := .idle }
    | _, _ => none
  | .resumed =>
    match s.mode with
    | .resuming ⟨i, _, _, [], true⟩ => some ⟨s.table.setSus i true, .idle⟩
    | .resuming ⟨i, _, _, [], false⟩ => some ⟨s.table.removeAt junk i, .idle⟩
    | _ => none

/-- The empty table. -/
def boot : State := ⟨⟨[], 0, 1, []⟩, .idle⟩

def sys (junk : Bg) : Sys State Act where
  init s := s = boot
  step := step junk

end BgList
