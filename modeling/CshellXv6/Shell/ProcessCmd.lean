/-
`process_cmd` of `c-shell/src/main.c`, with `piped`, `run_cmd`, `redir_in` and
`redir_out` of `c-shell/src/command.c`.

The code is a program that forks.  The index `i` into the command array is the
rest of the line that starts there, so `i++` drops a command.  The environment
answers whether a `fork`, a `pipe` or an `open` succeeds, whether an `exec`
finds its program, what status a `waitpid` sees, and what `hop` makes of `prev`.
The builtins themselves are events: none of them forks or ends its process,
but for the tracee of `snoop`.

Three events are not calls of the source.  `dispatch` marks that a group of the
line goes to execution, `own` that the shell process itself goes on with a
command (it is in the foreground, or its background fork failed), and `start`
that a stage of a pipeline got through its redirections.

* `singleCommand` — one turn of the loop, for a command outside a pipeline;
* `piped` — the stages of a pipeline;
* `processCmd` — the whole call.
-/
import CshellXv6.Lib.ProcTree
import CshellXv6.Shell.Redirect

namespace Cshell

/-- What a `waitpid` reports; the variable starts as `exited 0`. -/
inductive Status
  | exited (code : ℕ)
  | signaled
  | stopped
  deriving DecidableEq, Repr

/-- The questions to the environment. -/
inductive Query
  | fork
  | pipe
  | openRead (file : Str)
  | openWrite (file : Str) (append : Bool)
  | lookup (cmd : Str)
  | wait (cmd : Str)
  | hop (args : List Str) (prev : Str)

/-- Their answers. -/
abbrev Answer : Query → Type
  | .fork | .pipe | .openRead _ | .openWrite _ _ | .lookup _ => Bool
  | .wait _ => Status
  | .hop _ _ => Str

inductive Event
  | print (msg : Str)
  | dispatch (line : List Node) (prev : Str)
  | own (line : List Node) (prev : Str)
  | start (cmd : Str)
  | run (cmd : Str) (args : List Str)
  | waited (line : List Node) (found : Bool) (st : Status)
  | assignBg (cmd : Str)
  | assignStopped (cmd : Str)
  | noLongerWaiting
  deriving DecidableEq, Repr

/-- The end of a process: `_exit`, or an `exec` that replaced it. -/
inductive Exit
  | code (n : ℕ)
  | exec
  deriving DecidableEq, Repr

abbrev Shell (α : Type) := Proc Query Answer Event Exit α

/-- The sign of what `fork` returns. -/
inductive Pid
  | failed
  | child
  | parent

def event (e : Event) : Shell Unit := .emit e (.ret ())

def print (msg : Str) : Shell Unit := event (.print msg)

def exit {α : Type} (code : ℕ) : Shell α := .exit (.code code)

def openRead (file : Str) : Shell Bool := .ask (.openRead file) fun b => .ret b

def openWrite (file : Str) (append : Bool) : Shell Bool :=
  .ask (.openWrite file append) fun b => .ret b

def pipe : Shell Bool := .ask .pipe fun b => .ret b

def lookup (cmd : Str) : Shell Bool := .ask (.lookup cmd) fun b => .ret b

def wait (cmd : Str) : Shell Status := .ask (.wait cmd) fun st => .ret st

def fork : Shell Pid :=
  .ask .fork fun ok => if ok then .fork (.ret .child) (.ret .parent) else .ret .failed

def invalidSyntax : Str := "cshell: invalid syntax\n".toList

/-! ### Redirection and execution in a child -/

/-- The loop at the head of `redir_in`: every file must open. -/
def openAllRead : List Str → Shell Bool
  | [] => return true
  | f :: fs => do
    if ← openRead f then openAllRead fs
    else
      print "cshell: no such file or directory\n".toList
      return false

/-- `redir_in`; `false` for a return of -1. -/
def redirIn (ins : List Str) : Shell Bool := do
  match ins with
  | [] => return true
  | f :: fs =>
    if ← openAllRead (f :: fs) then
      match fs with
      | [] => openRead f
      | _ :: _ =>
        if ← pipe then
          match ← fork with
          | .child => exit 0
          | _ => return true
        else return false
    else return false

/-- The loop of `redir_out`. -/
def openAllWrite : List (Str × Bool) → Shell Bool
  | [] => return true
  | (f, append) :: fs => do
    if ← openWrite f append then openAllWrite fs
    else
      print "cshell: unable to create file for writing\n".toList
      return false

/-- `redir_out`. -/
def redirOut (outs : List (Str × Bool)) : Shell Bool := do
  if ← openAllWrite outs then
    match outs with
    | [] | [_] => return true
    | _ :: _ :: _ =>
      if ← pipe then
        match ← fork with
        | .failed => return false
        | .child => exit 0
        | .parent => return true
      else return false
  else return false

/-- `run_cmd`; it does not return.  `found` says whether one of its `exec` calls
succeeds. -/
def runCmd {α : Type} (cmd : Str) (args : List Str) (found : Bool) : Shell α := do
  match cmd with
  | [] => exit 0
  | c :: cs =>
    -- `%name` runs `name` by the search path alone
    let (target, args) := if '/' ∉ cmd ∧ c = '%' then (cs, cs :: args.tail) else (cmd, args)
    event (.run target args)
    if found then .exit .exec
    else
      print ("cshell: command not found (".toList ++ target ++ ")\n".toList)
      exit (if '/' ∈ cmd ∨ c = '%' then 1 else 8)

/-- The redirections of a child; it ends when one of them fails. -/
def redirect (ins : List Str) (outs : List (Str × Bool)) : Shell Unit := do
  if ← redirIn ins then
    if ← redirOut outs then return ()
    else exit 1
  else exit 1

/-! ### One command -/

/-- A command that got through `ext_in` and `ext_out`.  `line` is the line from
this command on, `after` what follows it. -/
structure Job where
  line : List Node
  after : List Node
  cmd : Str
  args : List Str
  ins : List Str
  outs : List (Str × Bool)
  background : Bool

/-- `need_redir`. -/
def Job.needRedir (j : Job) : Bool := !j.ins.isEmpty || !j.outs.isEmpty

/-- How a turn of the loop ends: with `i` moved on, with `break`, or with
`return`. -/
inductive Ctl
  | next (line : List Node) (prev : Str)
  | brk
  | ret
  deriving DecidableEq, Repr

/-- The head of the branches: a background command goes on in a child, for which
`k` gets `true`, and the shell registers it; after a failed fork the shell goes
on itself. -/
def inBackground (j : Job) (prev : Str) (k : Bool → Shell Ctl) : Shell Ctl := do
  if j.background then
    match ← fork with
    | .child => k true
    | .parent =>
      event (.assignBg j.cmd)
      return .next j.after prev
    | .failed =>
      print "cshell: failed to create child process\n".toList
      event (.own j.line prev)
      k false
  else
    event (.own j.line prev)
    k false

/-- `if(pid==0) _exit(0)`. -/
def endChild (child : Bool) : Shell Unit := if child then exit 0 else return ()

/-- Wait for a child; a stopped one becomes a job. -/
def waitFor (cmd : Str) : Shell Status := do
  let st ← wait cmd
  if st = .stopped then
    event (.assignStopped cmd)
    return st
  else return st

/-- Run a builtin in a child with its files redirected, and wait for it. -/
def redirected (j : Job) (body : Shell Unit) (code : ℕ) : Shell Unit := do
  match ← fork with
  | .child =>
    redirect j.ins j.outs
    body
    exit code
  | _ =>
    let _ ← waitFor j.cmd

/-- The call of a builtin. -/
def call (cmd : Str) (args : List Str) : Shell Unit := event (.run cmd args)

/-- `hop` changes `prev`. -/
def hop (args : List Str) (prev : Str) : Shell Str :=
  .emit (.run "hop".toList args) (.ask (.hop args prev) fun p => .ret p)

def hopBranch (j : Job) (prev : Str) : Shell Ctl :=
  inBackground j prev fun child => do
    if j.needRedir then
      redirected j (do let _ ← hop j.args prev) 1
      endChild child
      return .next j.after prev
    else
      let prev' ← hop j.args prev
      endChild child
      return .next j.after prev'

/-- A builtin with its redirections, if it has any. -/
def runBuiltin (j : Job) (body : Shell Unit) (code : ℕ) : Shell Unit :=
  if j.needRedir then redirected j body code else body

/-- The branches of `activities`, `ping` and `spy`, and the end of that of
`locate`. -/
def builtinBranch (j : Job) (prev : Str) (child : Bool) (body : Shell Unit) (code : ℕ) :
    Shell Ctl := do
  runBuiltin j body code
  endChild child
  return .next j.after prev

def activitiesBranch (j : Job) (prev : Str) : Shell Ctl :=
  inBackground j prev fun child => builtinBranch j prev child (call j.cmd []) 0

def pingBranch (j : Job) (prev : Str) : Shell Ctl :=
  inBackground j prev fun child => builtinBranch j prev child (call j.cmd j.args) 0

def spyBranch (j : Job) (prev : Str) : Shell Ctl :=
  inBackground j prev fun child => builtinBranch j prev child (call j.cmd j.args) 0

/-- `a[0]=='-'`. -/
def isDash (a : Str) : Bool := a.head? = some '-'

def locateBranch (j : Job) (prev : Str) : Shell Ctl :=
  inBackground j prev fun child => do
    if j.args.length < 2 then
      print "locate: invalid syntax\n".toList
      endChild child
      return .next j.after prev
    else
      builtinBranch j prev child (call j.cmd (j.args.tail.takeWhile (!isDash ·))) 1

/-- The options in front: how many there are before a `-` or an operand, and
whether a `-` follows them. -/
def skipOptions : List Str → ℕ × Bool
  | [] => (0, false)
  | a :: as =>
    if isDash a then
      if a = ['-'] then (0, true) else ((skipOptions as).1 + 1, (skipOptions as).2)
    else (0, false)

/-- The option loop of `reveal` once it has met a `-` with an empty `prev`: it goes
on in the next commands, at the same `j`.  `ns` are the commands after the
current one; the result is the line left after the `i++` of the outer loop. -/
def revealNoPrev (j : ℕ) (ns : List Node) : Shell (List Node) := do
  print "reveal: no such directory\n".toList
  match ns with
  | [] => return []
  | n :: ns =>
    if (skipOptions (n.args.drop j)).2 then revealNoPrev (j + (skipOptions (n.args.drop j)).1) ns
    else return ns

/-- The arguments of `reveal` after its option loop, and where the loop ended;
`none` for a `-` with an empty `prev`. -/
def revealOptions (args : List Str) (prev : Str) : Option (List Str × ℕ) :=
  let k := 1 + (skipOptions args.tail).1
  if (skipOptions args.tail).2 then
    if prev = [] then none else some (args.set k prev, k + 1)
  else some (args, k)

def revealBranch (j : Job) (prev : Str) : Shell Ctl :=
  inBackground j prev fun child => do
    if j.args.length < 2 then
      builtinBranch j prev child (call j.cmd (j.args ++ [['.']])) 1
    else
      match revealOptions j.args prev with
      | none =>
        let rest ← revealNoPrev (1 + (skipOptions j.args.tail).1) j.after
        endChild child
        return .next rest prev
      | some (args, k) =>
        if k + 1 < args.length then
          print "reveal: invalid syntax\n".toList
          endChild child
          return .next j.after prev
        else if j.needRedir then
          -- the source has no `_exit` for the background child here
          redirected j (call j.cmd args) 1
          return .next j.after prev
        else
          call j.cmd args
          endChild child
          return .next j.after prev

/-- The arguments of `peek` with the missing operand put in. -/
def peekArgs (args : List Str) : List Str :=
  let args := if args.length < 2 then args ++ [['-']] else args
  if 1 + (skipOptions args.tail).1 = args.length then args ++ [['-']] else args

/-- The operands of `peek` have no option among them. -/
def peekValid (args : List Str) : Bool :=
  let args := if args.length < 2 then args ++ [['-']] else args
  (args.drop (1 + (skipOptions args.tail).1)).all fun a => !isDash a || a = ['-']

def peekBranch (j : Job) (prev : Str) : Shell Ctl :=
  inBackground j prev fun child => do
    if !peekValid j.args then
      print "peek: invalid syntax\n".toList
      endChild child
      return .ret
    else if j.needRedir then
      -- no `_exit` for the background child here either
      redirected j (call j.cmd (peekArgs j.args)) 1
      return .next j.after prev
    else
      call j.cmd (peekArgs j.args)
      endChild child
      return .next j.after prev

/-- `resume` redirects the shell itself, and forks no child for it. -/
def resumeBranch (j : Job) (prev : Str) : Shell Ctl := do
  if ← redirIn j.ins then
    if ← redirOut j.outs then
      call j.cmd j.args
      return .next j.after prev
    else return .next j.after prev
  else return .next j.after prev

/-- `snoop` without `-p` starts its tracee. -/
def snoop (cmd : Str) (args : List Str) : Shell Unit := do
  call cmd args
  if args.length < 2 then return ()
  else
    match ← fork with
    | .child => .exit .exec
    | _ => return ()

def snoopBranch (j : Job) (prev : Str) : Shell Ctl := do
  if 3 ≤ j.args.length ∧ j.args[1]? = some ['-', 'p'] then
    call j.cmd j.args
    return .next j.after prev
  else
    match ← fork with
    | .child =>
      redirect j.ins j.outs
      snoop j.cmd j.args
      exit 0
    | _ =>
      let _ ← waitFor j.cmd
      return .next j.after prev

/-- Every other command.  The answer to `lookup` holds for the child and is
recorded with the status the shell sees. -/
def externalBranch (j : Job) (prev : Str) : Shell Ctl :=
  inBackground j prev fun child => do
    let found ← lookup j.cmd
    if child then
      redirect j.ins j.outs
      runCmd j.cmd j.args found
    else
      match ← fork with
      | .child =>
        redirect j.ins j.outs
        runCmd j.cmd j.args found
      | _ =>
        let st ← waitFor j.cmd
        event (.waited j.line found st)
        if st = .exited 8 then return .brk else return .next j.after prev

/-- The branches of the loop. -/
def command (j : Job) (prev : Str) : Shell Ctl :=
  if j.cmd = "hop".toList then hopBranch j prev
  else if j.cmd = "reveal".toList then revealBranch j prev
  else if j.cmd = "peek".toList then peekBranch j prev
  else if j.cmd = "locate".toList then locateBranch j prev
  else if j.cmd = "activities".toList then activitiesBranch j prev
  else if j.cmd = "resume".toList then resumeBranch j prev
  else if j.cmd = "ping".toList then pingBranch j prev
  else if j.cmd = "spy".toList then spyBranch j prev
  else if j.cmd = "snoop".toList then snoopBranch j prev
  else externalBranch j prev

/-- A turn of the loop for a command that is not in a pipeline. -/
def singleCommand (home : Home) (prev : Str) (n : Node) (after : List Node) : Shell Ctl := do
  let i := extIn (n.args.map (expand home))
  match i.files with
  | none =>
    print invalidSyntax
    return .next after prev
  | some ins =>
    let o := extOut i.args
    match o.files with
    | none =>
      print invalidSyntax
      if n.background || n.semi then return .ret else return .next after prev
    | some outs =>
      event (.dispatch (n :: after) prev)
      command ⟨n :: after, after, expand home n.cmd, o.args, ins, outs, n.background⟩ prev

/-! ### Pipelines -/

/-- `builtin`: the builtins a stage of a pipeline knows. -/
def isBuiltin (cmd : Str) : Bool :=
  cmd = "hop".toList || cmd = "reveal".toList || cmd = "peek".toList || cmd = "locate".toList

/-- `exec_builtin`. -/
def execBuiltin (cmd : Str) (args : List Str) (prev : Str) : Shell Unit := do
  if cmd = "hop".toList then
    let _ ← hop args prev
  else if cmd = "reveal".toList then
    call cmd (if args.length < 2 then args ++ [['.']] else args)
  else if cmd = "peek".toList then call cmd args
  else call cmd (args.tail.takeWhile (!isDash ·))

/-- The child of a stage.  `ins` and `outs` are what the two passes gave it, `args`
what they left. -/
def stageChild (cmd : Str) (args : List Str) (ins : Option (List Str))
    (outs : Option (List (Str × Bool))) (prev : Str) : Shell Unit := do
  match ins, outs with
  | none, _ => exit 0
  | some ins, none =>
    if ← redirIn ins then exit 1 else exit 1
  | some ins, some outs =>
    event (.start cmd)
    redirect ins outs
    if isBuiltin cmd then
      execBuiltin cmd args prev
      exit 0
    else
      let found ← lookup cmd
      runCmd cmd args found

/-- The message of a pass that failed. -/
def report (ok : Bool) : Shell Unit := if ok then return () else print invalidSyntax

/-- The loop of `piped` that starts the stages.  Both passes run in the shell, the
second one also after a failure of the first. -/
def startStages (home : Home) (prev : Str) : List Node → Shell Unit
  | [] => return ()
  | n :: ns => do
    let i := extIn (n.args.map (expand home))
    report i.files.isSome
    let o := extOut i.args
    report o.files.isSome
    match ← fork with
    | .child => stageChild (expand home n.cmd) o.args i.files o.files prev
    | _ => startStages home prev ns

/-- `pipe` for every two neighbours. -/
def makePipes : ℕ → Shell Bool
  | 0 => return true
  | k + 1 => do if ← pipe then makePipes k else return false

/-- The waits for the stages; the result is `any_stopped`. -/
def waitStages : List Node → Shell Bool
  | [] => return false
  | n :: ns => do
    let st ← wait n.cmd
    let rest ← waitStages ns
    return st = .stopped || rest

/-- `piped`. -/
def piped (home : Home) (prev : Str) (stages : List Node) (back : Bool) : Shell Unit := do
  if ← makePipes (stages.length - 1) then
    startStages home prev stages
    let name := (stages.head?.map fun n => expand home n.cmd).getD []
    if back then event (.assignBg name)
    else
      if ← waitStages stages then event (.assignStopped name)
  else print "cshell: pipe not made".toList

/-! ### The loop over the line -/

/-- The group that starts a line: a run of piped commands and the one after it,
which the parser has made sure of. -/
def takeGroup : List Node → List Node
  | [] => []
  | n :: ns => if n.piped then n :: takeGroup ns else [n]

/-- What follows that group. -/
def dropGroup : List Node → List Node
  | [] => []
  | n :: ns => if n.piped then dropGroup ns else ns

/-- One turn of the loop. -/
def processGroup (home : Home) (prev : Str) : List Node → Shell Ctl
  | [] => return .brk
  | n :: ns => do
    if n.piped then
      event (.dispatch (n :: ns) prev)
      let stages := takeGroup (n :: ns)
      piped home prev stages (stages.getLast?.any (·.background))
      return .next (dropGroup (n :: ns)) prev
    else singleCommand home prev n ns

/-- The loop.  Every turn takes at least one command, so the length of the line
is fuel enough. -/
def processLine (home : Home) : ℕ → List Node → Str → Shell Str
  | _, [], prev => do
    event .noLongerWaiting
    return prev
  | 0, _ :: _, prev => return prev
  | k + 1, n :: ns, prev => do
    match ← processGroup home prev (n :: ns) with
    | .next rest prev' => processLine home k rest prev'
    | .brk =>
      event .noLongerWaiting
      return prev
    | .ret => return prev

/-- `process_cmd`; the result is `prev` as the call leaves it. -/
def processCmd (home : Home) (prev : Str) (cmd : Str) : Shell Str :=
  match lexer cmd with
  | none => do
    print invalidSyntax
    return prev
  | some ts =>
    match parser ts with
    | none => do
      print invalidSyntax
      return prev
    | some line => processLine home line.length line prev

end Cshell
