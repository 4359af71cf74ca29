import Cs252.Lib.Descriptors
import Cs252.Shell.Command

/-!
# Cs252.Shell.Execute

`command_execute` of `lab3-src/command.c`.

The shell is its command table, its descriptor table and its environment,
together with what can be seen of it: the children it forks, with the
descriptor table each is born with, and a log of what it prints and waits for.
What the system answers to one execution of the table is an `Answers`. A failed
call gives the descriptor -1, written `none`.

The body of the loop over the simple commands is `runCommand`. It leaves the
function early in one of the ways of `Outcome`.
-/

namespace Cs252.Shell

/-! ### The shell and the system -/

/-- The flags of `open`. -/
inductive OpenFlag
  | rdonly
  | wronly
  | creat
  | append
  | trunc
  deriving Repr, DecidableEq

/-- What a descriptor refers to. Pipes are numbered as they are created. -/
inductive File
  | inherited (n : Nat)
  | opened (path : String) (flags : List OpenFlag) (mode : Nat)
  | pipeRead (pipe : Nat)
  | pipeWrite (pipe : Nat)
  deriving Repr, DecidableEq

/-- A child at the moment of `fork`. -/
structure Child where
  arguments : List String
  fds : Descriptors File

/-- What the shell does besides changing its own state. -/
inductive Event
  | print (text : String)
  | perror (text : String)
  | prompt
  | chdir (dir : Option String)
  | waitpid (pid : Option Nat)
  deriving Repr, DecidableEq

/-- The state of the shell. -/
structure ShellState where
  command : Command
  fds : Descriptors File
  /-- `getenv`. -/
  env : String → Option String
  /-- The number of pipes created so far. -/
  pipes : Nat
  children : List Child
  log : List Event

/-- What the system answers while one command table is executed. Pipes and
forks are asked for once per simple command. -/
structure Answers where
  openIn : Bool
  openErr : Bool
  openOut : Bool
  pipe : Nat → Bool
  /-- The pid of the child. -/
  fork : Nat → Option Nat
  chdir : Bool

/-- How `command_execute` ends. -/
inductive Outcome
  | returned (p : ShellState)
  | exited (p : ShellState)
  /-- A null pointer is used as a string. -/
  | crashed
  /-- An array on the stack is overrun. The function may return all the same, with `p`. -/
  | overrun (p : ShellState)

/-- Log an event. -/
def ShellState.emit (p : ShellState) (e : Event) : ShellState := { p with log := p.log ++ [e] }

/-- `prompt`. -/
def prompt (p : ShellState) : ShellState := p.emit .prompt

/-- `command_clear(command)`. -/
def ShellState.clear (p : ShellState) : ShellState := { p with command := commandClear p.command }

/-- `arguments[j]`: null after the last argument. -/
def argument (sCommand : SimpleCommand) (j : Nat) : Option String := sCommand.arguments[j]?

/-- `open`, if the system lets it. -/
def openAs (ok : Bool) (path : String) (flags : List OpenFlag) (mode : Nat) : Option File :=
  if ok then some (.opened path flags mode) else none

/-! ### Builtins -/

/-- A name that `setenv` and `unsetenv` accept. -/
def validName (name : String) : Bool := name ≠ "" && !name.toList.contains '='

/-- `setenv`. -/
def setenv (p : ShellState) (var value : String) (overwrite : Bool) : ShellState :=
  if validName var && (overwrite || (p.env var).isNone) then
    { p with env := fun name => if name = var then some value else p.env name }
  else p

/-- `unsetenv`: the new state, and whether the call succeeds. -/
def unsetenv (p : ShellState) : Option String → ShellState × Bool
  | none => (p, false)
  | some var =>
    if validName var then
      ({ p with env := fun name => if name = var then none else p.env name }, true)
    else (p, false)

/-- The size of `err_msg`. -/
def errMsgSize : Nat := 1024

/-- The message of a `cd` that fails, as `sprintf` writes it to `err_msg`. -/
def cdMessage (sCommand : SimpleCommand) : String :=
  "cd: " ++ (argument sCommand 1).getD "(null)"

/-- The builtin `cd`, and whether `err_msg` has room for the message and its terminator. -/
def runCd (os : Answers) (sCommand : SimpleCommand) (p : ShellState) : ShellState × Bool :=
  let dir := if 1 < sCommand.arguments.length then argument sCommand 1 else p.env "HOME"
  let p := p.emit (.chdir dir)
  if os.chdir then (p, true)
  else (p.emit (.perror (cdMessage sCommand)), (cdMessage sCommand).length < errMsgSize)

/-- The builtin `setenv`. `getenv` of a null pointer crashes, and so does `setenv` of a
null value, unless it refuses the name first. -/
def runSetenv (sCommand : SimpleCommand) (p : ShellState) : Option ShellState :=
  match argument sCommand 1, argument sCommand 2 with
  | none, _ => none
  | some var, none => if validName var then none else some p
  | some var, some value => some (setenv p var value (p.env var).isSome)

/-- The builtin `unsetenv`, which reports an error when the call succeeds. -/
def runUnsetenv (sCommand : SimpleCommand) (p : ShellState) : ShellState :=
  match unsetenv p (argument sCommand 1) with
  | (p, true) => p.emit (.perror "unsetenv")
  | (p, false) => p

/-! ### The pipeline -/

/-- Open `file` if it is set, else duplicate the saved descriptor. -/
def openOrDup (file : Option String) (openIt : String → Option File) (saved : Option Nat)
    (fds : Descriptors File) : Option Nat × Descriptors File :=
  match file with
  | some path => fds.openNew (openIt path)
  | none => fds.dup saved

/-- The input file. -/
def openIn (os : Answers) (path : String) : Option File := openAs os.openIn path [.rdonly] 0o664

/-- The error file: opened for appending in either case of `is_appended`. -/
def openErr (os : Answers) (path : String) : Option File :=
  openAs os.openErr path [.creat, .wronly, .append] 0o600

/-- The output file. -/
def openOut (os : Answers) (isAppended : Bool) (path : String) : Option File :=
  openAs os.openOut path
    (if isAppended then [.creat, .wronly, .append] else [.creat, .wronly, .trunc]) 0o600

/-- Set up the error and the output of the last command: `fdout`. -/
def setupLast (os : Answers) (tmpout tmperr : Option Nat) (p : ShellState) :
    Option Nat × ShellState :=
  let (fderr, fds) := openOrDup p.command.errFile (openErr os) tmperr p.fds
  let fds := (fds.dup2 fderr 2).close fderr
  let (fdout, fds) := openOrDup p.command.outFile (openOut os p.command.isAppended) tmpout fds
  (fdout, { p with fds := fds })

/-- `pipe(fdpipe)`: the descriptors `fdpipe[0]` and `fdpipe[1]`. -/
def createPipe (p : ShellState) : Option Nat × Option Nat × ShellState :=
  let (fdin, fds) := p.fds.openNew (some (.pipeRead p.pipes))
  let (fdout, fds) := fds.openNew (some (.pipeWrite p.pipes))
  (fdin, fdout, { p with fds := fds, pipes := p.pipes + 1 })

/-- The end of the loop body: a builtin leaves the function, another command is
forked. The pid of the child. -/
def dispatch (os : Answers) (i : Nat) (name : String) (sCommand : SimpleCommand) (p : ShellState) :
    Except Outcome (Nat × ShellState) :=
  if name = "cd" then
    match runCd os sCommand p with
    | (p, true) => .error (.returned (prompt p.clear))
    | (p, false) => .error (.overrun (prompt p.clear))
  else if name = "setenv" then
    match runSetenv sCommand p with
    | some p => .error (.returned (prompt p.clear))
    | none => .error .crashed
  else if name = "unsetenv" then .error (.returned (prompt (runUnsetenv sCommand p).clear))
  else match os.fork i with
    | none =>
      let p := p.emit (.perror "fork")
      .error (.returned { p with command := { p.command with lastReturn := 1 } })
    | some pid => .ok (pid, { p with children := p.children ++ [⟨sCommand.arguments, p.fds⟩] })

/-- Redirect the output to `fdout`. -/
def redirectOutput (fdout : Option Nat) (p : ShellState) : ShellState :=
  { p with fds := (p.fds.dup2 fdout 1).close fdout }

/-- `exit`, at any place of the pipeline. -/
def goodBye (p : ShellState) : ShellState := (p.emit (.print " Good bye!!\n")).clear

/-- The loop body for command `i`: the next `fdin`, the pid and the state. -/
def runCommand (os : Answers) (tmpout tmperr : Option Nat) (i : Nat) (isLast : Bool)
    (sCommand : SimpleCommand) (fdin : Option Nat) (p : ShellState) :
    Except Outcome (Option Nat × Nat × ShellState) :=
  match argument sCommand 0 with
  | none => .error .crashed
  | some name =>
    if name = "exit" then .error (.exited (goodBye p))
    else
      let p := { p with fds := (p.fds.dup2 fdin 0).close fdin }
      if isLast then
        let (fdout, p) := setupLast os tmpout tmperr p
        (dispatch os i name sCommand (redirectOutput fdout p)).map fun r => (fdin, r)
      else if os.pipe i then
        let (fdin, fdout, p) := createPipe p
        (dispatch os i name sCommand (redirectOutput fdout p)).map fun r => (fdin, r)
      else .error (.exited p)

/-- The loop over the simple commands, from command `i` on: the last pid. -/
def runPipeline (os : Answers) (tmpout tmperr : Option Nat) :
    Nat → List SimpleCommand → Option Nat → Option Nat → ShellState →
    Except Outcome (Option Nat × ShellState)
  | _, [], _, ret, p => .ok (ret, p)
  | i, sCommand :: rest, fdin, _, p =>
    match runCommand os tmpout tmperr i rest.isEmpty sCommand fdin p with
    | .error outcome => .error outcome
    | .ok (fdin, pid, p) => runPipeline os tmpout tmperr (i + 1) rest fdin (some pid) p

/-- Restore the defaults. -/
def restore (tmpin tmpout tmperr : Option Nat) (fds : Descriptors File) : Descriptors File :=
  let fds := fds.dup2 tmpin 0
  let fds := fds.dup2 tmpout 1
  let fds := fds.dup2 tmperr 2
  ((fds.close tmpin).close tmpout).close tmperr

/-- The end of `command_execute`. -/
def finish (ret : Option Nat) (p : ShellState) : ShellState :=
  let p := if p.command.isBackground then p
    else { p with command := { p.command with lastPid := ret.getD 0 } }.emit (.waitpid ret)
  prompt p.clear

/-- What follows the loop. -/
def afterLoop (tmpin tmpout tmperr : Option Nat) :
    Except Outcome (Option Nat × ShellState) → Outcome
  | .error outcome => outcome
  | .ok (ret, p) => .returned (finish ret { p with fds := restore tmpin tmpout tmperr p.fds })

/-- Warn when there are several output files. -/
def warnAmbiguous (p : ShellState) : ShellState :=
  if 1 < p.command.outfileCounter then p.emit (.print "Ambiguous output redirect.\n") else p

/-- `command_execute`. -/
def commandExecute (os : Answers) (p : ShellState) : Outcome :=
  match p.command.simpleCommands with
  | [] => .returned (prompt p)
  | sCommand :: _ =>
    match argument sCommand 0 with
    | none => .crashed
    | some name =>
      if name = "exit" then .exited (p.clear.emit (.print " Good bye!!\n"))
      else
        let p := warnAmbiguous p
        let (tmpin, fds) := p.fds.dup (some 0)
        let (tmpout, fds) := fds.dup (some 1)
        let (tmperr, fds) := fds.dup (some 2)
        let (fdin, fds) := openOrDup p.command.inFile (openIn os) tmpin fds
        afterLoop tmpin tmpout tmperr
          (runPipeline os tmpout tmperr 0 p.command.simpleCommands fdin none { p with fds := fds })

/-! ### A new shell -/

/-- A system on which every call succeeds. -/
def allSucceed : Answers where
  openIn := true
  openErr := true
  openOut := true
  pipe _ := true
  fork i := some (i + 1)
  chdir := true

/-- A shell with the standard descriptors open and the given commands in its table. -/
def newShell (simpleCommands : List SimpleCommand) : ShellState where
  command := { commandCreate with simpleCommands := simpleCommands }
  fds := ⟨[some (.inherited 0), some (.inherited 1), some (.inherited 2)]⟩
  env _ := none
  pipes := 0
  children := []
  log := []

end Cs252.Shell
