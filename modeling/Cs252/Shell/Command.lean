/-!
# Cs252.Shell.Command

The command table of `lab3-src/command.h`, and the functions that build and
clear it.

A simple command is its list of arguments, the first of which is the name of
the program. The arrays of the source are lists; their lengths are the counters
`num_arguments` and `num_simple_commands`.
-/

namespace Cs252.Shell

/-- `simple_command`. -/
structure SimpleCommand where
  numAvailableArguments : Nat
  arguments : List String
  deriving Repr, DecidableEq

/-- `command`. -/
structure Command where
  numAvailableSimpleCommands : Nat
  simpleCommands : List SimpleCommand
  outFile : Option String
  inFile : Option String
  errFile : Option String
  isBackground : Bool
  isAppended : Bool
  outfileCounter : Nat
  isCleared : Bool
  lastPid : Int
  lastReturn : Int
  deriving Repr, DecidableEq

/-- `INITIAL_ARUMENT_ARR_SIZE`. -/
def initialArgumentArrSize : Nat := 5

/-- `simple_command_create`. -/
def simpleCommandCreate : SimpleCommand where
  numAvailableArguments := initialArgumentArrSize
  arguments := []

/-- `simple_command_insert_argument`. -/
def simpleCommandInsertArgument (sCommand : SimpleCommand) (argument : String) :
    SimpleCommand where
  numAvailableArguments :=
    if sCommand.numAvailableArguments = sCommand.arguments.length + 1 then
      sCommand.numAvailableArguments * 2
    else sCommand.numAvailableArguments
  arguments := sCommand.arguments ++ [argument]

/-- `command_create`. -/
def commandCreate : Command where
  numAvailableSimpleCommands := 1
  simpleCommands := []
  outFile := none
  inFile := none
  errFile := none
  isBackground := false
  isAppended := false
  outfileCounter := 0
  isCleared := true
  lastPid := 0
  lastReturn := 0

/-- `command_insert_simple_command`. -/
def commandInsertSimpleCommand (command : Command) (sCommand : SimpleCommand) : Command :=
  { command with
    numAvailableSimpleCommands :=
      if command.numAvailableSimpleCommands = command.simpleCommands.length then
        command.numAvailableSimpleCommands * 2
      else command.numAvailableSimpleCommands
    simpleCommands := command.simpleCommands ++ [sCommand] }

/-- `command_clear`. -/
def commandClear (command : Command) : Command :=
  { command with
    simpleCommands := []
    outFile := none
    inFile := none
    errFile := none
    isBackground := false
    isAppended := false
    outfileCounter := 0
    isCleared := true
    lastPid := 0
    lastReturn := 0 }

/-- The table is as `command_create` leaves it, apart from spare capacity. -/
def Command.Fresh (command : Command) : Prop :=
  command = { commandCreate with
    numAvailableSimpleCommands := command.numAvailableSimpleCommands }

instance : DecidablePred Command.Fresh := fun command => by
  unfold Command.Fresh
  infer_instance

theorem commandClear_fresh (command : Command) : (commandClear command).Fresh := rfl

end Cs252.Shell
