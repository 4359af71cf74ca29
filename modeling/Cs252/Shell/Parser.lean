import Cs252.Shell.Execute

/-!
# Cs252.Shell.Parser

The parser of `lab3-src/shell.y`, one line at a time.

The grammar of a line is regular. Between two tokens the parser is in one of
the states of `LineState`; a token moves it to the next state and runs the
actions of the rules that are reduced on the way. `NEWLINE` ends the line: it
executes the table, clears it, or ends the recovery from an error. After an
error the parser skips the rest of the line (`error NEWLINE`). The message of
`yyerror` is all that is left out.

`insert_arguments` expands a word to the arguments it stands for. It is a
parameter (`Expander`), with its static variables `σ`.
-/

namespace Cs252.Shell

/-! ### Tokens and states -/

/-- The operators of `iomodifier_opt`. -/
inductive IoModifier
  | great
  | greatGreat
  | greatAmp
  | greatGreatAmp
  | less
  | redir
  deriving Repr, DecidableEq

/-- The tokens of a line, without the `NEWLINE` that ends it. -/
inductive Token
  | word (text : String)
  | io (op : IoModifier)
  | pipe
  | ampersand
  deriving Repr, DecidableEq

/-- The state of the parser between two tokens of a line. -/
inductive LineState
  /-- Before the first token. -/
  | lineStart
  /-- After `command_word argument_list`. -/
  | arguments
  /-- After `pipe_list PIPE`. -/
  | pipe
  /-- After `pipe_list iomodifier_list`. -/
  | modifiers
  /-- After the operator of an `iomodifier_opt`. -/
  | operator (op : IoModifier)
  /-- After `pipe_list iomodifier_list AMPERSAND`. -/
  | background
  /-- Skipping to the end of the line. -/
  | error
  deriving Repr, DecidableEq

/-- The state after one more token. -/
def LineState.next : LineState → Token → LineState
  | .lineStart, .word _ => .arguments
  | .arguments, .word _ => .arguments
  | .arguments, .pipe => .pipe
  | .arguments, .io op => .operator op
  | .arguments, .ampersand => .background
  | .pipe, .word _ => .arguments
  | .modifiers, .io op => .operator op
  | .modifiers, .ampersand => .background
  | .operator _, .word _ => .modifiers
  | _, _ => .error

/-- The states in which `NEWLINE` ends a line of the grammar. -/
def LineState.accepting : LineState → Bool
  | .lineStart | .arguments | .modifiers | .background => true
  | .pipe | .operator _ | .error => false

/-- The parser reads the line without an error. -/
def accepts (line : List Token) : Bool := (line.foldl LineState.next .lineStart).accepting

/-! ### Actions -/

/-- The state of the shell while it parses. -/
structure Parser (σ : Type) where
  shell : ShellState
  /-- `current_simple_command`. -/
  current : SimpleCommand
  /-- The static variables of `insert_arguments`. -/
  statics : σ
  /-- The tables `command_execute` was called with. -/
  executed : List Command

/-- `insert_arguments`: the arguments a word stands for, given its static
variables and the shell; `none` when the expansion ends the process. -/
abbrev Expander (σ : Type) : Type := σ → ShellState → String → Option (List String × σ)

/-- The state of a shell that goes on, or of one that has ended (`error`). -/
abbrev Status (σ : Type) : Type := Except (Parser σ) (Parser σ)

section Actions

variable {σ : Type} (expand : Expander σ)

/-- Change the command table. -/
def Parser.modifyCommand (f : Command → Command) (s : Parser σ) : Parser σ :=
  { s with shell := { s.shell with command := f s.shell.command } }

/-- `command_word`. -/
def commandWord (text : String) (s : Parser σ) : Parser σ :=
  { s with current := simpleCommandInsertArgument simpleCommandCreate text }

/-- `argument`. -/
def insertArguments (text : String) (s : Parser σ) : Status σ :=
  match expand s.statics s.shell text with
  | none => .error s
  | some (arguments, statics) => .ok { s with
      current := arguments.foldl simpleCommandInsertArgument s.current
      statics := statics }

/-- `command_and_args`. -/
def commandAndArgs (s : Parser σ) : Parser σ :=
  s.modifyCommand fun command =>
    { commandInsertSimpleCommand command s.current with isCleared := false }

/-- `iomodifier_opt`. -/
def iomodifierOpt (op : IoModifier) (file : String) (command : Command) : Command :=
  match op with
  | .great =>
    { command with outFile := some file, outfileCounter := command.outfileCounter + 1 }
  | .greatGreat => { command with
      outFile := some file
      isAppended := true
      outfileCounter := command.outfileCounter + 1 }
  | .greatAmp => { command with errFile := some file }
  | .greatGreatAmp => { command with errFile := some file, isAppended := true }
  | .less => { command with inFile := some file }
  | .redir => { command with errFile := some file }

/-- `background_opt`. -/
def backgroundOpt (command : Command) : Command := { command with isBackground := true }

/-- The actions of the rules reduced when a token is read. -/
def action : LineState → Token → Parser σ → Status σ
  | .lineStart, .word text, s => .ok (commandWord text s)
  | .arguments, .word text, s => insertArguments expand text s
  | .arguments, .ampersand, s => .ok ((commandAndArgs s).modifyCommand backgroundOpt)
  | .arguments, _, s => .ok (commandAndArgs s)
  | .pipe, .word text, s => .ok (commandWord text s)
  | .modifiers, .ampersand, s => .ok (s.modifyCommand backgroundOpt)
  | .operator op, .word text, s => .ok (s.modifyCommand (iomodifierOpt op text))
  | _, _, s => .ok s

/-- The tokens of a line, from the first on. -/
def feed : LineState → List Token → Parser σ → Except (Parser σ) (LineState × Parser σ)
  | st, [], s => .ok (st, s)
  | st, t :: line, s =>
    match action expand st t s with
    | .error s => .error s
    | .ok s => feed (st.next t) line s

/-- `simple_command`, for a line with a pipeline. -/
def executeLine (os : Answers) (s : Parser σ) : Status σ :=
  let s := { s with executed := s.executed ++ [s.shell.command] }
  match commandExecute os s.shell with
  | .returned p => .ok { s with shell := p }
  | .exited p => .error { s with shell := p }
  | .crashed => .error s
  | .overrun p => .error { s with shell := p }

/-- `NEWLINE`. -/
def endLine (os : Answers) : LineState → Parser σ → Status σ
  | .lineStart, s => .ok { s with shell := prompt s.shell.clear }
  | .arguments, s => executeLine os (commandAndArgs s)
  | .modifiers, s => executeLine os s
  | .background, s => executeLine os s
  -- `error NEWLINE`: the table is left as it is
  | .pipe, s => .ok s
  | .operator _, s => .ok s
  | .error, s => .ok s

/-- A line of input, and what the system answers when it is executed. -/
structure Line where
  tokens : List Token
  answers : Answers

/-- A line is parsed and executed. -/
def runLine (line : Line) (s : Parser σ) : Status σ :=
  match feed expand .lineStart line.tokens s with
  | .error s => .error s
  | .ok (st, s) => endLine line.answers st s

/-- The lines of the input, until the shell ends. -/
def run : List Line → Parser σ → Status σ
  | [], s => .ok s
  | line :: lines, s =>
    match runLine expand line s with
    | .error s => .error s
    | .ok s => run lines s

end Actions

end Cs252.Shell
