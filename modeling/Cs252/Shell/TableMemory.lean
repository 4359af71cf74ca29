import Cs252.Lib.GrowArray
import Cs252.Shell.PipelineLines
import Mathlib.Data.List.Forall2

/-!
# Cs252.Shell.TableMemory

The parser of `lab3-src/shell.y` with its arrays in memory.

The functions are those of `Command` and `Parser`, under the same names. A store
past an array, a capacity or a counter that is no `int`, and an expansion that
ends the process make them fail. A simple command that is in the table is not
changed any more, so the table holds it and no pointer to it.

`Terminated` and `Holds` say what a simple command and a table hold. Each of the
two functions that enlarge an array has a lemma for what it does if it does not
fail, and one for when it fails.
-/

namespace Cs252.Shell.Memory

/-- `simple_command`. -/
structure SimpleCommand where
  numArguments : Nat
  arguments : GrowArray (Option String) initialArgumentArrSize

/-- `command`. -/
structure Command (first : Nat) where
  simpleCommands : GrowArray SimpleCommand first
  numSimpleCommands : Nat
  outFile : Option String
  inFile : Option String
  errFile : Option String
  isBackground : Bool
  isAppended : Bool
  outfileCounter : Nat
  isCleared : Bool
  lastPid : Int
  lastReturn : Int

/-! ### The functions of the table -/

/-- `simple_command_create`. -/
def simpleCommandCreate : SimpleCommand := ⟨0, .allocate (.start (by decide))⟩

/-- `simple_command_insert_argument`. -/
def simpleCommandInsertArgument (sCommand : SimpleCommand) (argument : String) :
    Option SimpleCommand := do
  -- room for the word and for the null pointer after it
  let arguments ← sCommand.arguments.reserve (sCommand.numArguments + 1)
  let arguments ← arguments.store sCommand.numArguments (some argument)
  let arguments ← arguments.store (sCommand.numArguments + 1) none
  return ⟨sCommand.numArguments + 1, arguments⟩

/-- `command_create`. -/
def commandCreate : Command 1 where
  simpleCommands := .allocate (.start (by decide))
  numSimpleCommands := 0
  outFile := none
  inFile := none
  errFile := none
  isBackground := false
  isAppended := false
  outfileCounter := 0
  isCleared := true
  lastPid := 0
  lastReturn := 0

section Table

variable {first : Nat}

/-- `command_insert_simple_command`. -/
def commandInsertSimpleCommand (command : Command first) (sCommand : SimpleCommand) :
    Option (Command first) := do
  let simpleCommands ← command.simpleCommands.reserve command.numSimpleCommands
  let simpleCommands ← simpleCommands.store command.numSimpleCommands sCommand
  return { command with
    simpleCommands := simpleCommands
    numSimpleCommands := command.numSimpleCommands + 1 }

/-- `outfile_counter++`. -/
def countOutfile (command : Command first) : Option (Command first) :=
  if command.outfileCounter + 1 < 2 ^ 31 then
    some { command with outfileCounter := command.outfileCounter + 1 }
  else none

/-- `iomodifier_opt`. -/
def iomodifierOpt (op : IoModifier) (file : String) (command : Command first) :
    Option (Command first) :=
  match op with
  | .great => countOutfile { command with outFile := some file }
  | .greatGreat => countOutfile { command with outFile := some file, isAppended := true }
  | .greatAmp => some { command with errFile := some file }
  | .greatGreatAmp => some { command with errFile := some file, isAppended := true }
  | .less => some { command with inFile := some file }
  | .redir => some { command with errFile := some file }

/-- `background_opt`. -/
def backgroundOpt (command : Command first) : Command first := { command with isBackground := true }

end Table

/-! ### What the memory holds -/

/-- The words of a simple command. -/
def SimpleCommand.view (sCommand : SimpleCommand) : Shell.SimpleCommand where
  numAvailableArguments := sCommand.arguments.capacity.size
  arguments := (sCommand.arguments.read sCommand.numArguments).filterMap id

/-- The table. -/
def Command.view {first : Nat} (command : Command first) : Shell.Command where
  numAvailableSimpleCommands := command.simpleCommands.capacity.size
  simpleCommands :=
    (command.simpleCommands.read command.numSimpleCommands).map SimpleCommand.view
  outFile := command.outFile
  inFile := command.inFile
  errFile := command.errFile
  isBackground := command.isBackground
  isAppended := command.isAppended
  outfileCounter := command.outfileCounter
  isCleared := command.isCleared
  lastPid := command.lastPid
  lastReturn := command.lastReturn

namespace SimpleCommand

variable {c c' : SimpleCommand} {word : String} {words : List String}

/-- The words of a simple command, with room for another pointer. -/
structure Words (c : SimpleCommand) (words : List String) : Prop where
  count : c.numArguments = words.length
  room : c.numArguments < c.arguments.capacity.size
  holds : c.arguments.Holds (words.map some)

/-- The words are followed by a null pointer. -/
structure Terminated (c : SimpleCommand) (words : List String) : Prop where
  count : c.numArguments = words.length
  holds : c.arguments.Holds (words.map some ++ [none])

theorem Terminated.toWords (h : c.Terminated words) : c.Words words := by
  refine ⟨h.count, ?_, h.holds.of_append⟩
  have := h.holds.length_le
  rw [List.length_append, List.length_map, List.length_singleton] at this
  rw [h.count]
  exact this

theorem Terminated.fits (h : c.Terminated words) :
    Capacity.Fits initialArgumentArrSize (words.length + 1) := by
  have := h.holds.length_le
  rw [List.length_append, List.length_map, List.length_singleton] at this
  exact Capacity.fits this

theorem Words.view_eq (h : c.Words words) : c.view = ⟨c.arguments.capacity.size, words⟩ := by
  have hread : c.arguments.read c.numArguments = words.map some := by
    rw [h.count, ← List.length_map some]
    exact h.holds.read_eq
  rw [view, hread, List.filterMap_map]
  exact congrArg _ List.filterMap_some

theorem create_words : simpleCommandCreate.Words [] :=
  ⟨rfl, by decide, GrowArray.holds_nil⟩

/-- What the function does if it does not fail. -/
theorem insertArgument_eq_some (hc : c.Words words)
    (h : simpleCommandInsertArgument c word = some c') :
    c'.Terminated (words ++ [word]) ∧ c'.view = Shell.simpleCommandInsertArgument c.view word := by
  obtain ⟨reserved, hreserve, h⟩ := Option.bind_eq_some_iff.mp h
  obtain ⟨stored, hstore, h⟩ := Option.bind_eq_some_iff.mp h
  obtain ⟨terminated, hterminate, h⟩ := Option.bind_eq_some_iff.mp h
  cases h
  rw [hc.count, ← List.length_map some] at hstore
  have hstored := (hc.holds.reserve hreserve).store hstore
  have hlength : (words.map some ++ [some word]).length = c.numArguments + 1 := by
    rw [List.length_append, List.length_map, hc.count]
    rfl
  rw [← hlength] at hterminate
  have hterminated : SimpleCommand.Terminated ⟨c.numArguments + 1, terminated⟩ (words ++ [word]) := by
    refine ⟨?_, ?_⟩
    · rw [hc.count, List.length_append]
      rfl
    · rw [List.map_append]
      exact hstored.store hterminate
  have hsize : terminated.capacity.size = reserved.capacity.size := by
    rw [(GrowArray.store_eq_some hterminate).1, (GrowArray.store_eq_some hstore).1]
  refine ⟨hterminated, ?_⟩
  rw [hterminated.toWords.view_eq, hc.view_eq, hsize, GrowArray.size_of_reserve hreserve, hc.count]
  rfl

/-- There must be room for the word and the null pointer. -/
theorem insertArgument_isSome_iff (hc : c.Words words) :
    (simpleCommandInsertArgument c word).isSome ↔
      Capacity.Fits initialArgumentArrSize (words.length + 2) := by
  rw [← hc.count]
  constructor
  · intro h
    obtain ⟨c', hc'⟩ := Option.isSome_iff_exists.mp h
    have := (insertArgument_eq_some hc hc').1.fits
    rwa [List.length_append, ← hc.count] at this
  · intro h
    obtain ⟨reserved, hreserve⟩ :=
      Option.isSome_iff_exists.mp ((GrowArray.reserve_isSome_iff (by decide) hc.room).mpr h)
    -- after `reserve` both stores are inside the array
    have hlt := GrowArray.lt_of_reserve (by decide) hc.room hreserve
    obtain ⟨stored, hstore⟩ := Option.isSome_iff_exists.mp
      (GrowArray.store_isSome_iff (x := some word).mpr (Nat.lt_of_succ_lt hlt))
    obtain ⟨terminated, hterminate⟩ := Option.isSome_iff_exists.mp
      (GrowArray.store_isSome_iff (a := stored) (x := none).mpr
        (by rwa [(GrowArray.store_eq_some hstore).1]))
    simp [simpleCommandInsertArgument, hreserve, hstore, hterminate]

/-- A word after another. -/
theorem foldlM_eq_some {arguments : List String} (hc : c.Terminated words)
    (h : arguments.foldlM simpleCommandInsertArgument c = some c') :
    c'.Terminated (words ++ arguments) ∧
      c'.view = arguments.foldl Shell.simpleCommandInsertArgument c.view := by
  induction arguments generalizing c words with
  | nil =>
    cases h
    exact ⟨by rwa [List.append_nil], rfl⟩
  | cons word arguments ih =>
    rw [List.foldlM_cons] at h
    obtain ⟨c₁, hc₁, h⟩ := Option.bind_eq_some_iff.mp h
    obtain ⟨hterminated, hview⟩ := insertArgument_eq_some hc.toWords hc₁
    rw [List.foldl_cons, ← hview, ← List.singleton_append, ← List.append_assoc]
    exact ih hterminated h

theorem foldlM_isSome {arguments : List String} (hc : c.Terminated words)
    (h : Capacity.Fits initialArgumentArrSize (words.length + arguments.length + 1)) :
    (arguments.foldlM simpleCommandInsertArgument c).isSome := by
  induction arguments generalizing c words with
  | nil => rfl
  | cons word arguments ih =>
    rw [List.length_cons] at h
    have hinsert : (simpleCommandInsertArgument c word).isSome :=
      (insertArgument_isSome_iff hc.toWords).mpr (h.mono (by omega))
    obtain ⟨c₁, hc₁⟩ := Option.isSome_iff_exists.mp hinsert
    rw [List.foldlM_cons, hc₁]
    refine ih (insertArgument_eq_some hc.toWords hc₁).1 (h.mono ?_)
    rw [List.length_append, List.length_singleton]
    omega

end SimpleCommand

namespace Command

variable {first : Nat} {command command' : Command first} {sCommand : SimpleCommand}
  {words : List String} {commands : List (List String)}

/-- The simple commands, each with its words. -/
def Holds (command : Command first) (commands : List (List String)) : Prop :=
  ∃ cs : List SimpleCommand, command.numSimpleCommands = cs.length ∧
    command.simpleCommands.Holds cs ∧ List.Forall₂ SimpleCommand.Terminated cs commands

theorem Holds.count (h : command.Holds commands) : command.numSimpleCommands = commands.length := by
  obtain ⟨cs, hcount, -, hwords⟩ := h
  rw [hcount, hwords.length_eq]

theorem Holds.count_le (h : command.Holds commands) :
    command.numSimpleCommands ≤ command.simpleCommands.capacity.size := by
  obtain ⟨cs, hcount, hholds, -⟩ := h
  rw [hcount]
  exact hholds.length_le

/-- The words can be read from the table. -/
theorem Holds.view_arguments (h : command.Holds commands) :
    command.view.simpleCommands.map Shell.SimpleCommand.arguments = commands := by
  obtain ⟨cs, hcount, hholds, hwords⟩ := h
  rw [view, hcount, hholds.read_eq, List.map_map]
  clear hcount hholds
  induction hwords with
  | nil => rfl
  | cons hc _ ih =>
    rw [List.map_cons, ih, Function.comp_apply, hc.toWords.view_eq]

theorem Holds.fits (h : command.Holds commands) :
    ∀ words ∈ commands, Capacity.Fits initialArgumentArrSize (words.length + 1) := by
  obtain ⟨cs, -, -, hwords⟩ := h
  induction hwords with
  | nil => exact List.forall_mem_nil _
  | cons hc _ ih => exact List.forall_mem_cons.mpr ⟨hc.fits, ih⟩

theorem insertSimpleCommand_eq_some (hcommand : command.Holds commands)
    (hwords : sCommand.Terminated words)
    (h : commandInsertSimpleCommand command sCommand = some command') :
    command'.Holds (commands ++ [words]) ∧
      command'.view = Shell.commandInsertSimpleCommand command.view sCommand.view := by
  obtain ⟨cs, hcount, hholds, hcs⟩ := hcommand
  obtain ⟨reserved, hreserve, h⟩ := Option.bind_eq_some_iff.mp h
  obtain ⟨stored, hstore, h⟩ := Option.bind_eq_some_iff.mp h
  cases h
  rw [hcount] at hstore
  have hstored := (hholds.reserve hreserve).store hstore
  have hlength : command.numSimpleCommands + 1 = (cs ++ [sCommand]).length := by
    rw [hcount, List.length_append]
    rfl
  refine ⟨⟨cs ++ [sCommand], hlength, hstored, List.rel_append hcs (.cons hwords .nil)⟩, ?_⟩
  have hread := hstored.read_eq
  rw [← hlength, hcount] at hread
  have hsize := GrowArray.size_of_reserve hreserve
  rw [← (GrowArray.store_eq_some hstore).1] at hsize
  simp only [view, Shell.commandInsertSimpleCommand, hread, hsize, hcount, hholds.read_eq,
    List.map_append, List.map_cons, List.map_nil, List.length_map]

theorem insertSimpleCommand_isSome_iff (hfirst : 0 < first) (hcommand : command.Holds commands) :
    (commandInsertSimpleCommand command sCommand).isSome ↔
      Capacity.Fits first (commands.length + 1) := by
  rw [← hcommand.count, ← GrowArray.reserve_isSome_iff hfirst hcommand.count_le]
  unfold commandInsertSimpleCommand
  cases hreserve : command.simpleCommands.reserve command.numSimpleCommands with
  | none => rfl
  | some reserved =>
    obtain ⟨stored, hstore⟩ := Option.isSome_iff_exists.mp
      (GrowArray.store_isSome_iff (x := sCommand).mpr
        (GrowArray.lt_of_reserve hfirst hcommand.count_le hreserve))
    simp [hstore]

end Command

/-! ### The parser -/

/-- The state of the shell while it parses. -/
structure Parser (σ : Type) (first : Nat) where
  command : Command first
  current : SimpleCommand
  statics : σ
  /-- The rest of the shell. -/
  shell : ShellState

namespace Parser

variable {σ : Type} {first : Nat}

/-- The state with lists for the arrays. -/
def view (m : Parser σ first) : Shell.Parser σ where
  shell := { m.shell with command := m.command.view }
  current := m.current.view
  statics := m.statics
  executed := []

/-- Change the command table. -/
def modifyCommand (f : Command first → Option (Command first)) (m : Parser σ first) :
    Option (Parser σ first) :=
  (f m.command).map fun command => { m with command := command }

end Parser

section Actions

variable {σ : Type} {first : Nat} (expand : Expander σ)

/-- `command_word`. -/
def commandWord (text : String) (m : Parser σ first) : Option (Parser σ first) :=
  (simpleCommandInsertArgument simpleCommandCreate text).map fun current =>
    { m with current := current }

/-- `argument`. -/
def insertArguments (text : String) (m : Parser σ first) : Option (Parser σ first) := do
  let (arguments, statics) ← expand m.statics m.view.shell text
  let current ← arguments.foldlM simpleCommandInsertArgument m.current
  return { m with current := current, statics := statics }

/-- `command_and_args`. -/
def commandAndArgs (m : Parser σ first) : Option (Parser σ first) :=
  m.modifyCommand fun command =>
    (commandInsertSimpleCommand command m.current).map fun command =>
      { command with isCleared := false }

/-- The actions of the rules reduced when a token is read. -/
def action : LineState → Token → Parser σ first → Option (Parser σ first)
  | .lineStart, .word text, m => commandWord text m
  | .arguments, .word text, m => insertArguments expand text m
  | .arguments, .ampersand, m =>
    (commandAndArgs m).bind (·.modifyCommand fun command => some (backgroundOpt command))
  | .arguments, _, m => commandAndArgs m
  | .pipe, .word text, m => commandWord text m
  | .modifiers, .ampersand, m => m.modifyCommand fun command => some (backgroundOpt command)
  | .operator op, .word text, m => m.modifyCommand (iomodifierOpt op text)
  | _, _, m => some m

/-- The tokens of a line, from the first on. -/
def feed : LineState → List Token → Parser σ first → Option (LineState × Parser σ first)
  | st, [], m => some (st, m)
  | st, t :: line, m => (action expand st t m).bind (feed (st.next t) line)

/-- The state with which `command_execute` is called, if `NEWLINE` calls it. -/
def beforeExecute : LineState → Parser σ first → Option (Parser σ first)
  | .arguments, m => commandAndArgs m
  | .modifiers, m | .background, m => some m
  | _, _ => none

/-- The state with which `command_execute` is called for a line. -/
def parseLine (line : List Token) (m : Parser σ first) : Option (Parser σ first) :=
  (feed expand .lineStart line m).bind fun (st, m) => beforeExecute st m

end Actions

end Cs252.Shell.Memory
