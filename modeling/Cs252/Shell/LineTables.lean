import Cs252.Shell.TableRuns
import Cs252.Shell.WildcardMatches

/-!
# Cs252.Shell.LineTables

The table with which `command_execute` is called for a line whose arguments stand
for themselves is the one that the line denotes, if memory can hold it
(`builds_iff`). The arrays are indexed and enlarged by numbers that are `int`s.
-/

namespace Cs252.Shell

/-- A word that is not expanded. -/
structure Plain (word : String) : Prop where
  star : '*' ∉ word.toList
  question : '?' ∉ word.toList
  dollar : '$' ∉ word.toList
  tilde : word.toList.head? ≠ some '~'

theorem Plain.literal {process : Process} {stack : Stack} {st : DirArray} {word : String}
    (h : Plain word) : Literal (insertedArguments process stack) st word := by
  intro p
  have hwild : hasWildcard word.toList = false := by
    simp [hasWildcard, h.star, h.question]
  simp [insertedArguments, hwild, expandPlain, h.tilde, h.dollar]

/-- A table after `command_clear`. -/
structure Memory.Command.Cleared {first : Nat} (command : Memory.Command first) : Prop where
  count : command.numSimpleCommands = 0
  fresh : command.view.Fresh

/-- The table in memory is that of a line. -/
structure PipelineLine.Builds {first : Nat} (line : PipelineLine) (command : Memory.Command first) :
    Prop where
  holds : command.Holds (line.commands.map CommandWords.words)
  outFile : command.outFile = lastFile IoModifier.isOut line.modifiers
  inFile : command.inFile = lastFile IoModifier.isIn line.modifiers
  errFile : command.errFile = lastFile IoModifier.isErr line.modifiers
  isBackground : command.isBackground = line.background
  outfileCounter : command.outfileCounter = line.modifiers.countP fun m => m.1.isOut

/-- Memory can hold the table of the line. -/
structure PipelineLine.Holdable (first : Nat) (line : PipelineLine) : Prop where
  words : ∀ c ∈ line.commands, c.words.length < 5 * 2 ^ 28
  commands : Capacity.Fits first line.commands.length
  outfiles : line.modifiers.countP (fun m => m.1.isOut) < 2 ^ 31

section Tables

variable {σ : Type} {first : Nat} {expand : Expander σ} {line : PipelineLine}
  {m : Memory.Parser σ first}

theorem fits_arguments_iff {n : Nat} :
    Capacity.Fits initialArgumentArrSize (n + 1) ↔ n < 5 * 2 ^ 28 :=
  Capacity.fits_iff (by decide) (by decide)

theorem PipelineLine.Denotes.bounded_iff {command : Command} (h : line.Denotes command) :
    Memory.Bounded first command ↔ line.Holdable first := by
  have hwords : (∀ c ∈ command.simpleCommands,
      Capacity.Fits initialArgumentArrSize (c.arguments.length + 1)) ↔
      ∀ c ∈ line.commands, c.words.length < 5 * 2 ^ 28 := by
    have := List.forall_mem_map (f := SimpleCommand.arguments) (l := command.simpleCommands)
      (P := fun words => words.length < 5 * 2 ^ 28)
    rw [h.simpleCommands, List.forall_mem_map] at this
    simp only [fits_arguments_iff]
    exact this.symm
  have hlength : command.simpleCommands.length = line.commands.length := by
    have := congrArg List.length h.simpleCommands
    rwa [List.length_map, List.length_map] at this
  constructor
  · intro hbounded
    exact ⟨hwords.mp hbounded.words, hlength ▸ hbounded.commands, h.outfileCounter ▸ hbounded.outfiles⟩
  · intro hholdable
    exact ⟨hwords.mpr hholdable.words, hlength ▸ hholdable.commands,
      h.outfileCounter ▸ hholdable.outfiles⟩

theorem PipelineLine.Denotes.builds {command : Memory.Command first}
    (h : line.Denotes command.view) (hcommand : command.WellFormed) : line.Builds command := by
  obtain ⟨commands, hholds⟩ := hcommand.holds
  have hcommands := h.simpleCommands
  rw [hholds.view_arguments] at hcommands
  exact ⟨hcommands ▸ hholds, h.outFile, h.inFile, h.errFile, h.isBackground, h.outfileCounter⟩

theorem Memory.Command.Cleared.wellFormed (h : m.command.Cleared) : m.WellFormed .lineStart := by
  have houtfiles : m.command.outfileCounter = 0 := congrArg Shell.Command.outfileCounter h.fresh
  refine .of_command ⟨⟨[], [], h.count, GrowArray.holds_nil, .nil⟩, ?_⟩ nofun
  rw [houtfiles]
  decide

/-- For any expansion that leaves the arguments as they are. -/
theorem parseLine_builds_iff (hfirst : 0 < first)
    (hliteral : ∀ c ∈ line.commands, ∀ w ∈ c.arguments, Literal expand m.statics w)
    (hm : m.command.Cleared) :
    (∃ m', Memory.parseLine expand line.tokens m = some m' ∧ line.Builds m'.command) ↔
      line.Holdable first := by
  obtain ⟨st, s, current, hfeed, hexecute⟩ := feed_tokens (s := m.view) hliteral
  have hdenotes : line.Denotes (line.table m.command.view) := line.table_denotes hm.fresh
  rw [← hdenotes.bounded_iff]
  refine Iff.trans ?_ (Memory.parseLine_isSome_iff hfirst hm.wellFormed hfeed hexecute)
  constructor
  · intro h
    obtain ⟨m', hm', -⟩ := h
    exact Option.isSome_of_eq_some hm'
  · intro h
    obtain ⟨m', hm'⟩ := Option.isSome_iff_exists.mp h
    refine ⟨m', hm', ?_⟩
    obtain ⟨hcommand, st₁, s₁, hfeed₁, hexecute₁⟩ := Memory.parseLine_eq_some hm.wellFormed hm'
    rw [hfeed] at hfeed₁
    cases hfeed₁
    have hview := congrArg (Option.map fun s => s.shell.command) (hexecute.symm.trans hexecute₁)
    have hcommand' : line.table m.command.view = m'.command.view := Option.some.inj hview
    rw [hcommand'] at hdenotes
    exact hdenotes.builds hcommand

end Tables

/-- **The parser builds the table of a line exactly if memory can hold it.** -/
theorem builds_iff {first : Nat} {process : Process} {stack : Stack} {line : PipelineLine}
    {m : Memory.Parser DirArray first} (hfirst : 0 < first)
    (hplain : ∀ c ∈ line.commands, ∀ w ∈ c.arguments, Plain w) (hm : m.command.Cleared) :
    (∃ m', Memory.parseLine (insertedArguments process stack) line.tokens m = some m' ∧
        line.Builds m'.command) ↔
      (∀ c ∈ line.commands, c.words.length < 5 * 2 ^ 28) ∧
        Capacity.Fits first line.commands.length ∧
        line.modifiers.countP (fun m => m.1.isOut) < 2 ^ 31 := by
  rw [parseLine_builds_iff hfirst (fun c hc w hw => (hplain c hc w hw).literal) hm]
  exact ⟨fun h => ⟨h.words, h.commands, h.outfiles⟩, fun h => ⟨h.1, h.2.1, h.2.2⟩⟩

/-! ### Two lines -/

/-- The parser when the shell starts. -/
def newMemory : Memory.Parser DirArray 1 where
  command := Memory.commandCreate
  current := Memory.simpleCommandCreate
  statics := .start
  shell := newShell []

theorem newMemory_cleared : newMemory.command.Cleared := ⟨rfl, rfl⟩

/-- The line `ls -l | wc > a >> b &`. -/
def sortedListing : PipelineLine where
  first := ⟨"ls", ["-l"]⟩
  rest := [⟨"wc", []⟩]
  modifiers := [(.great, "a"), (.greatGreat, "b")]
  background := true

/-- The line is built. -/
theorem builds_sortedListing :
    ∃ m', Memory.parseLine (insertedArguments (sampleProcess twoFiles) fun _ _ => fullBuffer)
      sortedListing.tokens newMemory = some m' ∧ sortedListing.Builds m'.command :=
  (builds_iff Nat.one_pos
    (List.forall_mem_cons.mpr ⟨List.forall_mem_singleton.mpr
        ⟨by decide, by decide, by decide, by decide⟩,
      List.forall_mem_singleton.mpr (List.forall_mem_nil _)⟩)
    newMemory_cleared).mpr ⟨by decide, ⟨1, by decide, by decide⟩, by decide⟩

/-- `echo` with many arguments. -/
def echoLine (n : Nat) : PipelineLine := ⟨⟨"echo", List.replicate n "a"⟩, [], [], false⟩

theorem echoLine_plain (n : Nat) :
    ∀ c ∈ (echoLine n).commands, ∀ w ∈ c.arguments, Plain w := by
  intro c hc w hw
  obtain rfl := List.mem_singleton.mp hc
  obtain rfl := List.eq_of_mem_replicate hw
  exact ⟨by decide, by decide, by decide, by decide⟩

theorem echoLine_holdable {first n : Nat} (h : (echoLine n).Holdable first) :
    n + 1 < 5 * 2 ^ 28 := by
  have hlength := h.words _ (List.mem_singleton_self _)
  rwa [CommandWords.words, List.length_cons, echoLine, List.length_replicate] at hlength

/-- The array for these arguments would be doubled to more than an `int`. -/
theorem echoLine_overflows :
    (∀ c ∈ (echoLine (5 * 2 ^ 28 - 1)).commands, ∀ w ∈ c.arguments, Plain w) ∧
      newMemory.command.Cleared ∧
      ¬∃ m', Memory.parseLine (insertedArguments (sampleProcess twoFiles) fun _ _ => fullBuffer)
        (echoLine (5 * 2 ^ 28 - 1)).tokens newMemory = some m' ∧
        (echoLine (5 * 2 ^ 28 - 1)).Builds m'.command := by
  refine ⟨echoLine_plain _, newMemory_cleared, fun h => ?_⟩
  have hholdable := (parseLine_builds_iff Nat.one_pos
    (fun c hc w hw => (echoLine_plain _ c hc w hw).literal) newMemory_cleared).mp h
  exact absurd (echoLine_holdable hholdable) (by decide)

end Cs252.Shell
