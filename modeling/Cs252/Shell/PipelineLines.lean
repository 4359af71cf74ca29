import Cs252.Shell.Grammar
import Mathlib.Data.List.Induction

/-!
# Cs252.Shell.PipelineLines

The lines that are executed, as trees (`PipelineLine`), and the table that the
parser builds for one whose words stand for themselves.
-/

namespace Cs252.Shell

/-! ### Lines -/

/-- `command_and_args`. -/
structure CommandWords where
  command : String
  arguments : List String
  deriving Repr, DecidableEq

/-- A line with a pipeline. -/
structure PipelineLine where
  first : CommandWords
  rest : List CommandWords
  modifiers : List (IoModifier × String)
  background : Bool
  deriving Repr, DecidableEq

/-- The words of a simple command. -/
def CommandWords.words (c : CommandWords) : List String := c.command :: c.arguments

/-- Its tokens. -/
def CommandWords.tokens (c : CommandWords) : List Token := c.words.map .word

/-- The tokens of `iomodifier_list`. -/
def modifierTokens (modifiers : List (IoModifier × String)) : List Token :=
  modifiers.flatMap fun m => [.io m.1, .word m.2]

/-- The tokens of `background_opt`. -/
def backgroundTokens (background : Bool) : List Token := if background then [.ampersand] else []

namespace PipelineLine

/-- The simple commands of a line. -/
def commands (line : PipelineLine) : List CommandWords := line.first :: line.rest

/-- The tokens of `pipe_list`. -/
def pipeTokens (line : PipelineLine) : List Token :=
  line.first.tokens ++ line.rest.flatMap fun c => .pipe :: c.tokens

/-- The tokens of a line. -/
def tokens (line : PipelineLine) : List Token :=
  line.pipeTokens ++ modifierTokens line.modifiers ++ backgroundTokens line.background

end PipelineLine

/-! ### The lines of the grammar -/

theorem argumentList_iff {ts : List Token} :
    ArgumentList ts ↔ ∃ words : List String, ts = words.map .word := by
  constructor
  · intro h
    induction h with
    | empty => exact ⟨[], rfl⟩
    | @argument _ text _ ih =>
      obtain ⟨words, rfl⟩ := ih
      exact ⟨words ++ [text], by simp⟩
  · intro h
    obtain ⟨words, rfl⟩ := h
    induction words using List.reverseRecOn with
    | nil => exact .empty
    | append_singleton words text ih =>
      rw [List.map_append]
      exact ih.argument

theorem commandAndArgs_iff {ts : List Token} :
    CommandAndArgs ts ↔ ∃ c : CommandWords, ts = c.tokens := by
  constructor
  · intro h
    obtain ⟨hargs⟩ := h
    obtain ⟨words, rfl⟩ := argumentList_iff.mp hargs
    exact ⟨⟨_, words⟩, rfl⟩
  · intro h
    obtain ⟨c, rfl⟩ := h
    exact .mk (argumentList_iff.mpr ⟨c.arguments, rfl⟩)

theorem pipeList_iff {ts : List Token} :
    PipeList ts ↔ ∃ (first : CommandWords) (rest : List CommandWords),
      ts = first.tokens ++ rest.flatMap fun c => .pipe :: c.tokens := by
  constructor
  · intro h
    induction h with
    | single hcommand =>
      obtain ⟨c, rfl⟩ := commandAndArgs_iff.mp hcommand
      exact ⟨c, [], by simp⟩
    | pipe _ hcommand ih =>
      obtain ⟨first, rest, rfl⟩ := ih
      obtain ⟨c, rfl⟩ := commandAndArgs_iff.mp hcommand
      exact ⟨first, rest ++ [c], by simp⟩
  · intro h
    obtain ⟨first, rest, rfl⟩ := h
    induction rest using List.reverseRecOn with
    | nil =>
      rw [List.flatMap_nil, List.append_nil]
      exact .single (commandAndArgs_iff.mpr ⟨first, rfl⟩)
    | append_singleton rest c ih =>
      rw [List.flatMap_append, ← List.append_assoc, List.flatMap_singleton]
      exact .pipe ih (commandAndArgs_iff.mpr ⟨c, rfl⟩)

theorem iomodifierList_iff {ts : List Token} :
    IomodifierList ts ↔ ∃ modifiers : List (IoModifier × String), ts = modifierTokens modifiers := by
  constructor
  · intro h
    induction h with
    | empty => exact ⟨[], rfl⟩
    | modifier _ hmodifier ih =>
      obtain ⟨modifiers, rfl⟩ := ih
      obtain @⟨op, text⟩ := hmodifier
      exact ⟨modifiers ++ [(op, text)], by simp [modifierTokens]⟩
  · intro h
    obtain ⟨modifiers, rfl⟩ := h
    induction modifiers using List.reverseRecOn with
    | nil => exact .empty
    | append_singleton modifiers m ih =>
      rw [modifierTokens, List.flatMap_append, List.flatMap_singleton]
      exact ih.modifier .mk

theorem backgroundOpt_iff {ts : List Token} :
    BackgroundOpt ts ↔ ∃ background : Bool, ts = backgroundTokens background := by
  constructor
  · intro h
    cases h with
    | empty => exact ⟨false, rfl⟩
    | ampersand => exact ⟨true, rfl⟩
  · intro h
    obtain ⟨background, rfl⟩ := h
    cases background with
    | false => exact .empty
    | true => exact .ampersand

/-- The trees are the lines of the grammar. -/
theorem wellFormedLine_iff {line : List Token} :
    WellFormedLine line ↔ line = [] ∨ ∃ l : PipelineLine, line = l.tokens := by
  constructor
  · intro h
    cases h with
    | newline => exact Or.inl rfl
    | command hpipes hmodifiers hbackground =>
      obtain ⟨first, rest, rfl⟩ := pipeList_iff.mp hpipes
      obtain ⟨modifiers, rfl⟩ := iomodifierList_iff.mp hmodifiers
      obtain ⟨background, rfl⟩ := backgroundOpt_iff.mp hbackground
      exact Or.inr ⟨⟨first, rest, modifiers, background⟩, rfl⟩
  · intro h
    rcases h with rfl | ⟨l, rfl⟩
    · exact .newline
    · exact .command (pipeList_iff.mpr ⟨_, _, rfl⟩) (iomodifierList_iff.mpr ⟨_, rfl⟩)
        (backgroundOpt_iff.mpr ⟨_, rfl⟩)

/-! ### What the parser builds -/

/-- The simple command with the words as they are. -/
def CommandWords.simpleCommand (c : CommandWords) : SimpleCommand :=
  c.words.foldl simpleCommandInsertArgument simpleCommandCreate

/-- A table with another simple command. -/
def insertCommand (command : Command) (c : CommandWords) : Command :=
  { commandInsertSimpleCommand command c.simpleCommand with isCleared := false }

/-- A table with another modifier. -/
def insertModifier (command : Command) (m : IoModifier × String) : Command :=
  iomodifierOpt m.1 m.2 command

/-- A table that is in the background if the line is. -/
def insertBackground (background : Bool) (command : Command) : Command :=
  if background then backgroundOpt command else command

/-- What a line adds to a table. -/
def PipelineLine.table (line : PipelineLine) (command : Command) : Command :=
  insertBackground line.background
    (line.modifiers.foldl insertModifier (line.commands.foldl insertCommand command))

/-- The state with which `command_execute` is called, if `NEWLINE` calls it. -/
def beforeExecute {σ : Type} : LineState → Parser σ → Option (Parser σ)
  | .arguments, s => some (commandAndArgs s)
  | .modifiers, s | .background, s => some s
  | _, _ => none

section Build

variable {σ : Type} {expand : Expander σ} {s s' : Parser σ} {st : LineState}

theorem feed_append (line line' : List Token) :
    feed expand st (line ++ line') s =
      match feed expand st line s with
      | .error s => .error s
      | .ok (st, s) => feed expand st line' s := by
  induction line generalizing st s with
  | nil => rfl
  | cons t line ih =>
    rw [List.cons_append, feed, feed]
    cases action expand st t s with
    | error s => rfl
    | ok s => exact ih

/-- A word that stands for itself. -/
def Literal (expand : Expander σ) (statics : σ) (word : String) : Prop :=
  ∀ p, expand statics p word = some ([word], statics)

theorem feed_words {words : List String} (h : ∀ w ∈ words, Literal expand s.statics w) :
    feed expand .arguments (words.map .word) s =
      .ok (.arguments, { s with current := words.foldl simpleCommandInsertArgument s.current }) := by
  induction words generalizing s with
  | nil => rfl
  | cons word words ih =>
    rw [List.forall_mem_cons] at h
    have hword : insertArguments expand word s =
        .ok { s with current := simpleCommandInsertArgument s.current word } := by
      rw [insertArguments, h.1]
      rfl
    rw [List.map_cons, feed, action, hword]
    exact ih h.2

/-- A simple command, where one begins. -/
theorem feed_command {c : CommandWords} (h : ∀ w ∈ c.arguments, Literal expand s.statics w)
    (hst : st = .lineStart ∨ st = .pipe) :
    feed expand st c.tokens s = .ok (.arguments, { s with current := c.simpleCommand }) := by
  have hfeed : feed expand st c.tokens s =
      feed expand .arguments (c.arguments.map .word) (commandWord c.command s) := by
    rcases hst with rfl | rfl <;> rfl
  rw [hfeed, feed_words (s := commandWord c.command s) h]
  rfl

/-- The simple commands after the first. -/
theorem feed_rest {rest : List CommandWords}
    (h : ∀ c ∈ rest, ∀ w ∈ c.arguments, Literal expand s.statics w) :
    ∃ s', feed expand .arguments (rest.flatMap fun c => .pipe :: c.tokens) s = .ok (.arguments, s') ∧
      commandAndArgs s' =
        { (commandAndArgs s).modifyCommand fun command => rest.foldl insertCommand command with
          current := s'.current } := by
  induction rest generalizing s with
  | nil => exact ⟨s, rfl, rfl⟩
  | cons c rest ih =>
    rw [List.forall_mem_cons] at h
    -- `|` inserts the simple command before it, and `c` becomes the current one
    have hc : feed expand .arguments (.pipe :: c.tokens) s =
        .ok (.arguments, { commandAndArgs s with current := c.simpleCommand }) :=
      feed_command (s := commandAndArgs s) h.1 (Or.inr rfl)
    obtain ⟨s', hfeed, hs'⟩ := ih (s := { commandAndArgs s with current := c.simpleCommand }) h.2
    refine ⟨s', ?_, hs'⟩
    rw [List.flatMap_cons, feed_append, hc]
    exact hfeed

/-- The modifiers, of which there may be none. -/
theorem feed_modifiers (expand : Expander σ) (modifiers : List (IoModifier × String))
    (h : beforeExecute st s = some s') (hst : st = .arguments ∨ st = .modifiers) :
    ∃ st' s₁, feed expand st (modifierTokens modifiers) s = .ok (st', s₁) ∧
      (st' = .arguments ∨ st' = .modifiers) ∧
      beforeExecute st' s₁ =
        some (s'.modifyCommand fun command => modifiers.foldl insertModifier command) := by
  induction modifiers generalizing st s s' with
  | nil => exact ⟨st, s, rfl, hst, h⟩
  | cons m modifiers ih =>
    -- at the first modifier the last simple command is still to be inserted
    have hm : feed expand st [.io m.1, .word m.2] s =
        .ok (.modifiers, s'.modifyCommand (iomodifierOpt m.1 m.2)) := by
      rcases hst with rfl | rfl <;> cases h <;> rfl
    obtain ⟨st', s₁, hfeed, hst', hs₁⟩ := ih
      (show beforeExecute .modifiers (s'.modifyCommand (iomodifierOpt m.1 m.2)) = _ from rfl)
      (Or.inr rfl)
    refine ⟨st', s₁, ?_, hst', hs₁⟩
    rw [modifierTokens, List.flatMap_cons, feed_append, hm]
    exact hfeed

theorem feed_background (expand : Expander σ) (background : Bool) (h : beforeExecute st s = some s')
    (hst : st = .arguments ∨ st = .modifiers) :
    ∃ st' s₁, feed expand st (backgroundTokens background) s = .ok (st', s₁) ∧
      beforeExecute st' s₁ = some (s'.modifyCommand (insertBackground background)) := by
  cases background with
  | false => exact ⟨st, s, rfl, h⟩
  | true =>
    refine ⟨.background, s'.modifyCommand backgroundOpt, ?_, rfl⟩
    rcases hst with rfl | rfl <;> cases h <;> rfl

/-- `command_execute` is called with what the line adds to the table. -/
theorem feed_tokens {line : PipelineLine}
    (h : ∀ c ∈ line.commands, ∀ w ∈ c.arguments, Literal expand s.statics w) :
    ∃ st s₁ current, feed expand .lineStart line.tokens s = .ok (st, s₁) ∧
      beforeExecute st s₁ = some { s.modifyCommand line.table with current := current } := by
  obtain ⟨hfirst, hrest⟩ := List.forall_mem_cons.mp h
  obtain ⟨s₁, hfeed₁, hs₁⟩ := feed_rest (s := { s with current := line.first.simpleCommand }) hrest
  obtain ⟨st₂, s₂, hfeed₂, hst₂, hs₂⟩ := feed_modifiers expand line.modifiers
    (show beforeExecute .arguments s₁ = _ from congrArg some hs₁) (Or.inl rfl)
  obtain ⟨st₃, s₃, hfeed₃, hs₃⟩ :=
    feed_background expand line.background hs₂ hst₂
  refine ⟨st₃, s₃, s₁.current, ?_, hs₃⟩
  rw [PipelineLine.tokens, PipelineLine.pipeTokens, feed_append, feed_append, feed_append,
    feed_command hfirst (Or.inl rfl)]
  simp only [hfeed₁, hfeed₂, hfeed₃]

end Build

/-! ### The table of a line -/

/-- The operators that set `out_file`. -/
def IoModifier.isOut : IoModifier → Bool
  | .great | .greatGreat => true
  | _ => false

/-- The operator that sets `in_file`. -/
def IoModifier.isIn : IoModifier → Bool
  | .less => true
  | _ => false

/-- The operators that set `err_file`. -/
def IoModifier.isErr : IoModifier → Bool
  | .greatAmp | .greatGreatAmp | .redir => true
  | _ => false

/-- The word of the last modifier of a kind. -/
def lastFile (kind : IoModifier → Bool) (modifiers : List (IoModifier × String)) : Option String :=
  (modifiers.filter fun m => kind m.1).getLast?.map Prod.snd

section Table

variable {command : Command} {modifiers : List (IoModifier × String)}

theorem foldl_arguments (words : List String) (c : SimpleCommand) :
    (words.foldl simpleCommandInsertArgument c).arguments = c.arguments ++ words := by
  induction words generalizing c with
  | nil => exact (List.append_nil _).symm
  | cons word words ih =>
    rw [List.foldl_cons, ih, simpleCommandInsertArgument, List.append_assoc]
    rfl

theorem CommandWords.simpleCommand_arguments (c : CommandWords) :
    c.simpleCommand.arguments = c.words :=
  foldl_arguments c.words simpleCommandCreate

/-- The commands change nothing but the array of simple commands. -/
theorem foldl_insertCommand (commands : List CommandWords) (command : Command) :
    commands.foldl insertCommand command = { command with
      numAvailableSimpleCommands := (commands.foldl insertCommand command).numAvailableSimpleCommands
      simpleCommands := command.simpleCommands ++ commands.map CommandWords.simpleCommand
      isCleared := (commands.foldl insertCommand command).isCleared } := by
  induction commands generalizing command with
  | nil => rw [List.map_nil, List.append_nil, List.foldl_nil]
  | cons c commands ih =>
    rw [List.foldl_cons, ih]
    simp [insertCommand, commandInsertSimpleCommand]

/-- What no modifier changes. -/
theorem foldl_insertModifier_same {α : Type} (get : Command → α)
    (hget : ∀ command m, get (insertModifier command m) = get command) :
    get (modifiers.foldl insertModifier command) = get command := by
  induction modifiers generalizing command with
  | nil => rfl
  | cons m modifiers ih => rw [List.foldl_cons, ih, hget]

theorem insertModifier_outfileCounter (command : Command) (m : IoModifier × String) :
    (insertModifier command m).outfileCounter =
      command.outfileCounter + if m.1.isOut then 1 else 0 := by
  obtain ⟨op, file⟩ := m
  cases op <;> rfl

theorem foldl_insertModifier_outfileCounter :
    (modifiers.foldl insertModifier command).outfileCounter =
      command.outfileCounter + modifiers.countP fun m => m.1.isOut := by
  induction modifiers generalizing command with
  | nil => rfl
  | cons m modifiers ih =>
    rw [List.foldl_cons, ih, insertModifier_outfileCounter, List.countP_cons]
    omega

/-- A file that the modifiers of a kind set. -/
theorem foldl_insertModifier_file (kind : IoModifier → Bool) (file : Command → Option String)
    (hfile : ∀ command m,
      file (insertModifier command m) = if kind m.1 then some m.2 else file command) :
    file (modifiers.foldl insertModifier command) = (lastFile kind modifiers).or (file command) := by
  induction modifiers using List.reverseRecOn with
  | nil => rfl
  | append_singleton modifiers m ih =>
    rw [List.foldl_append, List.foldl_cons, List.foldl_nil, hfile, ih, lastFile, lastFile,
      List.filter_append]
    cases hm : kind m.1 <;> simp [hm]

/-- The table of a line. -/
structure PipelineLine.Denotes (line : PipelineLine) (command : Command) : Prop where
  simpleCommands :
    command.simpleCommands.map SimpleCommand.arguments = line.commands.map CommandWords.words
  outFile : command.outFile = lastFile IoModifier.isOut line.modifiers
  inFile : command.inFile = lastFile IoModifier.isIn line.modifiers
  errFile : command.errFile = lastFile IoModifier.isErr line.modifiers
  isBackground : command.isBackground = line.background
  outfileCounter : command.outfileCounter = line.modifiers.countP fun m => m.1.isOut

theorem insertBackground_eq (background : Bool) (command : Command) :
    insertBackground background command =
      { command with isBackground := command.isBackground || background } := by
  cases background with
  | false => simp [insertBackground]
  | true => simp [insertBackground, backgroundOpt]

theorem PipelineLine.table_denotes {line : PipelineLine} (h : command.Fresh) :
    line.Denotes (line.table command) := by
  rw [h, PipelineLine.table, insertBackground_eq, foldl_insertCommand]
  refine ⟨?_, ?_, ?_, ?_, ?_, ?_⟩
  · simp only [foldl_insertModifier_same Command.simpleCommands fun _ ⟨op, _⟩ => by cases op <;> rfl]
    rw [List.map_append, List.map_map]
    exact List.map_congr_left fun c _ => c.simpleCommand_arguments
  · simp only [foldl_insertModifier_file IoModifier.isOut Command.outFile
      fun _ ⟨op, _⟩ => by cases op <;> rfl]
    exact Option.or_none
  · simp only [foldl_insertModifier_file IoModifier.isIn Command.inFile
      fun _ ⟨op, _⟩ => by cases op <;> rfl]
    exact Option.or_none
  · simp only [foldl_insertModifier_file IoModifier.isErr Command.errFile
      fun _ ⟨op, _⟩ => by cases op <;> rfl]
    exact Option.or_none
  · simp only [foldl_insertModifier_same Command.isBackground fun _ ⟨op, _⟩ => by cases op <;> rfl]
    exact Bool.false_or _
  · simp only [foldl_insertModifier_outfileCounter]
    exact Nat.zero_add _

end Table

end Cs252.Shell
