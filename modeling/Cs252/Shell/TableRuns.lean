import Cs252.Shell.TableMemory

/-!
# Cs252.Shell.TableRuns

The parser in memory does what `Parser` says, and it fails only for a table
that memory cannot hold (`parseLine_isSome_iff`).

Both are shown for one action and then for a run. A table only grows while a line
is read (`bounded_of_action`), so it is enough that memory can hold the last.
-/

namespace Cs252.Shell.Memory

/-! ### Lists for the arrays -/

/-- A table that memory can hold. -/
structure Bounded (first : Nat) (command : Shell.Command) : Prop where
  words : ∀ c ∈ command.simpleCommands,
    Capacity.Fits initialArgumentArrSize (c.arguments.length + 1)
  commands : Capacity.Fits first command.simpleCommands.length
  outfiles : command.outfileCounter < 2 ^ 31

/-- The table in memory. -/
structure Command.WellFormed {first : Nat} (command : Command first) : Prop where
  holds : ∃ commands, command.Holds commands
  outfiles : command.outfileCounter < 2 ^ 31

section Simulation

variable {σ : Type} {first : Nat} {expand : Expander σ} {m m' : Parser σ first}
  {s s' : Shell.Parser σ} {st st' : LineState} {t : Token} {line : List Token}

/-- A state that memory can hold. The simple command counts while it is being built. -/
structure Parser.Bounded (first : Nat) (st : LineState) (s : Shell.Parser σ) : Prop where
  command : Memory.Bounded first s.shell.command
  current : st = .arguments →
    Capacity.Fits initialArgumentArrSize (s.current.arguments.length + 1)

/-- The state in memory. -/
structure Parser.WellFormed (st : LineState) (m : Parser σ first) : Prop where
  command : m.command.WellFormed
  current : st = .arguments → ∃ words, m.current.Terminated words

theorem Command.WellFormed.bounded {command : Command first} (h : command.WellFormed) :
    Memory.Bounded first command.view := by
  obtain ⟨commands, hholds⟩ := h.holds
  refine ⟨?_, ?_, h.outfiles⟩
  · intro c hc
    have hmem : c.arguments ∈ commands := by
      rw [← hholds.view_arguments]
      exact List.mem_map_of_mem hc
    exact hholds.fits _ hmem
  · have hlength := congrArg List.length hholds.view_arguments
    rw [List.length_map, ← hholds.count] at hlength
    rw [hlength]
    exact Capacity.fits hholds.count_le

theorem Parser.WellFormed.of_command (h : m.command.WellFormed) (hst : st ≠ .arguments) :
    m.WellFormed st :=
  ⟨h, fun heq => absurd heq hst⟩

/-! ### One action -/

theorem commandWord_eq_some {text : String} (hm : m.WellFormed st)
    (h : commandWord text m = some m') :
    m'.WellFormed .arguments ∧ m'.view = Shell.commandWord text m.view := by
  obtain ⟨current, hcurrent, rfl⟩ := Option.map_eq_some_iff.mp h
  obtain ⟨hterminated, hview⟩ :=
    SimpleCommand.insertArgument_eq_some SimpleCommand.create_words hcurrent
  refine ⟨⟨hm.command, fun _ => ⟨_, hterminated⟩⟩, ?_⟩
  rw [Parser.view, hview, SimpleCommand.create_words.view_eq]
  rfl

theorem commandWord_isSome {text : String} : (commandWord text m).isSome := by
  rw [commandWord, Option.isSome_map]
  exact (SimpleCommand.insertArgument_isSome_iff SimpleCommand.create_words).mpr
    ⟨0, by decide, by decide⟩

theorem insertArguments_eq_some {text : String} (hm : m.WellFormed .arguments)
    (h : insertArguments expand text m = some m') :
    m'.WellFormed .arguments ∧ Shell.insertArguments expand text m.view = .ok m'.view := by
  obtain ⟨words, hwords⟩ := hm.current rfl
  obtain ⟨⟨arguments, statics⟩, hexpand, h⟩ := Option.bind_eq_some_iff.mp h
  obtain ⟨current, hcurrent, h⟩ := Option.bind_eq_some_iff.mp h
  cases h
  obtain ⟨hterminated, hview⟩ := SimpleCommand.foldlM_eq_some hwords hcurrent
  refine ⟨⟨hm.command, fun _ => ⟨_, hterminated⟩⟩, ?_⟩
  rw [Shell.insertArguments, show m.view.statics = m.statics from rfl, hexpand]
  exact congrArg (fun current => Except.ok { m.view with current := current, statics := statics })
    hview.symm

theorem insertArguments_isSome {text : String} (hm : m.WellFormed .arguments)
    (h : Shell.insertArguments expand text m.view = .ok s')
    (hbounded : Parser.Bounded first .arguments s') : (insertArguments expand text m).isSome := by
  obtain ⟨words, hwords⟩ := hm.current rfl
  unfold Shell.insertArguments at h
  split at h
  · cases h
  · next arguments statics hexpand =>
    cases h
    have hview : m.view.current.arguments = words := by
      rw [Parser.view, hwords.toWords.view_eq]
    have hfits := hbounded.current rfl
    rw [foldl_arguments, hview, List.length_append] at hfits
    obtain ⟨current, hcurrent⟩ :=
      Option.isSome_iff_exists.mp (SimpleCommand.foldlM_isSome hwords hfits)
    have hexpand : expand m.statics m.view.shell text = some (arguments, statics) := hexpand
    simp [insertArguments, hexpand, hcurrent]

theorem commandAndArgs_eq_some (hm : m.WellFormed .arguments) (h : commandAndArgs m = some m') :
    m'.command.WellFormed ∧ m'.view = Shell.commandAndArgs m.view := by
  obtain ⟨words, hwords⟩ := hm.current rfl
  obtain ⟨commands, hholds⟩ := hm.command.holds
  obtain ⟨command, hcommand, rfl⟩ := Option.map_eq_some_iff.mp h
  obtain ⟨inserted, hinsert, rfl⟩ := Option.map_eq_some_iff.mp hcommand
  obtain ⟨hholds', hview⟩ := Command.insertSimpleCommand_eq_some hholds hwords hinsert
  have houtfiles : inserted.outfileCounter = m.command.outfileCounter :=
    congrArg Shell.Command.outfileCounter hview
  refine ⟨⟨⟨_, hholds'⟩, ?_⟩, ?_⟩
  · rw [show ({ inserted with isCleared := false } : Command first).outfileCounter =
      inserted.outfileCounter from rfl, houtfiles]
    exact hm.command.outfiles
  · exact congrArg (fun command =>
      { m.view with shell := { m.view.shell with command := { command with isCleared := false } } })
      hview

theorem commandAndArgs_isSome (hfirst : 0 < first) (hm : m.WellFormed .arguments)
    (h : Bounded first (Shell.commandAndArgs m.view).shell.command) :
    (commandAndArgs m).isSome := by
  obtain ⟨words, hwords⟩ := hm.current rfl
  obtain ⟨commands, hholds⟩ := hm.command.holds
  have hfits : Capacity.Fits first (m.command.view.simpleCommands ++ [m.current.view]).length :=
    h.commands
  rw [List.length_append, ← List.length_map Shell.SimpleCommand.arguments,
    hholds.view_arguments] at hfits
  rw [commandAndArgs, Parser.modifyCommand, Option.isSome_map, Option.isSome_map]
  exact (Command.insertSimpleCommand_isSome_iff hfirst hholds).mpr hfits

theorem countOutfile_eq_some {command command' : Command first}
    (h : countOutfile command = some command') (hcommand : ∃ commands, command.Holds commands) :
    command'.WellFormed ∧
      command'.view = { command.view with outfileCounter := command.outfileCounter + 1 } := by
  unfold countOutfile at h
  split at h
  · next hlt =>
    cases h
    exact ⟨⟨hcommand, hlt⟩, rfl⟩
  · cases h

theorem iomodifierOpt_eq_some {op : IoModifier} {file : String} {command command' : Command first}
    (hcommand : command.WellFormed) (h : iomodifierOpt op file command = some command') :
    command'.WellFormed ∧ command'.view = Shell.iomodifierOpt op file command.view := by
  cases op with
  | great =>
    have hcount : countOutfile { command with outFile := some file } = some command' := h
    exact countOutfile_eq_some hcount hcommand.holds
  | greatGreat =>
    have hcount : countOutfile { command with outFile := some file, isAppended := true } =
        some command' := h
    exact countOutfile_eq_some hcount hcommand.holds
  | _ =>
    cases h
    exact ⟨⟨hcommand.holds, hcommand.outfiles⟩, rfl⟩

theorem iomodifierOpt_isSome {op : IoModifier} {file : String} {command : Command first}
    (h : Bounded first (Shell.iomodifierOpt op file command.view)) :
    (iomodifierOpt op file command).isSome := by
  cases op with
  | great => exact Option.isSome_of_eq_some (if_pos h.outfiles)
  | greatGreat => exact Option.isSome_of_eq_some (if_pos h.outfiles)
  | _ => rfl

/-! ### Runs -/

theorem action_eq_some (hm : m.WellFormed st) (h : action expand st t m = some m') :
    m'.WellFormed (st.next t) ∧ Shell.action expand st t m.view = .ok m'.view := by
  cases st with
  | lineStart =>
    cases t with
    | word text =>
      obtain ⟨hm', hview⟩ := commandWord_eq_some hm h
      exact ⟨hm', congrArg Except.ok hview.symm⟩
    -- every other token leaves the table as it is
    | _ =>
      cases h
      exact ⟨.of_command hm.command LineState.noConfusion, rfl⟩
  | pipe =>
    cases t with
    | word text =>
      obtain ⟨hm', hview⟩ := commandWord_eq_some hm h
      exact ⟨hm', congrArg Except.ok hview.symm⟩
    | _ =>
      cases h
      exact ⟨.of_command hm.command LineState.noConfusion, rfl⟩
  | arguments =>
    cases t with
    | word text => exact insertArguments_eq_some hm h
    | ampersand =>
      obtain ⟨m₁, hm₁, h⟩ := Option.bind_eq_some_iff.mp h
      cases h
      obtain ⟨hcommand, hview⟩ := commandAndArgs_eq_some hm hm₁
      refine ⟨.of_command ⟨hcommand.holds, hcommand.outfiles⟩ LineState.noConfusion, ?_⟩
      rw [Shell.action, ← hview]
      rfl
    | _ =>
      obtain ⟨hcommand, hview⟩ := commandAndArgs_eq_some hm h
      exact ⟨.of_command hcommand LineState.noConfusion, congrArg Except.ok hview.symm⟩
  | modifiers =>
    cases t with
    | ampersand =>
      cases h
      exact ⟨.of_command ⟨hm.command.holds, hm.command.outfiles⟩ LineState.noConfusion, rfl⟩
    | _ =>
      cases h
      exact ⟨.of_command hm.command LineState.noConfusion, rfl⟩
  | operator op =>
    cases t with
    | word text =>
      obtain ⟨command, hcommand, rfl⟩ := Option.map_eq_some_iff.mp h
      obtain ⟨hcommand', hview⟩ := iomodifierOpt_eq_some hm.command hcommand
      refine ⟨.of_command hcommand' LineState.noConfusion, ?_⟩
      exact congrArg (fun command =>
        Except.ok { m.view with shell := { m.view.shell with command := command } }) hview.symm
    | _ =>
      cases h
      exact ⟨.of_command hm.command LineState.noConfusion, rfl⟩
  | _ =>
    cases t <;> cases h <;> exact ⟨.of_command hm.command LineState.noConfusion, rfl⟩

theorem action_isSome (hfirst : 0 < first) (hm : m.WellFormed st)
    (h : Shell.action expand st t m.view = .ok s') (hbounded : Parser.Bounded first (st.next t) s') :
    (action expand st t m).isSome := by
  cases st with
  | lineStart =>
    cases t with
    | word text => exact commandWord_isSome
    | _ => rfl
  | pipe =>
    cases t with
    | word text => exact commandWord_isSome
    | _ => rfl
  | arguments =>
    cases t with
    | word text => exact insertArguments_isSome hm h hbounded
    | ampersand =>
      cases h
      have hcommand : Bounded first (Shell.commandAndArgs m.view).shell.command :=
        ⟨hbounded.command.words, hbounded.command.commands, hbounded.command.outfiles⟩
      obtain ⟨m₁, hm₁⟩ := Option.isSome_iff_exists.mp (commandAndArgs_isSome hfirst hm hcommand)
      rw [action, hm₁]
      rfl
    | _ =>
      cases h
      exact commandAndArgs_isSome hfirst hm hbounded.command
  | operator op =>
    cases t with
    | word text =>
      cases h
      rw [action, Parser.modifyCommand, Option.isSome_map]
      exact iomodifierOpt_isSome hbounded.command
    | _ => rfl
  | _ => cases t <;> rfl

/-- A table only grows. -/
theorem Parser.Bounded.of_commandAndArgs
    (h : Memory.Bounded first (Shell.commandAndArgs s).shell.command) :
    Parser.Bounded first st s := by
  have hwords : ∀ c ∈ s.shell.command.simpleCommands ++ [s.current],
      Capacity.Fits initialArgumentArrSize (c.arguments.length + 1) := h.words
  have hcommands : Capacity.Fits first (s.shell.command.simpleCommands ++ [s.current]).length :=
    h.commands
  rw [List.forall_mem_append] at hwords
  rw [List.length_append] at hcommands
  exact ⟨⟨hwords.1, hcommands.mono (Nat.le_add_right _ _), h.outfiles⟩,
    fun _ => hwords.2 _ (List.mem_singleton_self _)⟩

theorem bounded_of_action (h : Shell.action expand st t s = .ok s')
    (hbounded : Parser.Bounded first (st.next t) s') : Parser.Bounded first st s := by
  have hcommand := hbounded.command
  cases st with
  | arguments =>
    cases t with
    | word text =>
      rw [Shell.action, Shell.insertArguments] at h
      split at h
      · cases h
      · cases h
        have hfits := hbounded.current rfl
        rw [foldl_arguments, List.length_append] at hfits
        exact ⟨hcommand, fun _ => hfits.mono (by omega)⟩
    | ampersand =>
      cases h
      exact .of_commandAndArgs ⟨hcommand.words, hcommand.commands, hcommand.outfiles⟩
    | _ =>
      cases h
      exact .of_commandAndArgs hcommand
  | operator op =>
    cases t with
    | word text =>
      cases h
      refine ⟨?_, LineState.noConfusion⟩
      cases op with
      | great => exact ⟨hcommand.words, hcommand.commands, Nat.lt_of_succ_lt hcommand.outfiles⟩
      | greatGreat => exact ⟨hcommand.words, hcommand.commands, Nat.lt_of_succ_lt hcommand.outfiles⟩
      | _ => exact ⟨hcommand.words, hcommand.commands, hcommand.outfiles⟩
    | _ =>
      cases h
      exact ⟨hcommand, LineState.noConfusion⟩
  | _ =>
    cases t <;> cases h <;>
      exact ⟨⟨hcommand.words, hcommand.commands, hcommand.outfiles⟩, LineState.noConfusion⟩

theorem bounded_of_feed (h : Shell.feed expand st line s = .ok (st', s'))
    (hbounded : Parser.Bounded first st' s') : Parser.Bounded first st s := by
  induction line generalizing st s with
  | nil =>
    cases h
    exact hbounded
  | cons t line ih =>
    rw [Shell.feed] at h
    split at h
    · cases h
    · next s₁ hs₁ => exact bounded_of_action hs₁ (ih h)

/-- A run in memory does what the parser does. -/
theorem feed_eq_some (hm : m.WellFormed st) (h : feed expand st line m = some (st', m')) :
    m'.WellFormed st' ∧ Shell.feed expand st line m.view = .ok (st', m'.view) := by
  induction line generalizing st m with
  | nil =>
    cases h
    exact ⟨hm, rfl⟩
  | cons t line ih =>
    obtain ⟨m₁, hm₁, h⟩ := Option.bind_eq_some_iff.mp h
    obtain ⟨hm₁', haction⟩ := action_eq_some hm hm₁
    rw [Shell.feed, haction]
    exact ih hm₁' h

/-- A run in memory does not fail for a table that memory can hold. -/
theorem feed_isSome (hfirst : 0 < first) (hm : m.WellFormed st)
    (h : Shell.feed expand st line m.view = .ok (st', s'))
    (hbounded : Parser.Bounded first st' s') : (feed expand st line m).isSome := by
  induction line generalizing st m with
  | nil => rfl
  | cons t line ih =>
    rw [Shell.feed] at h
    split at h
    · cases h
    · next s₁ hs₁ =>
      obtain ⟨m₁, hm₁⟩ := Option.isSome_iff_exists.mp
        (action_isSome hfirst hm hs₁ (bounded_of_feed h hbounded))
      obtain ⟨hm₁', haction⟩ := action_eq_some hm hm₁
      rw [hs₁] at haction
      cases haction
      rw [feed, hm₁]
      exact ih hm₁' h

theorem parseLine_eq_some (hm : m.WellFormed .lineStart) (h : parseLine expand line m = some m') :
    m'.command.WellFormed ∧ ∃ st s, Shell.feed expand .lineStart line m.view = .ok (st, s) ∧
      Shell.beforeExecute st s = some m'.view := by
  obtain ⟨⟨st, m₁⟩, hfeed, h⟩ := Option.bind_eq_some_iff.mp h
  obtain ⟨hm₁, hfeed⟩ := feed_eq_some hm hfeed
  have hbefore : m'.command.WellFormed ∧ Shell.beforeExecute st m₁.view = some m'.view := by
    cases st with
    | arguments =>
      obtain ⟨hcommand, hview⟩ := commandAndArgs_eq_some hm₁ h
      exact ⟨hcommand, congrArg some hview.symm⟩
    | modifiers =>
      cases h
      exact ⟨hm₁.command, rfl⟩
    | background =>
      cases h
      exact ⟨hm₁.command, rfl⟩
    | _ => cases h
  exact ⟨hbefore.1, st, m₁.view, hfeed, hbefore.2⟩

/-- **The parser fails only for a table that memory cannot hold.** -/
theorem parseLine_isSome_iff (hfirst : 0 < first) (hm : m.WellFormed .lineStart)
    (h : Shell.feed expand .lineStart line m.view = .ok (st, s))
    (hexecute : Shell.beforeExecute st s = some s') :
    (parseLine expand line m).isSome ↔ Bounded first s'.shell.command := by
  constructor
  · intro hsome
    obtain ⟨m', hm'⟩ := Option.isSome_iff_exists.mp hsome
    obtain ⟨hcommand, st₁, s₁, hfeed, hbefore⟩ := parseLine_eq_some hm hm'
    rw [h] at hfeed
    cases hfeed
    rw [hexecute] at hbefore
    cases hbefore
    exact hcommand.bounded
  · intro hbounded
    have hst : Parser.Bounded first st s := by
      cases st with
      | arguments =>
        cases hexecute
        exact .of_commandAndArgs hbounded
      | modifiers =>
        cases hexecute
        exact ⟨hbounded, LineState.noConfusion⟩
      | background =>
        cases hexecute
        exact ⟨hbounded, LineState.noConfusion⟩
      | _ => cases hexecute
    obtain ⟨⟨st₁, m₁⟩, hm₁⟩ := Option.isSome_iff_exists.mp (feed_isSome hfirst hm h hst)
    obtain ⟨hwell, hfeed⟩ := feed_eq_some hm hm₁
    rw [h] at hfeed
    cases hfeed
    rw [parseLine, hm₁]
    cases st with
    | arguments =>
      cases hexecute
      exact commandAndArgs_isSome hfirst hwell hbounded
    | modifiers => rfl
    | background => rfl
    | _ => cases hexecute

end Simulation

end Cs252.Shell.Memory
