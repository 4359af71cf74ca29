import Cs252.Shell.PipelineLines
import Cs252.Shell.Wiring

/-!
# Cs252.Shell.OpenModes

The mode in which a redirection is opened.

A file is named by an operator and opened by `command_execute`, when it sets up
the last simple command. Between the two there is one flag, `is_appended`, for
both streams: it is set by `>>` and by `>>&` and read when the output is opened.
The error file is opened for appending whatever the flag says.

`setupOfLast` follows `command_execute` to the place where the last command is
set up. `opensAsNamed_iff` is the condition on the modifiers under which every
file is opened in the mode of the operator that named it.
-/

namespace Cs252.Shell

open Descriptors

/-! ### The last command -/

/-- The loop from command `i` on, as far as the set up of the last command: the
state in which that command is dispatched. -/
def loopSetup (os : Answers) (tmpout tmperr : Option Nat) :
    Nat → List SimpleCommand → Option Nat → ShellState → Option ShellState
  | _, [], _, _ => none
  | _, [sCommand], fdin, p =>
    match argument sCommand 0 with
    | none => none
    | some name =>
      if name = "exit" then none
      else
        let p := { p with fds := (p.fds.dup2 fdin 0).close fdin }
        let (fdout, p) := setupLast os tmpout tmperr p
        some (redirectOutput fdout p)
  | i, sCommand :: next :: rest, fdin, p =>
    match runCommand os tmpout tmperr i false sCommand fdin p with
    | .error _ => none
    | .ok (fdin, _, p) => loopSetup os tmpout tmperr (i + 1) (next :: rest) fdin p

/-- `command_execute` as far as the set up of the last command, if it comes to that. -/
def setupOfLast (os : Answers) (p : ShellState) : Option ShellState :=
  match p.command.simpleCommands with
  | [] => none
  | sCommand :: _ =>
    match argument sCommand 0 with
    | none => none
    | some name =>
      if name = "exit" then none
      else
        let p := warnAmbiguous p
        let (tmpin, fds) := p.fds.dup (some 0)
        let (tmpout, fds) := fds.dup (some 1)
        let (tmperr, fds) := fds.dup (some 2)
        let (fdin, fds) := openOrDup p.command.inFile (openIn os) tmpin fds
        loopSetup os tmpout tmperr 0 p.command.simpleCommands fdin { p with fds := fds }

section Setup

variable {os : Answers} {tmpout tmperr : Option Nat}

/-- The loop ends with the dispatch of the last command in the state of its set up. -/
theorem runPipeline_of_loopSetup {cmds : List SimpleCommand} {i : Nat} {fdin : Option Nat}
    {p q : ShellState} (h : loopSetup os tmpout tmperr i cmds fdin p = some q) (ret : Option Nat) :
    ∃ j name sCommand, cmds.getLast? = some sCommand ∧ argument sCommand 0 = some name ∧
      runPipeline os tmpout tmperr i cmds fdin ret p =
        (dispatch os j name sCommand q).map fun r => (some r.1, r.2) := by
  induction cmds generalizing i fdin ret p with
  | nil => simp [loopSetup] at h
  | cons sCommand rest ih =>
    cases rest with
    | nil =>
      cases hname : argument sCommand 0 with
      | none => simp [loopSetup, hname] at h
      | some name =>
        by_cases hexit : name = "exit"
        · simp [loopSetup, hname, hexit] at h
        · simp only [loopSetup, hname, if_neg hexit, Option.some.injEq] at h
          refine ⟨i, name, sCommand, rfl, hname, ?_⟩
          simp only [runPipeline, runCommand, hname, if_neg hexit, List.isEmpty_nil, if_true, h]
          cases dispatch os i name sCommand q <;> rfl
    | cons next rest =>
      rw [loopSetup] at h
      rw [runPipeline, List.isEmpty_cons]
      cases hrun : runCommand os tmpout tmperr i false sCommand fdin p with
      | error outcome => simp [hrun] at h
      | ok result =>
        obtain ⟨fdin', pid, p'⟩ := result
        simp only [hrun] at h
        obtain ⟨j, name, last, hlast, hname, heq⟩ := ih h (some pid)
        exact ⟨j, name, last, by rwa [List.getLast?_cons_cons], hname, heq⟩

/-- Both functions do the same before the loop. -/
theorem setupOfLast_start (os : Answers) {p : ShellState} {std : Nat → File}
    {sCommand : SimpleCommand} {rest : List SimpleCommand} {name : String}
    (hcmds : p.command.simpleCommands = sCommand :: rest)
    (hname : argument sCommand 0 = some name) (hexit : name ≠ "exit")
    (hstd : ∀ fd < 3, p.fds.get fd = some (std fd)) :
    ∃ (a b c : Nat) (input : Option (Nat × File)) (p' : ShellState),
      commandExecute os p = afterLoop (some a) (some b) (some c)
        (runPipeline os (some b) (some c) 0 p.command.simpleCommands (input.map Prod.fst) none p') ∧
      setupOfLast os p =
        loopSetup os (some b) (some c) 0 p.command.simpleCommands (input.map Prod.fst) p' ∧
      View p.fds p'.fds std (input.toList ++ saved a b c std) ∧ p'.command = p.command := by
  obtain ⟨p₁, hp₁⟩ : ∃ p₁, warnAmbiguous p = p₁ := ⟨_, rfl⟩
  obtain ⟨hcommand, hfds⟩ : p₁.command = p.command ∧ p₁.fds = p.fds := by
    rw [← hp₁, warnAmbiguous]
    split <;> exact ⟨rfl, rfl⟩
  obtain ⟨a, b, c, t₁, t₂, t₃, ha, hb, hc, h₃⟩ := save_spec hstd
  obtain ⟨input, t₄, hin, -, h₄⟩ :=
    openOrDup_spec h₃ (r := (a, std 0)) (mem_saved_in ..) p.command.inFile (openIn os)
  refine ⟨a, b, c, input, { p₁ with fds := t₄ }, ?_, ?_, h₄, hcommand⟩
  · simp only [commandExecute, hcmds, hname, if_neg hexit, hp₁, hfds, ha, hb, hc, hcommand, hin]
  · simp only [setupOfLast, hcmds, hname, if_neg hexit, hp₁, hfds, ha, hb, hc, hcommand, hin]

theorem setupOfLast_inv {p q : ShellState} (h : setupOfLast os p = some q) :
    ∃ sCommand rest name, p.command.simpleCommands = sCommand :: rest ∧
      argument sCommand 0 = some name ∧ name ≠ "exit" := by
  cases hcmds : p.command.simpleCommands with
  | nil => simp [setupOfLast, hcmds] at h
  | cons sCommand rest =>
    cases hname : argument sCommand 0 with
    | none => simp [setupOfLast, hcmds, hname] at h
    | some name =>
      refine ⟨sCommand, rest, name, rfl, hname, fun hexit => ?_⟩
      simp [setupOfLast, hcmds, hname, hexit] at h

/-- `command_execute` ends with the dispatch of the last command in the state of its
set up: a child that is forked for it is born with these descriptors. -/
theorem commandExecute_of_setup {p q : ShellState} {std : Nat → File}
    (hstd : ∀ fd < 3, p.fds.get fd = some (std fd)) (h : setupOfLast os p = some q) :
    ∃ a b c j name sCommand, p.command.simpleCommands.getLast? = some sCommand ∧
      argument sCommand 0 = some name ∧
      commandExecute os p = afterLoop (some a) (some b) (some c)
        ((dispatch os j name sCommand q).map fun r => (some r.1, r.2)) := by
  obtain ⟨sCommand, rest, name, hcmds, hname, hexit⟩ := setupOfLast_inv h
  obtain ⟨a, b, c, input, p', hexec, hsetup, -⟩ := setupOfLast_start os hcmds hname hexit hstd
  rw [hsetup] at h
  obtain ⟨j, last, lastCommand, hlast, hlastName, heq⟩ := runPipeline_of_loopSetup h none
  exact ⟨a, b, c, j, last, lastCommand, hlast, hlastName, hexec.trans (congrArg _ heq)⟩

/-! ### The files that are opened -/

variable {T : Descriptors File} {own : List (Nat × File)} {b c : Nat} {stdout stderr : File}

/-- The descriptors when the last command is set up: what the standard error and the
standard output refer to, unless a file could not be opened. -/
def Opened (os : Answers) (command : Command) (stdout stderr : File) (t : Descriptors File) : Prop :=
  (∀ x, chosen command.outFile (openOut os command.isAppended) stdout = some x →
    t.get 1 = some x) ∧
  ∀ x, chosen command.errFile (openErr os) stderr = some x → t.get 2 = some x

/-- The set up of a command that is the only one left. -/
theorem opened_of_last (hb : (b, stdout) ∈ own) (hc : (c, stderr) ∈ own)
    {sCommand : SimpleCommand} {i : Nat} {p q : ShellState} {std : Nat → File}
    {input : Option (Nat × File)} (h : View T p.fds std (input.toList ++ own))
    (hq : loopSetup os (some b) (some c) i [sCommand] (input.map Prod.fst) p = some q) :
    Opened os p.command stdout stderr q.fds := by
  cases hname : argument sCommand 0 with
  | none => simp [loopSetup, hname] at hq
  | some name =>
    by_cases hexit : name = "exit"
    · simp [loopSetup, hname, hexit] at hq
    have h₁ := h.redirect (show 0 < 3 by decide)
    obtain ⟨new, t₂, heq, hfile, h₂⟩ := @setupLast_spec _ _ _ os
      { p with fds := (p.fds.dup2 (input.map Prod.fst) 0).close (input.map Prod.fst) }
      _ _ _ _ h₁ hb hc
    obtain ⟨t₃, heq', h₃⟩ := redirectOutput_view (p := p) h₂
    simp only [loopSetup, hname, if_neg hexit, heq, Option.some.injEq] at hq
    obtain rfl := hq.symm.trans heq'
    rw [hfile] at h₃
    refine ⟨fun x hx => ?_, fun x hx => ?_⟩
    · rw [h₃.std 1 (by decide), hx, redirected_some_self]
    · rw [h₃.std 2 (by decide), redirected_of_ne _ _ (by decide), hx, redirected_some_self]

/-- A command before the last one leaves the end of its pipe to the next. -/
theorem loopSetup_next {sCommand next : SimpleCommand} {rest : List SimpleCommand} {i : Nat}
    {p q : ShellState} {std : Nat → File} {input : Option (Nat × File)}
    (h : View T p.fds std (input.toList ++ own))
    (hq : loopSetup os (some b) (some c) i (sCommand :: next :: rest) (input.map Prod.fst) p =
      some q) :
    ∃ (r : Nat) (p' : ShellState) (std' : Nat → File), p'.command = p.command ∧
      View T p'.fds std' ((r, .pipeRead p.pipes) :: own) ∧
      loopSetup os (some b) (some c) (i + 1) (next :: rest) (some r) p' = some q := by
  cases hname : argument sCommand 0 with
  | none => simp [loopSetup, runCommand, hname] at hq
  | some name =>
    by_cases hexit : name = "exit"
    · simp [loopSetup, runCommand, hname, hexit] at hq
    cases hpipe : os.pipe i with
    | false => simp [loopSetup, runCommand, hname, hexit, hpipe] at hq
    | true =>
      obtain ⟨r, t, heq, hview⟩ := runCommand_pipe b c hname hexit hpipe h
      have hdisp := dispatch_spec os i name sCommand { p with fds := t, pipes := p.pipes + 1 }
      rw [loopSetup, heq] at hq
      generalize dispatch os i name sCommand { p with fds := t, pipes := p.pipes + 1 } = d
        at hdisp hq
      cases hdisp with
      | builtin => simp [Except.map] at hq
      | crashed => simp [Except.map] at hq
      | overran => simp [Except.map] at hq
      | forkFailed => simp [Except.map] at hq
      | forked =>
        exact ⟨r, { p with
          fds := t
          pipes := p.pipes + 1
          children := p.children ++ [⟨sCommand.arguments, t⟩] }, _, rfl, hview, hq⟩

theorem loopSetup_opened (hb : (b, stdout) ∈ own) (hc : (c, stderr) ∈ own)
    {cmds : List SimpleCommand} {i : Nat} {p q : ShellState} {std : Nat → File}
    {input : Option (Nat × File)} (h : View T p.fds std (input.toList ++ own))
    (hq : loopSetup os (some b) (some c) i cmds (input.map Prod.fst) p = some q) :
    Opened os p.command stdout stderr q.fds := by
  induction cmds generalizing i p std input with
  | nil => simp [loopSetup] at hq
  | cons sCommand rest ih =>
    cases rest with
    | nil => exact opened_of_last hb hc h hq
    | cons next rest =>
      obtain ⟨r, p', std', hcommand, hview, hnext⟩ := loopSetup_next h hq
      rw [← hcommand]
      exact @ih (i + 1) p' std' (some (r, .pipeRead p.pipes)) hview hnext

end Setup

/-- What the last command is set up with is read off the command table. -/
theorem setupOfLast_opened {os : Answers} {p q : ShellState} {std : Nat → File}
    (hstd : ∀ fd < 3, p.fds.get fd = some (std fd)) (h : setupOfLast os p = some q) :
    Opened os p.command (std 1) (std 2) q.fds := by
  obtain ⟨sCommand, rest, name, hcmds, hname, hexit⟩ := setupOfLast_inv h
  obtain ⟨a, b, c, input, p', -, hsetup, hview, hcommand⟩ :=
    setupOfLast_start os hcmds hname hexit hstd
  rw [hsetup] at h
  rw [← hcommand]
  exact loopSetup_opened (mem_saved_out ..) (mem_saved_err ..) hview h

/-! ### The modifiers -/

/-- The operators that append. -/
def IoModifier.appends : IoModifier → Bool
  | .greatGreat | .greatGreatAmp => true
  | _ => false

theorem IoModifier.eq_greatGreatAmp {op : IoModifier} (herr : op.isErr = true)
    (happ : op.appends = true) : op = .greatGreatAmp := by
  cases op with
  | greatGreatAmp => rfl
  | greatAmp | redir => cases happ
  | great | greatGreat | less => cases herr

/-- The last modifier of a kind. -/
def lastModifier (kind : IoModifier → Bool) (modifiers : List (IoModifier × String)) :
    Option (IoModifier × String) :=
  (modifiers.filter fun m => kind m.1).getLast?

/-- The flags to open a file for writing, at its end or from its start. -/
def writeFlags (append : Bool) : List OpenFlag :=
  if append then [.creat, .wronly, .append] else [.creat, .wronly, .trunc]

theorem writeFlags_inj {append append' : Bool} (h : writeFlags append = writeFlags append') :
    append = append' := by
  cases append <;> cases append'
  · rfl
  · exact absurd h (by decide)
  · exact absurd h (by decide)
  · rfl

/-- The file that a modifier names, opened in the mode of its operator. -/
def namedFile (m : IoModifier × String) : File := .opened m.2 (writeFlags m.1.appends) 0o600

/-- The table has been built with these modifiers, in their order. -/
def BuiltWith (modifiers : List (IoModifier × String)) (command : Command) : Prop :=
  ∃ table : Command, table.outFile = none ∧ table.errFile = none ∧ table.isAppended = false ∧
    command = modifiers.foldl insertModifier table

/-- Whenever `command_execute` sets up the last command of a table with these
modifiers, the file opened for each stream is the one that the last modifier for the
stream names, in the mode of its operator. -/
def OpensAsNamed (modifiers : List (IoModifier × String)) : Prop :=
  ∀ os p q, (∀ fd < 3, p.fds.get fd ≠ none) → BuiltWith modifiers p.command →
    setupOfLast os p = some q →
    (os.openOut = true → ∀ m, lastModifier IoModifier.isOut modifiers = some m →
      q.fds.get 1 = some (namedFile m)) ∧
    (os.openErr = true → ∀ m, lastModifier IoModifier.isErr modifiers = some m →
      q.fds.get 2 = some (namedFile m))

/-- When the output is truncated no other modifier appends, and the error file is
named by `>>&`. -/
def ModesKept (modifiers : List (IoModifier × String)) : Prop :=
  (∀ m, lastModifier IoModifier.isOut modifiers = some m → m.1 = .great →
    ∀ m' ∈ modifiers, m'.1.appends = false) ∧
  ∀ m, lastModifier IoModifier.isErr modifiers = some m → m.1 = .greatGreatAmp

section Modifiers

variable {modifiers : List (IoModifier × String)} {m : IoModifier × String}

theorem lastFile_eq (kind : IoModifier → Bool) (modifiers : List (IoModifier × String)) :
    lastFile kind modifiers = (lastModifier kind modifiers).map Prod.snd := rfl

theorem lastModifier_mem {kind : IoModifier → Bool} (h : lastModifier kind modifiers = some m) :
    m ∈ modifiers ∧ kind m.1 = true :=
  List.mem_filter.mp (List.mem_of_getLast? h)

/-- One flag for both streams. -/
theorem foldl_insertModifier_isAppended (modifiers : List (IoModifier × String))
    (command : Command) : (modifiers.foldl insertModifier command).isAppended =
      (command.isAppended || modifiers.any fun m => m.1.appends) := by
  induction modifiers generalizing command with
  | nil => simp
  | cons m modifiers ih =>
    obtain ⟨op, file⟩ := m
    rw [List.foldl_cons, ih, List.any_cons]
    cases op <;> simp [insertModifier, iomodifierOpt, IoModifier.appends]

/-- What the table holds for the two streams. -/
theorem BuiltWith.fields {command : Command} (h : BuiltWith modifiers command) :
    command.outFile = (lastModifier IoModifier.isOut modifiers).map Prod.snd ∧
    command.errFile = (lastModifier IoModifier.isErr modifiers).map Prod.snd ∧
    command.isAppended = modifiers.any fun m => m.1.appends := by
  obtain ⟨table, hout, herr, happ, rfl⟩ := h
  refine ⟨?_, ?_, ?_⟩
  · rw [foldl_insertModifier_file IoModifier.isOut Command.outFile
      fun _ ⟨op, _⟩ => by cases op <;> rfl, hout, Option.or_none, lastFile_eq]
  · rw [foldl_insertModifier_file IoModifier.isErr Command.errFile
      fun _ ⟨op, _⟩ => by cases op <;> rfl, herr, Option.or_none, lastFile_eq]
  · rw [foldl_insertModifier_isAppended, happ, Bool.false_or]

theorem foldl_insertModifier_background (modifiers : List (IoModifier × String))
    (command : Command) (background : Bool) :
    modifiers.foldl insertModifier { command with isBackground := background } =
      { modifiers.foldl insertModifier command with isBackground := background } := by
  induction modifiers generalizing command with
  | nil => rfl
  | cons m modifiers ih =>
    obtain ⟨op, file⟩ := m
    rw [List.foldl_cons, List.foldl_cons, ← ih]
    cases op <;> rfl

/-- The tables that the parser builds are built with the modifiers of the line. -/
theorem builtWith_table {line : PipelineLine} {command : Command} (h : command.Fresh) :
    BuiltWith line.modifiers (line.table command) := by
  rw [PipelineLine.table, insertBackground_eq, ← foldl_insertModifier_background]
  refine ⟨_, ?_, ?_, ?_, rfl⟩
  all_goals
    rw [h, foldl_insertCommand]
    rfl

/-- The files that the code opens. -/
theorem opened_of_builtWith {os : Answers} {command : Command} {stdout stderr : File}
    {t : Descriptors File} (hbuilt : BuiltWith modifiers command)
    (hopened : Opened os command stdout stderr t) :
    (os.openOut = true → ∀ m, lastModifier IoModifier.isOut modifiers = some m →
      t.get 1 = some (.opened m.2 (writeFlags (modifiers.any fun m => m.1.appends)) 0o600)) ∧
    (os.openErr = true → ∀ m, lastModifier IoModifier.isErr modifiers = some m →
      t.get 2 = some (.opened m.2 (writeFlags true) 0o600)) := by
  obtain ⟨hout, herr, happ⟩ := hbuilt.fields
  refine ⟨fun hos m hm => hopened.1 _ ?_, fun hos m hm => hopened.2 _ ?_⟩
  · rw [hout, hm, happ]
    exact if_pos hos
  · rw [herr, hm]
    exact if_pos hos

/-- A new shell with the table of `ls` and these modifiers. -/
def lsWith (modifiers : List (IoModifier × String)) : ShellState :=
  { newShell [] with command := modifiers.foldl insertModifier (newShell [⟨5, ["ls"]⟩]).command }

theorem lsWith_builtWith (modifiers : List (IoModifier × String)) :
    BuiltWith modifiers (lsWith modifiers).command :=
  ⟨_, rfl, rfl, rfl, rfl⟩

theorem lsWith_std (modifiers : List (IoModifier × String)) :
    ∀ fd < 3, (lsWith modifiers).fds.get fd = some (.inherited fd) :=
  @newShell_std []

/-- The one command of the table is set up. -/
theorem lsWith_setup (modifiers : List (IoModifier × String)) :
    ∃ q, setupOfLast allSucceed (lsWith modifiers) = some q := by
  have hcmds : (lsWith modifiers).command.simpleCommands = [⟨5, ["ls"]⟩] :=
    foldl_insertModifier_same Command.simpleCommands fun _ ⟨op, _⟩ => by cases op <;> rfl
  obtain ⟨a, b, c, input, p', -, hsetup, -⟩ := 
    setupOfLast_start allSucceed hcmds (show _ = some "ls" from rfl) (by decide) (lsWith_std modifiers)
  rw [hsetup, hcmds]
  exact ⟨_, rfl⟩

theorem ModesKept.named_out (h : ModesKept modifiers)
    (hm : lastModifier IoModifier.isOut modifiers = some m) :
    (modifiers.any fun m => m.1.appends) = m.1.appends := by
  obtain ⟨hmem, hkind⟩ := lastModifier_mem hm
  cases hop : m.1 with
  | great =>
    refine List.any_eq_false.mpr fun m' hm' => ?_
    simp [h.1 m hm hop m' hm']
  | greatGreat => exact List.any_eq_true.mpr ⟨m, hmem, by rw [hop]; rfl⟩
  | greatAmp | greatGreatAmp | less | redir =>
    rw [hop] at hkind
    cases hkind

/-- **The mode of every redirection** is the mode of the operator that named the file
exactly when no modifier appends beside a last `>` for the output, and the error file is
named by `>>&`. -/
theorem opensAsNamed_iff (modifiers : List (IoModifier × String)) :
    OpensAsNamed modifiers ↔ ModesKept modifiers := by
  constructor
  · intro h
    -- the line `ls` with these modifiers
    obtain ⟨q, hq⟩ := lsWith_setup modifiers
    have hstd := lsWith_std modifiers
    have hbuilt := lsWith_builtWith modifiers
    obtain ⟨hout, herr⟩ := h allSucceed _ q
      (fun fd hfd => (hstd fd hfd).symm ▸ Option.some_ne_none _) hbuilt hq
    obtain ⟨hout', herr'⟩ := opened_of_builtWith hbuilt (setupOfLast_opened hstd hq)
    refine ⟨fun m hm hgreat m' hm' => ?_, fun m hm => ?_⟩
    · have heq := (hout' rfl m hm).symm.trans (hout rfl m hm)
      rw [namedFile, Option.some.injEq, File.opened.injEq, hgreat] at heq
      have hnone := writeFlags_inj heq.2.1
      simpa using List.any_eq_false.mp hnone m' hm'
    · have heq := (herr' rfl m hm).symm.trans (herr rfl m hm)
      rw [namedFile, Option.some.injEq, File.opened.injEq] at heq
      exact IoModifier.eq_greatGreatAmp (lastModifier_mem hm).2 (writeFlags_inj heq.2.1).symm
  · intro h os p q hfds hbuilt hq
    have hstd : ∀ fd < 3, p.fds.get fd = some ((p.fds.get fd).getD (.inherited fd)) := by
      intro fd hfd
      obtain ⟨x, hx⟩ := Option.ne_none_iff_exists'.mp (hfds fd hfd)
      rw [hx]
      rfl
    obtain ⟨hout, herr⟩ := opened_of_builtWith hbuilt (setupOfLast_opened hstd hq)
    refine ⟨fun hos m hm => ?_, fun hos m hm => ?_⟩
    · rw [hout hos m hm, h.named_out hm, namedFile]
    · rw [herr hos m hm, namedFile, h.2 m hm]
      rfl

end Modifiers

/-- In `ls 2> err` the error file is opened for appending, and in `ls > out >>& err` the
output file is. -/
theorem not_opensAsNamed :
    ((setupOfLast allSucceed (lsWith [(.redir, "err")])).map fun q => q.fds.get 2) =
      some (some (.opened "err" [.creat, .wronly, .append] 0o600)) ∧
    ¬OpensAsNamed [(.redir, "err")] ∧
    ((setupOfLast allSucceed (lsWith [(.great, "out"), (.greatGreatAmp, "err")])).map
      fun q => q.fds.get 1) = some (some (.opened "out" [.creat, .wronly, .append] 0o600)) ∧
    ¬OpensAsNamed [(.great, "out"), (.greatGreatAmp, "err")] := by
  have hstd : ∀ modifiers, ∀ fd < 3, (lsWith modifiers).fds.get fd ≠ none := fun modifiers fd hfd =>
    (lsWith_std modifiers fd hfd).symm ▸ Option.some_ne_none _
  refine ⟨rfl, fun h => ?_, rfl, fun h => ?_⟩
  · have herr := (h allSucceed _ _ (hstd _) (lsWith_builtWith _) rfl).2 rfl _ rfl
    exact absurd (Option.some.inj herr) (by decide)
  · have hout := (h allSucceed _ _ (hstd _) (lsWith_builtWith _) rfl).1 rfl _ rfl
    exact absurd (Option.some.inj hout) (by decide)

end Cs252.Shell
