import Cs252.Shell.ErrorLines
import Cs252.Shell.LineTables
import Cs252.Shell.OpenModes
import Cs252.Shell.Restored
import Cs252.Shell.WrittenLines

/-!
# Cs252.Shell.Script

Scripts, from their text to the processes that run them.

The scanner, the parser and `command_execute` are put together: the text of some
lines is split into tokens, each line is parsed and its table executed. Where the
lines are pipelines of external commands whose arguments stand for themselves,
the shell goes from line to line with a fresh table and its own descriptors, and
forks for every line the children that the line says, wired as it says
(`script_runs`).

`runPipeline_external` is what the loop does besides: it leaves the table, the
environment and the log alone, and returns the pid of the last child.
-/

namespace Cs252.Shell

/-! ### A line of a script -/

/-- The file that is the input of a line; `stdin` is the shell's own. -/
def PipelineLine.input (line : PipelineLine) (stdin : File) : File :=
  match lastFile IoModifier.isIn line.modifiers with
  | some path => .opened path [.rdonly] 0o664
  | none => stdin

/-- The file that is the output of its last command. -/
def PipelineLine.output (line : PipelineLine) (stdout : File) : File :=
  match lastFile IoModifier.isOut line.modifiers with
  | some path => .opened path (writeFlags (line.modifiers.any fun m => m.1.appends)) 0o600
  | none => stdout

/-- The file that is the error output of its last command. -/
def PipelineLine.errors (line : PipelineLine) (stderr : File) : File :=
  match lastFile IoModifier.isErr line.modifiers with
  | some path => .opened path (writeFlags true) 0o600
  | none => stderr

/-- The children of a line, one for each command, with the pipes between them numbered
from `k` on. -/
structure PipelineLine.RunBy (line : PipelineLine) (std : Nat → File) (k : Nat)
    (kids : List Child) : Prop where
  arguments : kids.map Child.arguments = line.commands.map CommandWords.words
  standard : ∀ i child, kids[i]? = some child →
    child.fds.get 0 = some (if i = 0 then line.input (std 0) else .pipeRead (k + i - 1)) ∧
    child.fds.get 1 = some (if i = line.rest.length then line.output (std 1)
      else .pipeWrite (k + i)) ∧
    child.fds.get 2 = some (if i = line.rest.length then line.errors (std 2) else std 2)

/-- What the shell prints and waits for. -/
def PipelineLine.events (line : PipelineLine) (os : Answers) : List Event :=
  (if 1 < line.modifiers.countP (fun m => m.1.isOut) then
    [.print "Ambiguous output redirect.\n"] else []) ++
  (if line.background then [] else [.waitpid (os.fork line.rest.length)]) ++ [.prompt]

/-- The tokens of a line that may be empty. -/
def lineTokens (line : Option PipelineLine) : List Token := line.elim [] PipelineLine.tokens

/-- What is logged for it. -/
def lineEvents (os : Answers) (line : Option PipelineLine) : List Event :=
  line.elim [.prompt] fun line => line.events os

/-- The children of some lines. -/
inductive Launched (std : Nat → File) : Nat → List (Option PipelineLine) → List Child → Prop
  | nil {k : Nat} : Launched std k [] []
  | empty {k : Nat} {lines : List (Option PipelineLine)} {kids : List Child} :
      Launched std k lines kids → Launched std k (none :: lines) kids
  | pipeline {k : Nat} {line : PipelineLine} {lines : List (Option PipelineLine)}
      {kids kids' : List Child} : line.RunBy std k kids →
      Launched std (k + line.rest.length) lines kids' →
      Launched std k (some line :: lines) (kids ++ kids')

/-- A line of external commands with arguments that stand for themselves. -/
structure PipelineLine.Runnable (line : PipelineLine) : Prop where
  plain : ∀ c ∈ line.commands, ∀ w ∈ c.arguments, Plain w
  external : ∀ c ∈ line.commands, c.command ≠ "exit" ∧ ¬Builtin c.command

/-- A text is read, and its lines are run. -/
def runText {σ : Type} (expand : Expander σ) (text : List Char) (answers : Nat → Answers)
    (s : Parser σ) : Option (Status σ) :=
  (inputLines (lex text)).map fun lines =>
    run expand (lines.mapIdx fun k tokens => ⟨tokens, answers k⟩) s

/-! ### The loop -/

/-- What the loop leaves alone, with the pipes that it creates. -/
structure Kept (p q : ShellState) (n : Nat) : Prop where
  command : q.command = p.command
  env : q.env = p.env
  log : q.log = p.log
  pipes : q.pipes = p.pipes + n

theorem Kept.trans {p q r : ShellState} {n m : Nat} (h : Kept p q n) (h' : Kept q r m) :
    Kept p r (n + m) where
  command := h'.command.trans h.command
  env := h'.env.trans h.env
  log := h'.log.trans h.log
  pipes := by rw [h'.pipes, h.pipes, Nat.add_assoc]

section Loop

variable {os : Answers} {sCommand : SimpleCommand} {p : ShellState}

theorem dispatch_forked {i pid : Nat} {name : String} (hname : ¬Builtin name)
    (hfork : os.fork i = some pid) (p : ShellState) :
    dispatch os i name sCommand p =
      .ok (pid, { p with children := p.children ++ [⟨sCommand.arguments, p.fds⟩] }) := by
  have hdisp := dispatch_spec os i name sCommand p
  generalize dispatch os i name sCommand p = r at hdisp ⊢
  cases hdisp with
  | builtin hbuiltin => exact absurd hbuiltin hname
  | overran hbuiltin => exact absurd hbuiltin hname
  | crashed hnull => exact absurd (Or.inr (Or.inl hnull.1)) hname
  | forkFailed _ hnone => rw [hfork] at hnone; cases hnone
  | forked _ hsome => rw [Option.some.inj (hsome.symm.trans hfork)]

theorem runCommand_external (hsys : Succeeds os) (hext : External sCommand) (b c : Option Nat)
    (i : Nat) (isLast : Bool) (fdin : Option Nat) (p : ShellState) :
    ∃ fdin' pid q, runCommand os b c i isLast sCommand fdin p = .ok (fdin', pid, q) ∧
      os.fork i = some pid ∧ Kept p q (if isLast then 0 else 1) := by
  obtain ⟨name, hname, hexit, hbuiltin⟩ := hext
  obtain ⟨pid, hfork⟩ := Option.ne_none_iff_exists'.mp (hsys.fork i)
  cases isLast with
  | true =>
    simp only [runCommand, hname, if_neg hexit, if_true, dispatch_forked hbuiltin hfork]
    exact ⟨_, _, _, rfl, hfork, rfl, rfl, rfl, rfl⟩
  | false =>
    simp only [runCommand, hname, if_neg hexit, hsys.pipe i, if_true, dispatch_forked hbuiltin hfork]
    exact ⟨_, _, _, rfl, hfork, rfl, rfl, rfl, rfl⟩

/-- The loop returns the pid of the last child. -/
theorem runPipeline_external (hsys : Succeeds os) {cmds : List SimpleCommand}
    (hext : ∀ sCommand ∈ cmds, External sCommand) (b c : Option Nat) (i : Nat)
    (fdin ret : Option Nat) (p : ShellState) :
    ∃ q, runPipeline os b c i cmds fdin ret p =
        .ok (if cmds = [] then ret else os.fork (i + (cmds.length - 1)), q) ∧
      Kept p q (cmds.length - 1) := by
  induction cmds generalizing i fdin ret p with
  | nil => exact ⟨p, rfl, rfl, rfl, rfl, rfl⟩
  | cons sCommand rest ih =>
    obtain ⟨hfirst, hrest⟩ := List.forall_mem_cons.mp hext
    obtain ⟨fdin', pid, p', heq, hfork, hkept⟩ :=
      runCommand_external hsys hfirst b c i rest.isEmpty fdin p
    obtain ⟨q, hrun, hkept'⟩ := ih hrest (i + 1) fdin' (some pid) p'
    refine ⟨q, ?_, ?_⟩
    · rw [runPipeline, heq, if_neg (List.cons_ne_nil sCommand rest)]
      dsimp only
      rw [hrun]
      cases rest with
      | nil => rw [if_pos rfl, ← hfork]; rfl
      | cons next rest =>
        rw [if_neg (List.cons_ne_nil next rest), Nat.add_right_comm]
        rfl
    · have h := hkept.trans hkept'
      cases rest with
      | nil => exact h
      | cons next rest =>
        rw [List.isEmpty_cons, if_neg Bool.false_ne_true, Nat.add_comm] at h
        exact h

end Loop

/-- The ends of a pipeline that was executed. -/
structure Executed (os : Answers) (std : Nat → File) (p q : ShellState) (kids : List Child) :
    Prop where
  children : q.children = p.children ++ kids
  fds : q.fds.Same p.fds
  command : q.command.Fresh
  env : q.env = p.env
  pipes : q.pipes = p.pipes + (p.command.simpleCommands.length - 1)
  log : q.log = p.log ++
    ((if 1 < p.command.outfileCounter then [.print "Ambiguous output redirect.\n"] else []) ++
      (if p.command.isBackground then []
        else [.waitpid (os.fork (p.command.simpleCommands.length - 1))]) ++ [.prompt])
  arguments : kids.map Child.arguments = p.command.simpleCommands.map SimpleCommand.arguments
  standard : ∀ i child, kids[i]? = some child →
    child.fds.get 0 = some (if i = 0 then inputOf p.command (std 0) else .pipeRead (p.pipes + i - 1)) ∧
    child.fds.get 1 = some (if i + 1 = p.command.simpleCommands.length
      then outputOf p.command (std 1) else .pipeWrite (p.pipes + i)) ∧
    child.fds.get 2 = some (if i + 1 = p.command.simpleCommands.length
      then errorOf p.command (std 2) else std 2)

section Execute

variable {os : Answers} {p : ShellState} {std : Nat → File}

theorem undisturbed_external (hsys : Succeeds os) {cmds : List SimpleCommand}
    (hext : ∀ sCommand ∈ cmds, External sCommand) (i : Nat) : Undisturbed os i cmds := by
  induction cmds generalizing i with
  | nil => trivial
  | cons sCommand rest ih =>
    obtain ⟨⟨name, hname, -, hbuiltin⟩, hrest⟩ := List.forall_mem_cons.mp hext
    exact (undisturbed_cons hname).mpr
      (Or.inr (Or.inr (Or.inr ⟨hbuiltin, hsys.fork i, ih hrest (i + 1)⟩)))

theorem warnAmbiguous_keeps (p : ShellState) :
    (warnAmbiguous p).command = p.command ∧ (warnAmbiguous p).env = p.env ∧
      (warnAmbiguous p).pipes = p.pipes ∧ (warnAmbiguous p).log = p.log ++
        if 1 < p.command.outfileCounter then [.print "Ambiguous output redirect.\n"] else [] := by
  unfold warnAmbiguous
  split
  · exact ⟨rfl, rfl, rfl, rfl⟩
  · exact ⟨rfl, rfl, rfl, (List.append_nil _).symm⟩

theorem finish_log (ret : Option Nat) (p : ShellState) : (finish ret p).log =
    p.log ++ ((if p.command.isBackground then [] else [.waitpid ret]) ++ [.prompt]) := by
  unfold finish
  by_cases h : p.command.isBackground = true <;> simp [h, prompt, ShellState.clear, ShellState.emit]

theorem finish_env (ret : Option Nat) (p : ShellState) :
    (finish ret p).env = p.env ∧ (finish ret p).pipes = p.pipes := by
  unfold finish
  by_cases h : p.command.isBackground = true <;> simp [h, prompt, ShellState.clear, ShellState.emit]

theorem commandExecute_start {name : String} {sCommand : SimpleCommand} {rest : List SimpleCommand}
    (hcmds : p.command.simpleCommands = sCommand :: rest) (hname : argument sCommand 0 = some name)
    (hexit : name ≠ "exit") (os : Answers) :
    ∃ a b c fdin fds, commandExecute os p = afterLoop a b c
      (runPipeline os b c 0 (sCommand :: rest) fdin none { warnAmbiguous p with fds := fds }) := by
  simp only [commandExecute, hcmds, hname, if_neg hexit, (warnAmbiguous_keeps p).1]
  exact ⟨_, _, _, _, _, rfl⟩

/-- `command_execute` of a pipeline of external commands. -/
theorem commandExecute_external (hsys : Succeeds os) (hne : p.command.simpleCommands ≠ [])
    (hext : ∀ sCommand ∈ p.command.simpleCommands, External sCommand)
    (hstd : ∀ fd < 3, p.fds.get fd = some (std fd)) :
    ∃ q kids, commandExecute os p = .returned q ∧ Executed os std p q kids := by
  obtain ⟨q, kids, a, b, c, heq, hkids, hwired⟩ := commandExecute_wired hsys hne hext hstd
  have hfds : q.fds.Same p.fds := by
    rcases commandExecute_ends hstd with ⟨-, hsame⟩ | ⟨hnot, -⟩
    · exact hsame q (by rw [heq]; exact rfl)
    · exact absurd (undisturbed_external hsys hext 0) hnot
  obtain ⟨sCommand, rest, hcmds⟩ := List.exists_cons_of_ne_nil hne
  obtain ⟨name, hname, hexit, -⟩ := hext sCommand (hcmds ▸ List.mem_cons_self)
  obtain ⟨a', b', c', fdin, fds, hstart⟩ := commandExecute_start hcmds hname hexit os
  obtain ⟨q', hrun, hkept⟩ := runPipeline_external hsys (hcmds ▸ hext) b' c' 0 fdin none
    { warnAmbiguous p with fds := fds }
  obtain ⟨hcommand, henv, hpipes, hlog⟩ := warnAmbiguous_keeps p
  rw [if_neg (List.cons_ne_nil sCommand rest), Nat.zero_add] at hrun
  rw [heq, hrun] at hstart
  obtain rfl := Outcome.returned.inj hstart
  refine ⟨_, kids, heq, hkids, hfds, finish_fresh _ _, ?_, ?_, ?_, hwired.arguments,
    fun i child => hwired.standard⟩
  · exact (finish_env _ _).1.trans (hkept.env.trans henv)
  · rw [hcmds]
    exact (finish_env _ _).2.trans (hkept.pipes.trans (congrArg (· + _) hpipes))
  · have hback : q'.command.isBackground = p.command.isBackground := by
      rw [hkept.command]
      exact congrArg Command.isBackground hcommand
    have hbefore : q'.log = (warnAmbiguous p).log := hkept.log
    rw [finish_log, hcmds]
    dsimp only
    rw [hback, hbefore, hlog]
    simp only [List.append_assoc]

end Execute

/-! ### A line -/

section Line

variable {line : PipelineLine} {command : Command}

/-- What the table of a line connects the ends of the pipeline to. -/
theorem PipelineLine.table_ends (line : PipelineLine) (h : command.Fresh) (x : File) :
    inputOf (line.table command) x = line.input x ∧
      outputOf (line.table command) x = line.output x ∧
      errorOf (line.table command) x = line.errors x := by
  have hdenotes := line.table_denotes h
  have hbuilt : BuiltWith line.modifiers (line.table command) := builtWith_table h
  obtain ⟨-, -, happended⟩ := hbuilt.fields
  refine ⟨?_, ?_, ?_⟩
  · rw [PipelineLine.input, ← hdenotes.inFile]
    rfl
  · rw [PipelineLine.output, ← hdenotes.outFile, ← happended]
    rfl
  · rw [PipelineLine.errors, ← hdenotes.errFile]
    rfl

theorem PipelineLine.table_external (h : command.Fresh)
    (hext : ∀ c ∈ line.commands, c.command ≠ "exit" ∧ ¬Builtin c.command) :
    ∀ sCommand ∈ (line.table command).simpleCommands, External sCommand := by
  intro sCommand hmem
  have hargs := List.mem_map_of_mem (f := SimpleCommand.arguments) hmem
  rw [(line.table_denotes h).simpleCommands] at hargs
  obtain ⟨c, hc, hwords⟩ := List.mem_map.mp hargs
  obtain ⟨hexit, hbuiltin⟩ := hext c hc
  refine ⟨c.command, ?_, hexit, hbuiltin⟩
  rw [argument, ← hwords]
  rfl

theorem PipelineLine.table_length (line : PipelineLine) (h : command.Fresh) :
    (line.table command).simpleCommands.length = line.rest.length + 1 := by
  have := congrArg List.length (line.table_denotes h).simpleCommands
  rwa [List.length_map, List.length_map] at this

end Line

section Run

variable {σ : Type} {expand : Expander σ} {s : Parser σ} {std : Nat → File}

theorem endLine_execute {os : Answers} {st : LineState} {s s' : Parser σ}
    (h : beforeExecute st s = some s') : endLine os st s = executeLine os s' := by
  cases st <;> cases h <;> rfl

/-- The state after a line, and what the line has done. -/
structure Followed (s s' : Parser σ) (kids : List Child) (events : List Event)
    (pipes : Nat) : Prop where
  statics : s'.statics = s.statics
  children : s'.shell.children = s.shell.children ++ kids
  fds : s'.shell.fds.Same s.shell.fds
  command : s'.shell.command.Fresh
  env : s'.shell.env = s.shell.env
  pipes : s'.shell.pipes = s.shell.pipes + pipes
  log : s'.shell.log = s.shell.log ++ events

theorem runLine_pipeline {line : PipelineLine} {os : Answers}
    (hliteral : ∀ c ∈ line.commands, ∀ w ∈ c.arguments, Literal expand s.statics w)
    (hext : ∀ c ∈ line.commands, c.command ≠ "exit" ∧ ¬Builtin c.command) (hsys : Succeeds os)
    (hfresh : s.shell.command.Fresh) (hstd : ∀ fd < 3, s.shell.fds.get fd = some (std fd)) :
    ∃ s' kids, runLine expand ⟨line.tokens, os⟩ s = .ok s' ∧
      Followed s s' kids (line.events os) line.rest.length ∧
      line.RunBy std s.shell.pipes kids := by
  obtain ⟨st, s₁, current, hfeed, hbefore⟩ := feed_tokens hliteral
  have hlength := line.table_length hfresh
  have hne : (line.table s.shell.command).simpleCommands ≠ [] :=
    List.ne_nil_of_length_eq_add_one hlength
  have hdenotes := line.table_denotes hfresh
  obtain ⟨q, kids, hq, hexecuted⟩ := commandExecute_external
    (p := { s.shell with command := line.table s.shell.command }) hsys hne
    (PipelineLine.table_external hfresh hext) hstd
  obtain ⟨hchildren, hfds, hcommand, henv, hpipes, hlog, hargs, hstandard⟩ := hexecuted
  dsimp only at hlog hpipes hstandard
  simp only [hlength, Nat.add_right_cancel_iff, Nat.add_sub_cancel, hdenotes.outfileCounter,
    hdenotes.isBackground, (line.table_ends hfresh _).1, (line.table_ends hfresh _).2.1,
    (line.table_ends hfresh _).2.2] at hlog hpipes hstandard
  refine ⟨{ s with
    shell := q
    current := current
    executed := s.executed ++ [line.table s.shell.command] }, kids, ?_,
    ⟨rfl, hchildren, hfds, hcommand, henv, hpipes, hlog⟩,
    ⟨hargs.trans hdenotes.simpleCommands, hstandard⟩⟩
  rw [runLine, hfeed]
  refine (endLine_execute hbefore).trans ?_
  simp only [executeLine, Parser.modifyCommand, hq]

/-- An empty line clears the table. -/
theorem runLine_empty (expand : Expander σ) (os : Answers) (s : Parser σ) :
    ∃ s', runLine expand ⟨[], os⟩ s = .ok s' ∧ Followed s s' [] [.prompt] 0 :=
  ⟨_, rfl, rfl, (List.append_nil _).symm, fun _ => rfl, commandClear_fresh _, rfl, rfl, rfl⟩

theorem Followed.trans {s s' s'' : Parser σ} {kids kids' : List Child} {events events' : List Event}
    {n m : Nat} (h : Followed s s' kids events n) (h' : Followed s' s'' kids' events' m) :
    Followed s s'' (kids ++ kids') (events ++ events') (n + m) where
  statics := h'.statics.trans h.statics
  children := by rw [h'.children, h.children, List.append_assoc]
  fds fd := (h'.fds fd).trans (h.fds fd)
  command := h'.command
  env := h'.env.trans h.env
  pipes := by rw [h'.pipes, h.pipes, Nat.add_assoc]
  log := by rw [h'.log, h.log, List.append_assoc]

/-- The lines, one after the other. -/
theorem run_lines {lines : List (Option PipelineLine)} {answers : Nat → Answers}
    (hliteral : ∀ line, some line ∈ lines → ∀ c ∈ line.commands, ∀ w ∈ c.arguments,
      Literal expand s.statics w)
    (hext : ∀ line, some line ∈ lines → ∀ c ∈ line.commands, c.command ≠ "exit" ∧ ¬Builtin c.command)
    (hsys : ∀ k, Succeeds (answers k)) (hfresh : s.shell.command.Fresh)
    (hstd : ∀ fd < 3, s.shell.fds.get fd = some (std fd)) :
    ∃ s' kids n, run expand ((lines.map lineTokens).mapIdx fun k tokens => ⟨tokens, answers k⟩) s =
        .ok s' ∧
      Followed s s' kids (lines.mapIdx fun k line => lineEvents (answers k) line).flatten n ∧
      Launched std s.shell.pipes lines kids := by
  induction lines generalizing s answers with
  | nil =>
    exact ⟨s, [], 0, rfl, ⟨rfl, (List.append_nil _).symm, fun _ => rfl, hfresh, rfl, rfl,
      (List.append_nil _).symm⟩, .nil⟩
  | cons line lines ih =>
    have hnext : ∃ s₁ kids n, runLine expand ⟨lineTokens line, answers 0⟩ s = .ok s₁ ∧
        Followed s s₁ kids (lineEvents (answers 0) line) n ∧
        ∀ kids', Launched std (s.shell.pipes + n) lines kids' →
          Launched std s.shell.pipes (line :: lines) (kids ++ kids') := by
      cases line with
      | none =>
        obtain ⟨s₁, hrun, hfollowed⟩ := runLine_empty expand (answers 0) s
        exact ⟨s₁, [], 0, hrun, hfollowed, fun _ => .empty⟩
      | some line =>
        obtain ⟨s₁, kids, hrun, hfollowed, hkids⟩ := runLine_pipeline
          (hliteral line List.mem_cons_self) (hext line List.mem_cons_self) (hsys 0) hfresh hstd
        exact ⟨s₁, kids, _, hrun, hfollowed, fun _ => .pipeline hkids⟩
    obtain ⟨s₁, kids, n, hrun, hfollowed, hlaunched⟩ := hnext
    obtain ⟨s', kids', m, hrun', hfollowed', hlaunched'⟩ := ih
      (fun line hline => hfollowed.statics ▸ hliteral line (List.mem_cons_of_mem _ hline))
      (fun line hline => hext line (List.mem_cons_of_mem _ hline)) (fun k => hsys (k + 1))
      hfollowed.command (fun fd hfd => (hfollowed.fds fd).trans (hstd fd hfd))
    refine ⟨s', kids ++ kids', n + m, ?_, ?_, hlaunched _ (hfollowed.pipes ▸ hlaunched')⟩
    · rw [List.map_cons, List.mapIdx_cons, run, hrun]
      exact hrun'
    · rw [List.mapIdx_cons, List.flatten_cons]
      exact hfollowed.trans hfollowed'

end Run

/-! ### A script -/

/-- **A script does what it says.** The text of some lines, in any spelling, is run by
the children of these lines, in their order; afterwards the shell has a fresh
table and the descriptors and the environment that it had before. -/
theorem script_runs {process : Process} {stack : Stack} {text : List Char}
    {lines : List (Option PipelineLine)} {answers : Nat → Answers} {s : Parser DirArray}
    {std : Nat → File} (htext : ScriptText (lines.map lineTokens) text)
    (hlines : ∀ line, some line ∈ lines → line.Runnable) (hsys : ∀ k, Succeeds (answers k))
    (hfresh : s.shell.command.Fresh) (hstd : ∀ fd < 3, s.shell.fds.get fd = some (std fd)) :
    ∃ s' kids, runText (insertedArguments process stack) text answers s = some (.ok s') ∧
      s'.shell.children = s.shell.children ++ kids ∧ Launched std s.shell.pipes lines kids ∧
      s'.shell.log =
        s.shell.log ++ (lines.mapIdx fun k line => lineEvents (answers k) line).flatten ∧
      s'.shell.fds.Same s.shell.fds ∧ s'.shell.command.Fresh ∧ s'.shell.env = s.shell.env := by
  obtain ⟨s', kids, n, hrun, hfollowed, hlaunched⟩ := run_lines
    (fun line hline c hc w hw => ((hlines line hline).plain c hc w hw).literal)
    (fun line hline => (hlines line hline).external) hsys hfresh hstd
  refine ⟨s', kids, ?_, hfollowed.children, hlaunched, hfollowed.log, hfollowed.fds,
    hfollowed.command, hfollowed.env⟩
  rw [runText, htext.inputLines_lex, Option.map_some, hrun]

/-- The line `cat "a b" | sort 2> log`. -/
def sortedFile : PipelineLine where
  first := ⟨"cat", ["a b"]⟩
  rest := [⟨"sort", []⟩]
  modifiers := [(.redir, "log")]
  background := false

/-- Its text, and an empty line. -/
def sortedFileText : List Char := "cat \"a b\" | sort 2> log\n\n".toList

theorem sortedFile_runnable : sortedFile.Runnable where
  plain := List.forall_mem_cons.mpr ⟨List.forall_mem_singleton.mpr
      ⟨by decide, by decide, by decide, by decide⟩,
    List.forall_mem_singleton.mpr (List.forall_mem_nil _)⟩
  external := by decide

theorem sortedFileText_script : ScriptText ([some sortedFile, none].map lineTokens) sortedFileText := by
  have hword (w : String) (hne : w.toList ≠ []) (h : ∀ c ∈ w.toList, isOrdinary c = true) :
      Written (.word w) w.toList := by simpa using Written.ordinary hne h
  have hquoted : Written (.word "a b") ('"' :: ("a b".toList ++ ['"'])) :=
    .quoted (s := "a b".toList) (by simp [isQuotable])
  have hblank {c : Char} {s : List Char} (h : isBlank c = true) : ∀ d ∈ (c :: s).head?, isBlank d = true := by
    simpa using h
  refine .line (.token (hword "cat" (by simp) (by simp [isOrdinary, isSpecial])) (hblank rfl) (.blank rfl
    (.token hquoted (hblank rfl) (.blank rfl
    (.token (.symbol (x := (['|'], .pipe)) (by decide)) (hblank rfl) (.blank rfl
    (.token (hword "sort" (by simp) (by simp [isOrdinary, isSpecial])) (hblank rfl) (.blank rfl
    (.token (.symbol (x := (['2', '>'], .io .redir)) (by decide)) (hblank rfl) (.blank rfl
    (.token (hword "log" (by simp) (by simp [isOrdinary, isSpecial])) (by simp) .nil)))))))))))
    (.line .nil .nil)

/-- The file `a b` is sorted. -/
theorem script_runs_sortedFile :
    ∃ s' kids, runText (insertedArguments (sampleProcess twoFiles) fun _ _ => fullBuffer)
        sortedFileText (fun _ => allSucceed) ⟨newShell [], simpleCommandCreate, .start, []⟩ =
        some (.ok s') ∧
      s'.shell.children = kids ∧ Launched .inherited 0 [some sortedFile, none] kids ∧
      s'.shell.log = [.waitpid (some 2), .prompt, .prompt] := by
  have hlines (line : PipelineLine) (hline : some line ∈ [some sortedFile, none]) :
      line.Runnable := by
    obtain rfl : line = sortedFile := by simpa using hline
    exact sortedFile_runnable
  obtain ⟨s', kids, hrun, hchildren, hlaunched, hlog, -⟩ := script_runs
    (s := ⟨newShell [], simpleCommandCreate, .start, []⟩) sortedFileText_script
    hlines (fun _ => allSucceed_succeeds) (commandClear_fresh _) newShell_std
  exact ⟨s', kids, hrun, hchildren, hlaunched, hlog⟩

end Cs252.Shell
