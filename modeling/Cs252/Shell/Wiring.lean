import Cs252.Shell.Pipeline

/-!
# Cs252.Shell.Wiring

How the children of a pipeline are connected.

`Wired` follows the loop over a pipeline of external commands: it lists the
children in the order they are forked, each with a view of the descriptor table
it is born with. The wiring of the standard descriptors is read off it
(`pipeline_wired`), and so is the read end of its own output pipe that every
child but the last is born with (`no_stray_iff`).
-/

namespace Cs252.Shell

open Descriptors

/-! ### When everything succeeds -/

/-- Every `open`, `pipe` and `fork` succeeds. -/
structure Succeeds (os : Answers) : Prop where
  openIn : os.openIn = true
  openErr : os.openErr = true
  openOut : os.openOut = true
  pipe : ∀ i, os.pipe i = true
  fork : ∀ i, os.fork i ≠ none

theorem allSucceed_succeeds : Succeeds allSucceed :=
  ⟨rfl, rfl, rfl, fun _ => rfl, fun _ => Option.some_ne_none _⟩

theorem newShell_std {simpleCommands : List SimpleCommand} :
    ∀ fd < 3, (newShell simpleCommands).fds.get fd = some (.inherited fd) := by
  show ∀ fd < 3, (newShell []).fds.get fd = some (.inherited fd)
  decide

/-- A simple command that is forked. -/
def External (sCommand : SimpleCommand) : Prop :=
  ∃ name, argument sCommand 0 = some name ∧ name ≠ "exit" ∧ ¬Builtin name

/-- The input of the first command; `stdin` is the shell's own. -/
def inputOf (command : Command) (stdin : File) : File :=
  match command.inFile with
  | some path => .opened path [.rdonly] 0o664
  | none => stdin

/-- The output of the last command. -/
def outputOf (command : Command) (stdout : File) : File :=
  match command.outFile with
  | some path => .opened path
      (if command.isAppended then [.creat, .wronly, .append] else [.creat, .wronly, .trunc]) 0o600
  | none => stdout

/-- The error output of the last command. -/
def errorOf (command : Command) (stderr : File) : File :=
  match command.errFile with
  | some path => .opened path [.creat, .wronly, .append] 0o600
  | none => stderr

section Succeeds

variable {os : Answers} (hsys : Succeeds os) (command : Command) (x : File)
include hsys

theorem chosen_input : chosen command.inFile (openIn os) x = some (inputOf command x) := by
  unfold chosen inputOf openIn openAs
  cases command.inFile with
  | none => rfl
  | some path => exact if_pos hsys.openIn

theorem chosen_output :
    chosen command.outFile (openOut os command.isAppended) x = some (outputOf command x) := by
  unfold chosen outputOf openOut openAs
  cases command.outFile with
  | none => rfl
  | some path => exact if_pos hsys.openOut

theorem chosen_error : chosen command.errFile (openErr os) x = some (errorOf command x) := by
  unfold chosen errorOf openErr openAs
  cases command.errFile with
  | none => rfl
  | some path => exact if_pos hsys.openErr

end Succeeds

/-- A command that is forked ends its round so. -/
theorem dispatch_external {os : Answers} {i : Nat} {name : String} {sCommand : SimpleCommand}
    {p : ShellState} (hsys : Succeeds os) (hname : ¬Builtin name) :
    ∃ pid, dispatch os i name sCommand p =
      .ok (pid, { p with children := p.children ++ [⟨sCommand.arguments, p.fds⟩] }) := by
  have hdisp := dispatch_spec os i name sCommand p
  generalize dispatch os i name sCommand p = r at hdisp ⊢
  cases hdisp with
  | builtin hbuiltin => exact absurd hbuiltin hname
  | overran hbuiltin => exact absurd hbuiltin hname
  | crashed hnull => exact absurd (Or.inr (Or.inl hnull.1)) hname
  | forkFailed _ hfork => exact absurd hfork (hsys.fork i)
  | forked _ hfork => exact ⟨_, rfl⟩

/-! ### The children -/

section Wired

variable (T : Descriptors File) (own : List (Nat × File)) (command : Command)
  (stdout stderr : File)

/-- The children forked for commands whose first input is `x`, when the pipes
created for them are numbered from `k` on. -/
inductive Wired : File → Nat → List SimpleCommand → List Child → Prop
  | last {x k sCommand t std} : View T t std own → std 0 = x → std 1 = outputOf command stdout →
      std 2 = errorOf command stderr → Wired x k [sCommand] [⟨sCommand.arguments, t⟩]
  | pipe {x k sCommand next rest t std r kids} :
      View T t std ((r, .pipeRead k) :: own) → std 0 = x → std 1 = .pipeWrite k → std 2 = stderr →
      Wired (.pipeRead k) (k + 1) (next :: rest) kids →
      Wired x k (sCommand :: next :: rest) (⟨sCommand.arguments, t⟩ :: kids)

end Wired

section Loop

variable {T : Descriptors File} {own : List (Nat × File)} {b c : Nat} {stdout stderr : File}
  {os : Answers}

/-- The loop forks the children as they are wired. -/
theorem runPipeline_wired (hsys : Succeeds os) (hb : (b, stdout) ∈ own) (hc : (c, stderr) ∈ own)
    {cmds : List SimpleCommand} (hne : cmds ≠ []) (hext : ∀ sCommand ∈ cmds, External sCommand)
    {i : Nat} {ret : Option Nat} {p : ShellState} {std : Nat → File} {input : Option (Nat × File)}
    {x : File} (hinput : input.map Prod.snd = some x) (herr : std 2 = stderr)
    (h : View T p.fds std (input.toList ++ own)) :
    ∃ ret' q kids, runPipeline os (some b) (some c) i cmds (input.map Prod.fst) ret p
        = .ok (ret', q) ∧ q.children = p.children ++ kids ∧ (∃ std', View T q.fds std' own) ∧
      Wired T own p.command stdout stderr x p.pipes cmds kids := by
  induction cmds generalizing i ret p std input x with
  | nil => exact absurd rfl hne
  | cons sCommand rest ih =>
    obtain ⟨name, hname, hexit, hexternal⟩ := hext sCommand List.mem_cons_self
    rw [runPipeline]
    cases rest with
    | nil =>
      obtain ⟨t, heq, hview⟩ := runCommand_last os i hname hexit h hb hc
      obtain ⟨pid, hfork⟩ := dispatch_external (p := { p with fds := t }) hsys hexternal
      rw [hinput, chosen_error hsys, chosen_output hsys] at hview
      rw [List.isEmpty_nil, heq, hfork]
      refine ⟨_, _, _, rfl, rfl, ⟨_, hview⟩, .last hview ?_ ?_ ?_⟩
      · rw [redirected_of_ne _ _ (by decide), redirected_of_ne _ _ (by decide), redirected_some_self]
      · rw [redirected_some_self]
      · rw [redirected_of_ne _ _ (by decide), redirected_some_self]
    | cons next rest =>
      obtain ⟨r, t, heq, hview⟩ := runCommand_pipe b c hname hexit (hsys.pipe i) h
      obtain ⟨pid, hfork⟩ :=
        dispatch_external (p := { p with fds := t, pipes := p.pipes + 1 }) hsys hexternal
      rw [hinput] at hview
      rw [List.isEmpty_cons, heq, hfork]
      have herr' : redirected (redirected std 0 (some x)) 1 (some (.pipeWrite p.pipes)) 2 = stderr := by
        rw [redirected_of_ne _ _ (by decide), redirected_of_ne _ _ (by decide), herr]
      replace hview : View T t _ ((some (r, File.pipeRead p.pipes)).toList ++ own) := hview
      obtain ⟨ret', q, kids, hrun, hkids, hend, hwired⟩ := ih (List.cons_ne_nil next rest)
        (fun sCommand hmem => hext sCommand (List.mem_cons_of_mem _ hmem))
        (p := { p with
          fds := t
          pipes := p.pipes + 1
          children := p.children ++ [⟨sCommand.arguments, t⟩] }) rfl herr' hview
      refine ⟨ret', q, _ :: kids, hrun, ?_, hend, .pipe hview ?_ ?_ herr' hwired⟩
      · rw [hkids, List.append_assoc]
        rfl
      · rw [redirected_of_ne _ _ (by decide), redirected_some_self]
      · rw [redirected_some_self]

end Loop

namespace Wired

variable {T : Descriptors File} {own : List (Nat × File)} {command : Command}
  {stdout stderr x : File} {k : Nat} {cmds : List SimpleCommand} {kids : List Child}

/-- One child is forked for each command, in their order. -/
theorem arguments (h : Wired T own command stdout stderr x k cmds kids) :
    kids.map Child.arguments = cmds.map SimpleCommand.arguments := by
  induction h with
  | last => rfl
  | pipe _ _ _ _ _ ih => rw [List.map_cons, List.map_cons, ih]

/-- The standard descriptors of child `i`. -/
theorem standard (h : Wired T own command stdout stderr x k cmds kids) {i : Nat} {child : Child}
    (hchild : kids[i]? = some child) :
    child.fds.get 0 = some (if i = 0 then x else .pipeRead (k + i - 1)) ∧
    child.fds.get 1 = some (if i + 1 = cmds.length then outputOf command stdout
      else .pipeWrite (k + i)) ∧
    child.fds.get 2 = some (if i + 1 = cmds.length then errorOf command stderr else stderr) := by
  induction h generalizing i with
  | last hview hin hout herr =>
    cases i with
    | succ i => simp at hchild
    | zero =>
      obtain rfl := Option.some.inj hchild
      rw [hview.std 0 (by decide), hview.std 1 (by decide), hview.std 2 (by decide), hin, hout, herr]
      exact ⟨rfl, rfl, rfl⟩
  | @pipe y k' sCommand next rest t std r kids hview hin hout herr hrest ih =>
    cases i with
    | zero =>
      obtain rfl := Option.some.inj hchild
      rw [hview.std 0 (by decide), hview.std 1 (by decide), hview.std 2 (by decide), hin, hout, herr]
      exact ⟨rfl, by simp, by simp⟩
    | succ i =>
      obtain ⟨hstdin, hstdout, hstderr⟩ := ih (List.getElem?_cons_succ ▸ hchild)
      refine ⟨?_, ?_, ?_⟩
      · rw [hstdin, if_neg (Nat.succ_ne_zero i)]
        by_cases hi : i = 0
        · rw [if_pos hi, hi]
          rfl
        · rw [if_neg hi]
          congr 2
          omega
      · rw [hstdout, show k' + 1 + i = k' + (i + 1) by omega]
        simp only [List.length_cons, Nat.add_right_cancel_iff]
      · rw [hstderr]
        simp only [List.length_cons, Nat.add_right_cancel_iff]

end Wired

/-! ### The whole function -/

/-- `command_execute` of a pipeline of external commands forks the children as they are wired. -/
theorem commandExecute_wired {os : Answers} {p : ShellState} {std : Nat → File} (hsys : Succeeds os)
    (hne : p.command.simpleCommands ≠ [])
    (hext : ∀ sCommand ∈ p.command.simpleCommands, External sCommand)
    (hstd : ∀ fd < 3, p.fds.get fd = some (std fd)) :
    ∃ q kids a b c, commandExecute os p = .returned q ∧ q.children = p.children ++ kids ∧
      Wired p.fds (saved a b c std) p.command (std 1) (std 2) (inputOf p.command (std 0)) p.pipes
        p.command.simpleCommands kids := by
  obtain ⟨sCommand, rest, hcmds⟩ := List.exists_cons_of_ne_nil hne
  obtain ⟨name, hname, hexit, -⟩ := hext sCommand (hcmds ▸ List.mem_cons_self)
  obtain ⟨a, b, c, input, p', heq, hinput, hview, hcommand, hchildren, hpipes⟩ :=
    commandExecute_setup os hcmds hname hexit hstd
  rw [chosen_input hsys] at hinput
  obtain ⟨ret, q, kids, hrun, hkids, -, hwired⟩ := runPipeline_wired (i := 0) hsys
    (mem_saved_out a b c std) (mem_saved_err a b c std) hne hext hinput rfl hview
  rw [hcommand, hpipes] at hwired
  rw [hchildren] at hkids
  refine ⟨finish ret { q with fds := restore (some a) (some b) (some c) q.fds }, kids, a, b, c, ?_,
    ?_, hwired⟩
  · rw [heq, hrun]
    rfl
  · rw [finish_children]
    exact hkids

/-- **Pipeline wiring.** One child is forked for each command, in their order,
with its standard descriptors connected to the files and the pipes of the
pipeline. -/
theorem pipeline_wired {os : Answers} {p : ShellState} {std : Nat → File} (hsys : Succeeds os)
    (hne : p.command.simpleCommands ≠ [])
    (hext : ∀ sCommand ∈ p.command.simpleCommands, External sCommand)
    (hstd : ∀ fd < 3, p.fds.get fd = some (std fd)) :
    ∃ q kids, commandExecute os p = .returned q ∧ q.children = p.children ++ kids ∧
      kids.map Child.arguments = p.command.simpleCommands.map SimpleCommand.arguments ∧
      ∀ i child, kids[i]? = some child →
        child.fds.get 0 = some (if i = 0 then inputOf p.command (std 0)
          else .pipeRead (p.pipes + i - 1)) ∧
        child.fds.get 1 = some (if i + 1 = p.command.simpleCommands.length
          then outputOf p.command (std 1) else .pipeWrite (p.pipes + i)) ∧
        child.fds.get 2 = some (if i + 1 = p.command.simpleCommands.length
          then errorOf p.command (std 2) else std 2) := by
  obtain ⟨q, kids, a, b, c, heq, hkids, hwired⟩ := commandExecute_wired hsys hne hext hstd
  exact ⟨q, kids, heq, hkids, hwired.arguments, fun i child => hwired.standard⟩

theorem pipeline_wired_two :
    ∃ q kids, commandExecute allSucceed (newShell [⟨5, ["ls"]⟩, ⟨5, ["wc"]⟩]) = .returned q ∧
      q.children = [] ++ kids ∧ kids.map Child.arguments = [["ls"], ["wc"]] ∧
      ∀ i child, kids[i]? = some child →
        child.fds.get 0 = some (if i = 0 then .inherited 0 else .pipeRead (0 + i - 1)) ∧
        child.fds.get 1 = some (if i + 1 = 2 then .inherited 1 else .pipeWrite (0 + i)) ∧
        child.fds.get 2 = some (if i + 1 = 2 then .inherited 2 else .inherited 2) :=
  pipeline_wired (p := newShell [⟨5, ["ls"]⟩, ⟨5, ["wc"]⟩]) allSucceed_succeeds (by decide)
    (by
      intro sCommand hmem
      rcases List.mem_cons.mp hmem with rfl | hmem
      · exact ⟨"ls", rfl, by decide, by decide⟩
      · obtain rfl := List.mem_singleton.mp hmem
        exact ⟨"wc", rfl, by decide, by decide⟩)
    newShell_std

/-! ### Stray ends -/

/-- The pipe a file is an end of. -/
def File.pipe : File → Option Nat
  | .pipeRead k => some k
  | .pipeWrite k => some k
  | .inherited _ => none
  | .opened _ _ _ => none

/-- The file is no end of a pipe numbered `k` or more. -/
def File.Before (k : Nat) (x : File) : Prop := ∀ j, x.pipe = some j → j < k

theorem before_of_pipe_eq_none {k : Nat} {x : File} (h : x.pipe = none) : x.Before k := by
  intro j hj
  rw [h] at hj
  cases hj

theorem newShell_before {simpleCommands : List SimpleCommand} (fd : Nat) (x : File)
    (hx : (newShell simpleCommands).fds.get fd = some x) : x.Before 0 := by
  refine before_of_pipe_eq_none ?_
  rcases fd with _ | _ | _ | fd
  · exact Option.some.inj hx ▸ rfl
  · exact Option.some.inj hx ▸ rfl
  · exact Option.some.inj hx ▸ rfl
  · cases hx

/-- The files of a table are those it had on entry and those listed in its view. -/
theorem View.before {T t : Descriptors File} {std : Nat → File} {own : List (Nat × File)} {k : Nat}
    (h : View T t std own) (hentry : ∀ fd x, T.get fd = some x → x.Before k)
    (hstd : ∀ fd < 3, (std fd).Before k) (hown : ∀ r ∈ own, r.2.Before k) :
    ∀ fd x, t.get fd = some x → x.Before k := by
  intro fd x hx
  by_cases hfd : fd < 3
  · rw [h.std fd hfd] at hx
    exact Option.some.inj hx ▸ hstd fd hfd
  by_cases hmem : fd ∈ own.map Prod.fst
  · obtain ⟨r, hr, rfl⟩ := List.mem_map.mp hmem
    rw [h.own_open r hr] at hx
    exact Option.some.inj hx ▸ hown r hr
  · rw [h.others fd (Nat.le_of_not_lt hfd) hmem] at hx
    exact hentry fd x hx

section Before

variable {k : Nat} {x : File} (command : Command) (hx : x.Before k)
include hx

theorem inputOf_before : (inputOf command x).Before k := by
  unfold inputOf
  cases command.inFile with
  | none => exact hx
  | some path => exact before_of_pipe_eq_none rfl

theorem outputOf_before : (outputOf command x).Before k := by
  unfold outputOf
  cases command.outFile with
  | none => exact hx
  | some path => exact before_of_pipe_eq_none rfl

theorem errorOf_before : (errorOf command x).Before k := by
  unfold errorOf
  cases command.errFile with
  | none => exact hx
  | some path => exact before_of_pipe_eq_none rfl

end Before

/-- Of the pipes numbered from `k` on, child `i` of `n` holds the read end of the
one before it, as its input, and the write end of the one after it, as its
output, and no other end. -/
def NoStray (k n i : Nat) (t : Descriptors File) : Prop :=
  ∀ fd x j, t.get fd = some x → x.pipe = some j → k ≤ j →
    (fd = 0 ∧ 0 < i ∧ x = .pipeRead (k + i - 1)) ∨ (fd = 1 ∧ i + 1 < n ∧ x = .pipeWrite (k + i))

/-- **Stray pipe ends.** No child holds one exactly when there is no pipe. -/
theorem no_stray_iff {os : Answers} {p : ShellState} {std : Nat → File} (hsys : Succeeds os)
    (hne : p.command.simpleCommands ≠ [])
    (hext : ∀ sCommand ∈ p.command.simpleCommands, External sCommand)
    (hstd : ∀ fd < 3, p.fds.get fd = some (std fd))
    (hpipes : ∀ fd x, p.fds.get fd = some x → x.Before p.pipes) :
    ∃ q kids, commandExecute os p = .returned q ∧ q.children = p.children ++ kids ∧
      kids.length = p.command.simpleCommands.length ∧
      ((∀ i child, kids[i]? = some child →
          NoStray p.pipes p.command.simpleCommands.length i child.fds) ↔
        p.command.simpleCommands.length = 1) := by
  obtain ⟨q, kids, a, b, c, heq, hkids, hwired⟩ := commandExecute_wired hsys hne hext hstd
  have hlen : kids.length = p.command.simpleCommands.length := by
    have hargs := congrArg List.length hwired.arguments
    simpa using hargs
  have hbefore : ∀ fd < 3, (std fd).Before p.pipes := fun fd hfd => hpipes fd _ (hstd fd hfd)
  refine ⟨q, kids, heq, hkids, hlen, ?_⟩
  generalize p.command.simpleCommands = cmds at hwired ⊢
  cases hwired with
  | @last _ _ sCommand t std' hview hin hout herr =>
    have hbefore' : ∀ fd < 3, (std' fd).Before p.pipes := by
      intro fd hfd
      have hcases : fd = 0 ∨ fd = 1 ∨ fd = 2 := by omega
      rcases hcases with rfl | rfl | rfl
      · exact hin ▸ inputOf_before p.command (hbefore 0 (by decide))
      · exact hout ▸ outputOf_before p.command (hbefore 1 (by decide))
      · exact herr ▸ errorOf_before p.command (hbefore 2 (by decide))
    have hsaved : ∀ r ∈ saved a b c std, r.2.Before p.pipes := by
      intro r hr
      simp only [saved, List.mem_cons, List.not_mem_nil, or_false] at hr
      rcases hr with rfl | rfl | rfl
      · exact hbefore 2 (by decide)
      · exact hbefore 1 (by decide)
      · exact hbefore 0 (by decide)
    refine ⟨fun _ => rfl, fun _ i child hchild fd x j hx hj hle => ?_⟩
    cases i with
    | succ i => simp at hchild
    | zero =>
      obtain rfl := Option.some.inj hchild
      have hlt := hview.before hpipes hbefore' hsaved fd x hx j hj
      omega
  | @pipe _ _ sCommand next rest t std' r kids hview =>
    refine ⟨fun hno => ?_, fun hone => by simp at hone⟩
    -- the first child is born with the read end of its own output pipe
    have hopen := hview.own_open _ List.mem_cons_self
    have hle : 3 ≤ r := hview.le_of_mem List.mem_cons_self
    rcases hno 0 _ rfl r _ p.pipes hopen rfl (Nat.le_refl _) with ⟨hfd, -⟩ | ⟨hfd, -⟩
    · omega
    · omega

/-- With one command. -/
theorem no_stray_iff_ls :
    ∃ q kids, commandExecute allSucceed (newShell [⟨5, ["ls"]⟩]) = .returned q ∧
      q.children = [] ++ kids ∧ kids.length = 1 ∧
      ((∀ i child, kids[i]? = some child → NoStray 0 1 i child.fds) ↔ 1 = 1) :=
  no_stray_iff (p := newShell [⟨5, ["ls"]⟩]) allSucceed_succeeds (by decide)
    (by
      intro sCommand hmem
      obtain rfl := List.mem_singleton.mp hmem
      exact ⟨"ls", rfl, by decide, by decide⟩)
    newShell_std newShell_before

/-- In `ls | wc`, the child that runs `ls` holds the read end of the pipe at
descriptor 6. -/
theorem stray_ls_wc :
    ∃ q child, commandExecute allSucceed (newShell [⟨5, ["ls"]⟩, ⟨5, ["wc"]⟩]) = .returned q ∧
      q.children[0]? = some child ∧ child.arguments = ["ls"] ∧
      child.fds.get 6 = some (.pipeRead 0) ∧ ¬NoStray 0 2 0 child.fds := by
  refine ⟨_, _, rfl, rfl, rfl, rfl, fun hno => ?_⟩
  rcases hno 6 (.pipeRead 0) 0 rfl rfl (Nat.le_refl 0) with ⟨hfd, -⟩ | ⟨hfd, -⟩
  · exact absurd hfd (by decide)
  · exact absurd hfd (by decide)

end Cs252.Shell
