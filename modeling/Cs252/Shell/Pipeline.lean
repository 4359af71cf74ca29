import Cs252.Shell.Redirect

/-!
# Cs252.Shell.Pipeline

One round of the loop in `command_execute`.

`runCommand_last` and `runCommand_pipe` describe the descriptors at the end of
the loop body, before a builtin or a fork, by what the standard descriptors
refer to. `Dispatched` lists the ways the round ends.
-/

namespace Cs252.Shell

open Descriptors

/-! ### Redirections -/

/-- What `openOrDup` opens, when the saved descriptor refers to `saved`. -/
def chosen (file : Option String) (openIt : String → Option File) (saved : File) : Option File :=
  match file with
  | some path => openIt path
  | none => some saved

section Stages

variable {T : Descriptors File} {std : Nat → File} {own : List (Nat × File)} {os : Answers}
  {p : ShellState} {b c : Nat} {stdout stderr : File}

theorem openOrDup_spec {t : Descriptors File} {r : Nat × File} (h : View T t std own) (hr : r ∈ own)
    (file : Option String) (openIt : String → Option File) :
    ∃ (new : Option (Nat × File)) (t' : Descriptors File),
      openOrDup file openIt (some r.1) t = (new.map Prod.fst, t') ∧
      new.map Prod.snd = chosen file openIt r.2 ∧ View T t' std (new.toList ++ own) := by
  cases file with
  | some path => exact h.openNew (openIt path)
  | none =>
    obtain ⟨new, t', heq, hview⟩ := h.dup_own hr
    exact ⟨some (new, r.2), t', heq, rfl, hview⟩

/-- The error and the output of the last command. -/
theorem setupLast_spec (h : View T p.fds std own) (hb : (b, stdout) ∈ own)
    (hc : (c, stderr) ∈ own) :
    ∃ (new : Option (Nat × File)) (t' : Descriptors File),
      setupLast os (some b) (some c) p = (new.map Prod.fst, { p with fds := t' }) ∧
      new.map Prod.snd = chosen p.command.outFile (openOut os p.command.isAppended) stdout ∧
      View T t' (redirected std 2 (chosen p.command.errFile (openErr os) stderr))
        (new.toList ++ own) := by
  obtain ⟨err, t₁, herr, hfile, h₁⟩ := openOrDup_spec h hc p.command.errFile (openErr os)
  have h₂ := h₁.redirect (show 2 < 3 by decide)
  rw [hfile] at h₂
  obtain ⟨new, t₃, hout, hfile', h₃⟩ :=
    openOrDup_spec h₂ hb p.command.outFile (openOut os p.command.isAppended)
  refine ⟨new, t₃, ?_, hfile', h₃⟩
  simp only [setupLast, herr, hout]

theorem createPipe_spec (h : View T p.fds std own) :
    ∃ r w t', createPipe p = (some r, some w, { p with fds := t', pipes := p.pipes + 1 }) ∧
      View T t' std ((w, .pipeWrite p.pipes) :: (r, .pipeRead p.pipes) :: own) := by
  obtain ⟨r, t₁, hr, h₁⟩ := h.openNew_some (.pipeRead p.pipes)
  obtain ⟨w, t₂, hw, h₂⟩ := h₁.openNew_some (.pipeWrite p.pipes)
  refine ⟨r, w, t₂, ?_, h₂⟩
  simp only [createPipe, hr, hw]

/-- The output is redirected to a descriptor just opened. -/
theorem redirectOutput_view {new : Option (Nat × File)} {t : Descriptors File}
    (h : View T t std (new.toList ++ own)) :
    ∃ t', redirectOutput (new.map Prod.fst) { p with fds := t } = { p with fds := t' } ∧
      View T t' (redirected std 1 (new.map Prod.snd)) own :=
  ⟨_, rfl, h.redirect (by decide)⟩

end Stages

/-! ### The end of a round -/

/-- The builtins that return from inside the loop. -/
def Builtin (name : String) : Prop := name = "cd" ∨ name = "setenv" ∨ name = "unsetenv"

instance : DecidablePred Builtin := fun name => by
  unfold Builtin
  infer_instance

/-- A builtin that uses a null pointer as a string: `setenv` without a name, or
without a value for a name that it accepts. -/
def NullArgument (name : String) (sCommand : SimpleCommand) : Prop :=
  name = "setenv" ∧ argument sCommand 2 = none ∧ (argument sCommand 1).all validName

instance (name : String) (sCommand : SimpleCommand) : Decidable (NullArgument name sCommand) := by
  unfold NullArgument
  infer_instance

/-- The ways a round ends. -/
inductive Dispatched (os : Answers) (i : Nat) (name : String) (sCommand : SimpleCommand)
    (p : ShellState) : Except Outcome (Nat × ShellState) → Prop
  | builtin {q : ShellState} : Builtin name → ¬NullArgument name sCommand → q.fds = p.fds →
      q.command.Fresh → Dispatched os i name sCommand p (.error (.returned q))
  | overran {q : ShellState} : Builtin name → ¬NullArgument name sCommand → q.fds = p.fds →
      Dispatched os i name sCommand p (.error (.overrun q))
  | crashed : NullArgument name sCommand → Dispatched os i name sCommand p (.error .crashed)
  | forkFailed {q : ShellState} : ¬Builtin name → os.fork i = none → q.fds = p.fds →
      q.command = { p.command with lastReturn := 1 } →
      Dispatched os i name sCommand p (.error (.returned q))
  | forked {pid : Nat} : ¬Builtin name → os.fork i = some pid →
      Dispatched os i name sCommand p
        (.ok (pid, { p with children := p.children ++ [⟨sCommand.arguments, p.fds⟩] }))

theorem setenv_fds (p : ShellState) (var value : String) (overwrite : Bool) :
    (setenv p var value overwrite).fds = p.fds := by
  unfold setenv
  split <;> rfl

theorem runUnsetenv_fds (sCommand : SimpleCommand) (p : ShellState) :
    (runUnsetenv sCommand p).fds = p.fds := by
  unfold runUnsetenv unsetenv
  cases argument sCommand 1 with
  | none => rfl
  | some var =>
    by_cases hvalid : validName var = true <;> simp [hvalid, ShellState.emit]

theorem runCd_fds (os : Answers) (sCommand : SimpleCommand) (p : ShellState) :
    (runCd os sCommand p).1.fds = p.fds := by
  unfold runCd
  by_cases hdir : os.chdir = true <;> simp [hdir, ShellState.emit]

/-- A value that is there comes after a name. -/
theorem argument_two {sCommand : SimpleCommand} {value : String}
    (h : argument sCommand 2 = some value) : ∃ var, argument sCommand 1 = some var := by
  have hlt := (List.getElem?_eq_some_iff.mp h).1
  exact ⟨_, List.getElem?_eq_getElem (Nat.lt_of_succ_lt hlt)⟩

/-- `setenv` crashes exactly when an argument is null and is looked at. -/
theorem runSetenv_cases (sCommand : SimpleCommand) (p : ShellState) :
    (NullArgument "setenv" sCommand ∧ runSetenv sCommand p = none) ∨
      (¬NullArgument "setenv" sCommand ∧ ∃ q, runSetenv sCommand p = some q ∧ q.fds = p.fds) := by
  unfold runSetenv NullArgument
  cases hvalue : argument sCommand 2 with
  | some value =>
    obtain ⟨var, hvar⟩ := argument_two hvalue
    rw [hvar]
    exact Or.inr ⟨by simp, _, rfl, setenv_fds ..⟩
  | none =>
    cases argument sCommand 1 with
    | none => exact Or.inl ⟨by simp, rfl⟩
    | some var => by_cases hvalid : validName var = true <;> simp [hvalid]

theorem dispatch_spec (os : Answers) (i : Nat) (name : String) (sCommand : SimpleCommand)
    (p : ShellState) : Dispatched os i name sCommand p (dispatch os i name sCommand p) := by
  unfold dispatch
  by_cases hcd : name = "cd"
  · rw [if_pos hcd]
    have hargs : ¬NullArgument name sCommand := fun h => absurd (hcd.symm.trans h.1) (by decide)
    have hfds := runCd_fds os sCommand p
    split
    · next heq =>
      rw [heq] at hfds
      exact .builtin (Or.inl hcd) hargs hfds (commandClear_fresh _)
    · next heq =>
      rw [heq] at hfds
      exact .overran (Or.inl hcd) hargs hfds
  rw [if_neg hcd]
  by_cases hsetenv : name = "setenv"
  · rw [if_pos hsetenv]
    rcases runSetenv_cases sCommand p with ⟨hnull, heq⟩ | ⟨hargs, q, heq, hfds⟩
    · rw [heq]
      exact .crashed (hsetenv ▸ hnull)
    · rw [heq]
      exact .builtin (Or.inr (Or.inl hsetenv)) (hsetenv ▸ hargs) hfds (commandClear_fresh _)
  rw [if_neg hsetenv]
  by_cases hunsetenv : name = "unsetenv"
  · rw [if_pos hunsetenv]
    exact .builtin (Or.inr (Or.inr hunsetenv)) (fun h => hsetenv h.1) (runUnsetenv_fds sCommand p)
      (commandClear_fresh _)
  rw [if_neg hunsetenv]
  have hexternal : ¬Builtin name := fun h => h.elim hcd fun h => h.elim hsetenv hunsetenv
  cases hfork : os.fork i with
  | none => exact .forkFailed hexternal hfork rfl rfl
  | some pid => exact .forked hexternal hfork

/-! ### The loop body -/

section Round

variable {T : Descriptors File} {std : Nat → File} {own : List (Nat × File)} {os : Answers}
  {p : ShellState} {i b c : Nat} {stdout stderr : File} {sCommand : SimpleCommand} {name : String}
  {input : Option (Nat × File)}

/-- The round of the last command, up to its end. -/
theorem runCommand_last (os : Answers) (i : Nat) (hname : argument sCommand 0 = some name) (hexit : name ≠ "exit")
    (h : View T p.fds std (input.toList ++ own)) (hb : (b, stdout) ∈ own) (hc : (c, stderr) ∈ own) :
    ∃ t', runCommand os (some b) (some c) i true sCommand (input.map Prod.fst) p =
        (dispatch os i name sCommand { p with fds := t' }).map
          (fun r => (input.map Prod.fst, r)) ∧
      View T t' (redirected (redirected (redirected std 0 (input.map Prod.snd))
        2 (chosen p.command.errFile (openErr os) stderr))
        1 (chosen p.command.outFile (openOut os p.command.isAppended) stdout)) own := by
  have h₁ := h.redirect (show 0 < 3 by decide)
  obtain ⟨new, t₂, heq, hfile, h₂⟩ := setupLast_spec
    (p := { p with fds := (p.fds.dup2 (input.map Prod.fst) 0).close (input.map Prod.fst) }) h₁ hb hc
  obtain ⟨t₃, heq', h₃⟩ := redirectOutput_view (p := p) h₂
  rw [hfile] at h₃
  refine ⟨t₃, ?_, h₃⟩
  simp only [runCommand, hname, if_neg hexit, heq, if_true]
  rw [← heq']

/-- The round of a command that is not the last, up to its end. -/
theorem runCommand_pipe (b c : Nat) (hname : argument sCommand 0 = some name) (hexit : name ≠ "exit")
    (hpipe : os.pipe i = true) (h : View T p.fds std (input.toList ++ own)) :
    ∃ r t', runCommand os (some b) (some c) i false sCommand (input.map Prod.fst) p =
        (dispatch os i name sCommand { p with fds := t', pipes := p.pipes + 1 }).map
          (fun x => (some r, x)) ∧
      View T t' (redirected (redirected std 0 (input.map Prod.snd)) 1 (some (.pipeWrite p.pipes)))
        ((r, .pipeRead p.pipes) :: own) := by
  have h₁ := h.redirect (show 0 < 3 by decide)
  obtain ⟨r, w, t₂, heq, h₂⟩ := createPipe_spec
    (p := { p with fds := (p.fds.dup2 (input.map Prod.fst) 0).close (input.map Prod.fst) }) h₁
  obtain ⟨t₃, heq', h₃⟩ := redirectOutput_view (p := { p with pipes := p.pipes + 1 })
    (show View T t₂ _ ((some (w, .pipeWrite p.pipes)).toList ++ _) from h₂)
  refine ⟨r, t₃, ?_, h₃⟩
  simp only [runCommand, hname, if_neg hexit, heq, hpipe, if_true]
  rw [← heq']
  rfl

/-- The ways a round ends, with the descriptors at its end. `own` are the saved
descriptors, and `rest` the commands that follow. -/
inductive Round (T : Descriptors File) (os : Answers) (own : List (Nat × File)) (i : Nat)
    (sCommand : SimpleCommand) (rest : List SimpleCommand) :
    Except Outcome (Option Nat × Nat × ShellState) → Prop
  | unnamed : argument sCommand 0 = none → Round T os own i sCommand rest (.error .crashed)
  | exit {name : String} {q : ShellState} : argument sCommand 0 = some name → name = "exit" →
      Round T os own i sCommand rest (.error (.exited q))
  | noPipe {name : String} {q : ShellState} : argument sCommand 0 = some name → rest ≠ [] →
      os.pipe i = false → Round T os own i sCommand rest (.error (.exited q))
  | dispatched {name : String} {q : ShellState} {fdin : Option Nat} {std : Nat → File}
      {input : Option (Nat × File)} {r : Except Outcome (Nat × ShellState)} :
      argument sCommand 0 = some name → name ≠ "exit" → (rest ≠ [] → os.pipe i = true) →
      View T q.fds std (input.toList ++ own) → (rest ≠ [] → fdin = input.map Prod.fst) →
      (rest = [] → input = none) → Dispatched os i name sCommand q r →
      Round T os own i sCommand rest (r.map fun r => (fdin, r))

theorem runCommand_round (os : Answers) (i : Nat) (sCommand : SimpleCommand)
    (rest : List SimpleCommand) (hb : (b, stdout) ∈ own)
    (hc : (c, stderr) ∈ own) (h : View T p.fds std (input.toList ++ own)) :
    Round T os own i sCommand rest
      (runCommand os (some b) (some c) i rest.isEmpty sCommand (input.map Prod.fst) p) := by
  cases hname : argument sCommand 0 with
  | none =>
    rw [runCommand, hname]
    exact .unnamed hname
  | some name =>
    by_cases hexit : name = "exit"
    · rw [runCommand, hname]
      simp only [if_pos hexit]
      exact .exit hname hexit
    cases rest with
    | nil =>
      obtain ⟨t', heq, hview⟩ := runCommand_last os i hname hexit h hb hc
      replace hview : View T t' _ ((none : Option (Nat × File)).toList ++ own) := hview
      rw [List.isEmpty_nil, heq]
      exact .dispatched hname hexit (fun hne => absurd rfl hne) hview (fun hne => absurd rfl hne)
        (fun _ => rfl) (dispatch_spec ..)
    | cons next rest =>
      cases hpipe : os.pipe i with
      | true =>
        obtain ⟨r, t', heq, hview⟩ := runCommand_pipe b c hname hexit hpipe h
        replace hview : View T t' _ ((some (r, File.pipeRead p.pipes)).toList ++ own) := hview
        rw [List.isEmpty_cons, heq]
        exact .dispatched hname hexit (fun _ => hpipe) hview (fun _ => rfl)
          (fun hnil => nomatch hnil) (dispatch_spec ..)
      | false =>
        have hend : ∃ q, runCommand os (some b) (some c) i (next :: rest).isEmpty sCommand
            (input.map Prod.fst) p = .error (.exited q) := by
          simp [runCommand, hname, hexit, hpipe]
        obtain ⟨q, heq⟩ := hend
        rw [heq]
        exact .noPipe hname (List.cons_ne_nil next rest) hpipe

end Round

/-! ### Before and after the loop -/

/-- The saved standard descriptors, for the files `std`. -/
def saved (a b c : Nat) (std : Nat → File) : List (Nat × File) :=
  [(c, std 2), (b, std 1), (a, std 0)]

section Saved

variable (a b c : Nat) (std : Nat → File)

theorem mem_saved_in : (a, std 0) ∈ saved a b c std := by
  simp [saved]

theorem mem_saved_out : (b, std 1) ∈ saved a b c std := by
  simp [saved]

theorem mem_saved_err : (c, std 2) ∈ saved a b c std := by
  simp [saved]

end Saved

/-- The three `dup` calls save the standard descriptors. -/
theorem save_spec {T : Descriptors File} {std : Nat → File}
    (h : ∀ fd < 3, T.get fd = some (std fd)) :
    ∃ a b c t₁ t₂ t₃, T.dup (some 0) = (some a, t₁) ∧ t₁.dup (some 1) = (some b, t₂) ∧
      t₂.dup (some 2) = (some c, t₃) ∧ View T t₃ std (saved a b c std) := by
  obtain ⟨a, t₁, ha, h₁⟩ := (View.start h).dup_std (show 0 < 3 by decide)
  obtain ⟨b, t₂, hb, h₂⟩ := h₁.dup_std (show 1 < 3 by decide)
  obtain ⟨c, t₃, hc, h₃⟩ := h₂.dup_std (show 2 < 3 by decide)
  exact ⟨a, b, c, t₁, t₂, t₃, ha, hb, hc, h₃⟩

/-- Restoring the defaults undoes all redirections. -/
theorem restore_spec {T t : Descriptors File} {orig std : Nat → File} {a b c : Nat}
    (horig : ∀ fd < 3, T.get fd = some (orig fd))
    (h : View T t std (saved a b c orig)) :
    (restore (some a) (some b) (some c) t).Same T := by
  have h₁ := h.dup2 (r := (a, orig 0)) (show 0 < 3 by decide) (mem_saved_in ..)
  have h₂ := h₁.dup2 (r := (b, orig 1)) (show 1 < 3 by decide) (mem_saved_out ..)
  have h₃ := h₂.dup2 (r := (c, orig 2)) (show 2 < 3 by decide) (mem_saved_err ..)
  have h₄ := h₃.perm (List.reverse_perm _).symm
  have h₅ := h₄.close.close.close
  intro fd
  by_cases hfd : fd < 3
  · have hstd : fd = 0 ∨ fd = 1 ∨ fd = 2 := by omega
    rcases hstd with rfl | rfl | rfl
    · exact (h₅.std 0 hfd).trans (horig 0 hfd).symm
    · exact (h₅.std 1 hfd).trans (horig 1 hfd).symm
    · exact (h₅.std 2 hfd).trans (horig 2 hfd).symm
  · exact h₅.others fd (Nat.le_of_not_lt hfd) List.not_mem_nil

/-- What happens before the loop, unless the first command is `exit`. -/
theorem commandExecute_setup (os : Answers) {p : ShellState} {std : Nat → File} {sCommand : SimpleCommand}
    {rest : List SimpleCommand} {name : String} (hcmds : p.command.simpleCommands = sCommand :: rest)
    (hname : argument sCommand 0 = some name) (hexit : name ≠ "exit")
    (hstd : ∀ fd < 3, p.fds.get fd = some (std fd)) :
    ∃ (a b c : Nat) (input : Option (Nat × File)) (p' : ShellState),
      commandExecute os p = afterLoop (some a) (some b) (some c)
        (runPipeline os (some b) (some c) 0 p.command.simpleCommands (input.map Prod.fst) none p') ∧
      input.map Prod.snd = chosen p.command.inFile (openIn os) (std 0) ∧
      View p.fds p'.fds std (input.toList ++ (saved a b c std)) ∧
      p'.command = p.command ∧ p'.children = p.children ∧ p'.pipes = p.pipes := by
  obtain ⟨p₁, hp₁⟩ : ∃ p₁, warnAmbiguous p = p₁ := ⟨_, rfl⟩
  have hkeep : p₁.command = p.command ∧ p₁.children = p.children ∧ p₁.pipes = p.pipes ∧
      p₁.fds = p.fds := by
    rw [← hp₁, warnAmbiguous]
    split <;> exact ⟨rfl, rfl, rfl, rfl⟩
  obtain ⟨hcommand, hchildren, hpipes, hfds⟩ := hkeep
  obtain ⟨a, b, c, t₁, t₂, t₃, ha, hb, hc, h₃⟩ := save_spec hstd
  obtain ⟨input, t₄, hin, hfile, h₄⟩ :=
    openOrDup_spec h₃ (r := (a, std 0)) (mem_saved_in ..) p.command.inFile (openIn os)
  refine ⟨a, b, c, input, { p₁ with fds := t₄ }, ?_, hfile, h₄, hcommand, hchildren, hpipes⟩
  simp only [commandExecute, hcmds, hname, if_neg hexit, hp₁, hfds, ha, hb, hc, hcommand, hin]

@[simp] theorem finish_fds (ret : Option Nat) (p : ShellState) : (finish ret p).fds = p.fds := by
  unfold finish
  by_cases h : p.command.isBackground = true <;> simp [h, prompt, ShellState.clear, ShellState.emit]

@[simp] theorem finish_children (ret : Option Nat) (p : ShellState) :
    (finish ret p).children = p.children := by
  unfold finish
  by_cases h : p.command.isBackground = true <;> simp [h, prompt, ShellState.clear, ShellState.emit]

end Cs252.Shell
