import Cs252.Shell.Pipeline

/-!
# Cs252.Shell.Restored

When `command_execute` gives the shell its descriptors back.

The defaults are restored after the loop only. A builtin that runs in the shell
and a failing fork return from inside the loop, with the standard descriptors
redirected and the saved ones open. `Undisturbed` says, of the commands and the
system's answers, that no command does so; then, and only then, the descriptors
are as on entry whenever the function returns. A `cd` that overruns its array may
return as well.
-/

namespace Cs252.Shell

open Descriptors

/-- From command `i` on, no command returns from inside the loop: each is
forked, until the end or until the shell exits or crashes. -/
def Undisturbed (os : Answers) : Nat → List SimpleCommand → Prop
  | _, [] => True
  | i, sCommand :: rest =>
    match argument sCommand 0 with
    | none => True
    | some name =>
      name = "exit" ∨ (rest ≠ [] ∧ os.pipe i = false) ∨ NullArgument name sCommand ∨
        (¬Builtin name ∧ os.fork i ≠ none ∧ Undisturbed os (i + 1) rest)

theorem undisturbed_cons {os : Answers} {i : Nat} {sCommand : SimpleCommand}
    {rest : List SimpleCommand} {name : String} (hname : argument sCommand 0 = some name) :
    Undisturbed os i (sCommand :: rest) ↔
      name = "exit" ∨ (rest ≠ [] ∧ os.pipe i = false) ∨ NullArgument name sCommand ∨
        (¬Builtin name ∧ os.fork i ≠ none ∧ Undisturbed os (i + 1) rest) := by
  rw [Undisturbed, hname]

/-- A builtin that is reached returns from inside the loop. -/
theorem not_undisturbed_of_builtin {os : Answers} {i : Nat} {sCommand : SimpleCommand}
    {rest : List SimpleCommand} {name : String} (hname : argument sCommand 0 = some name)
    (hexit : name ≠ "exit") (hpipe : rest ≠ [] → os.pipe i = true) (hbuiltin : Builtin name)
    (hargs : ¬NullArgument name sCommand) : ¬Undisturbed os i (sCommand :: rest) := by
  intro hclean
  rcases (undisturbed_cons hname).mp hclean with h | h | h | h
  · exact hexit h
  · exact absurd (hpipe h.1) (by simp [h.2])
  · exact hargs h
  · exact h.1 hbuiltin

section Loop

variable {T : Descriptors File} {b c : Nat} {stdout stderr : File}
  {own : List (Nat × File)}

/-- What the loop leaves: the descriptors saved before it, when it comes to its
end; these and perhaps others, when it returns from inside. `clean` tells the
two apart. -/
def LoopEnds (T : Descriptors File) (own : List (Nat × File)) (clean : Prop) :
    Except Outcome (Option Nat × ShellState) → Prop
  | .ok (_, q) => clean ∧ ∃ std, View T q.fds std own
  | .error (.returned q) => ¬clean ∧ ∃ std more, View T q.fds std (more ++ own)
  | .error (.overrun q) => ¬clean ∧ ∃ std more, View T q.fds std (more ++ own)
  | .error (.exited _) => clean
  | .error .crashed => clean

theorem runPipeline_ends (os : Answers) (i : Nat) (ret : Option Nat) (hb : (b, stdout) ∈ own)
    (hc : (c, stderr) ∈ own) {cmds : List SimpleCommand} {fdin : Option Nat} {p : ShellState} {std : Nat → File}
    {input : Option (Nat × File)} (hfdin : cmds ≠ [] → fdin = input.map Prod.fst)
    (hend : cmds = [] → input = none) (h : View T p.fds std (input.toList ++ own)) :
    LoopEnds T own (Undisturbed os i cmds) (runPipeline os (some b) (some c) i cmds fdin ret p) := by
  induction cmds generalizing i fdin ret p std input with
  | nil =>
    obtain rfl := hend rfl
    exact ⟨trivial, std, h⟩
  | cons sCommand rest ih =>
    obtain rfl := hfdin (List.cons_ne_nil sCommand rest)
    have hround := runCommand_round os i sCommand rest hb hc h
    rw [runPipeline]
    generalize runCommand os (some b) (some c) i rest.isEmpty sCommand (input.map Prod.fst) p = r
      at hround ⊢
    cases hround with
    | unnamed hname =>
      show Undisturbed os i (sCommand :: rest)
      rw [Undisturbed, hname]
      trivial
    | exit hname hexit => exact (undisturbed_cons hname).mpr (Or.inl hexit)
    | noPipe hname hrest hpipe =>
      exact (undisturbed_cons hname).mpr (Or.inr (Or.inl ⟨hrest, hpipe⟩))
    | dispatched hname hexit hpipe hview hfdin' hend' hdisp =>
      have hgoes : ¬(rest ≠ [] ∧ os.pipe i = false) := fun h => by simp [hpipe h.1] at h
      cases hdisp with
      | builtin hbuiltin hargs hfds =>
        exact ⟨not_undisturbed_of_builtin hname hexit hpipe hbuiltin hargs, _, _, hfds ▸ hview⟩
      | overran hbuiltin hargs hfds =>
        exact ⟨not_undisturbed_of_builtin hname hexit hpipe hbuiltin hargs, _, _, hfds ▸ hview⟩
      | crashed hnull => exact (undisturbed_cons hname).mpr (Or.inr (Or.inr (Or.inl hnull)))
      | forkFailed hexternal hfork hfds =>
        refine ⟨fun hclean => ?_, _, _, hfds ▸ hview⟩
        rcases (undisturbed_cons hname).mp hclean with h | h | h | h
        · exact hexit h
        · exact hgoes h
        · exact hexternal (Or.inr (Or.inl h.1))
        · exact h.2.1 hfork
      | forked hexternal hfork =>
        -- the first command is forked, so the rest decides
        have hclean : Undisturbed os i (sCommand :: rest) ↔ Undisturbed os (i + 1) rest := by
          rw [undisturbed_cons hname]
          refine ⟨fun h => ?_, fun h => Or.inr (Or.inr (Or.inr ⟨hexternal, by simp [hfork], h⟩))⟩
          rcases h with h | h | h | h
          · exact absurd h hexit
          · exact absurd h hgoes
          · exact absurd (Or.inr (Or.inl h.1)) hexternal
          · exact h.2.2
        rw [show Undisturbed os i (sCommand :: rest) = Undisturbed os (i + 1) rest from
          propext hclean]
        exact ih (i + 1) _ hfdin' hend' hview

end Loop

/-! ### The whole function -/

/-- The states that the function may return with. -/
def Outcome.MayReturn : Outcome → ShellState → Prop
  | .returned p, q => q = p
  | .overrun p, q => q = p
  | .exited _, _ => False
  | .crashed, _ => False

/-- How `command_execute` ends: as on entry exactly when no command disturbs it. -/
theorem commandExecute_ends {os : Answers} {p : ShellState} {std : Nat → File}
    (hstd : ∀ fd < 3, p.fds.get fd = some (std fd)) :
    (Undisturbed os 0 p.command.simpleCommands ∧
      ∀ q, (commandExecute os p).MayReturn q → q.fds.Same p.fds) ∨
    (¬Undisturbed os 0 p.command.simpleCommands ∧
      ∃ q, (commandExecute os p).MayReturn q ∧ ¬q.fds.Same p.fds) := by
  cases hcmds : p.command.simpleCommands with
  | nil =>
    refine Or.inl ⟨trivial, fun q hq => ?_⟩
    simp only [commandExecute, hcmds, Outcome.MayReturn] at hq
    exact hq ▸ fun _ => rfl
  | cons sCommand rest =>
    cases hname : argument sCommand 0 with
    | none =>
      refine Or.inl ⟨by rw [Undisturbed, hname]; trivial, fun q hq => ?_⟩
      simp only [commandExecute, hcmds, hname, Outcome.MayReturn] at hq
    | some name =>
      by_cases hexit : name = "exit"
      · refine Or.inl ⟨(undisturbed_cons hname).mpr (Or.inl hexit), fun q hq => ?_⟩
        simp only [commandExecute, hcmds, hname, if_pos hexit, Outcome.MayReturn] at hq
      · obtain ⟨a, b, c, input, p', heq, -, hview, -⟩ :=
          commandExecute_setup os hcmds hname hexit hstd
        have hends := runPipeline_ends os 0 none (mem_saved_out ..) (mem_saved_err ..)
          (fun _ => rfl) (fun hnil => absurd (hcmds.symm.trans hnil) (List.cons_ne_nil _ _)) hview
        rw [heq, ← hcmds]
        generalize runPipeline os (some b) (some c) 0 p.command.simpleCommands
          (input.map Prod.fst) none p' = r at hends ⊢
        cases r with
        | ok result =>
          obtain ⟨ret, q⟩ := result
          obtain ⟨hclean, std', hend⟩ := hends
          refine Or.inl ⟨hclean, fun q' hq' => ?_⟩
          obtain rfl : q' = _ := hq'
          rw [finish_fds]
          exact restore_spec hstd hend
        | error outcome =>
          cases outcome with
          | returned q | overrun q =>
            obtain ⟨hdisturbed, std', more, hend⟩ := hends
            exact Or.inr ⟨hdisturbed, q, rfl,
              hend.not_same (List.mem_append_right more (mem_saved_err ..))⟩
          | exited q => exact Or.inl ⟨hends, fun _ hq => hq.elim⟩
          | crashed => exact Or.inl ⟨hends, fun _ hq => hq.elim⟩

/-- **The descriptors are restored** whenever `command_execute` returns, exactly
when no builtin and no failing fork returns from inside the loop. -/
theorem descriptors_restored_iff {os : Answers} {p : ShellState}
    (hopen : ∀ fd < 3, p.fds.get fd ≠ none) :
    (∀ q, (commandExecute os p).MayReturn q → q.fds.Same p.fds) ↔
      Undisturbed os 0 p.command.simpleCommands := by
  have hstd : ∀ fd < 3, p.fds.get fd = some ((p.fds.get fd).getD (.inherited fd)) := by
    intro fd hfd
    cases hget : p.fds.get fd with
    | none => exact absurd hget (hopen fd hfd)
    | some x => rfl
  rcases commandExecute_ends hstd with ⟨hclean, hsame⟩ | ⟨hnot, q, hq, hdiff⟩
  · exact ⟨fun _ => hclean, fun _ => hsame⟩
  · exact ⟨fun h => absurd (h q hq) hdiff, fun h => absurd h hnot⟩

theorem descriptors_restored_iff_ls :
    (∀ q, (commandExecute allSucceed (newShell [⟨5, ["ls"]⟩])).MayReturn q →
      q.fds.Same (newShell [⟨5, ["ls"]⟩]).fds) ↔ Undisturbed allSucceed 0 [⟨5, ["ls"]⟩] :=
  descriptors_restored_iff (by decide)

/-- After `cd /`, descriptor 3 is a copy of the shell's input. -/
theorem descriptors_leak_cd :
    ∃ q, commandExecute allSucceed (newShell [⟨5, ["cd", "/"]⟩]) = .returned q ∧
      q.fds.get 3 = some (.inherited 0) ∧ ¬q.fds.Same (newShell [⟨5, ["cd", "/"]⟩]).fds :=
  ⟨_, rfl, rfl, fun hsame => absurd (hsame 3) (by decide)⟩

end Cs252.Shell
