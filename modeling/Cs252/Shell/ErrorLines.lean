import Cs252.Shell.Grammar
import Cs252.Shell.Pipeline

/-!
# Cs252.Shell.ErrorLines

What a malformed line leaves behind.

The actions fill the command table while the line is read, and only the
execution of the line and an empty line clear it. The rule `error NEWLINE`
leaves the table as it is at the error. It is empty then exactly when the line
does not start with a word (`runLine_malformed`, `runLine_malformed_word`). The
other way out that skips `command_clear` is the return after a failing fork.
-/

namespace Cs252.Shell

/-! ### The table after `command_execute` -/

/-- A round that returns from the function returns from its end. -/
theorem runCommand_returned {os : Answers} {tmpout tmperr fdin : Option Nat} {i : Nat}
    {isLast : Bool} {sCommand : SimpleCommand} {p q : ShellState}
    (h : runCommand os tmpout tmperr i isLast sCommand fdin p = .error (.returned q)) :
    ∃ name p', dispatch os i name sCommand p' = .error (.returned q) := by
  have hmap {r : Except Outcome (Nat × ShellState)} {fdin : Option Nat}
      (hr : r.map (fun r => (fdin, r)) = .error (.returned q)) : r = .error (.returned q) := by
    cases r with
    | error outcome => exact congrArg Except.error (Except.error.inj hr)
    | ok r => cases hr
  rw [runCommand] at h
  cases hname : argument sCommand 0 with
  | none =>
    rw [hname] at h
    cases h
  | some name =>
    simp only [hname] at h
    split at h
    · cases h
    split at h
    · exact ⟨name, _, hmap h⟩
    split at h
    · exact ⟨name, _, hmap h⟩
    · cases h

theorem runPipeline_returned {os : Answers} {tmpout tmperr fdin ret : Option Nat} {i : Nat}
    {cmds : List SimpleCommand} {p q : ShellState} (hfork : ∀ i, os.fork i ≠ none)
    (h : runPipeline os tmpout tmperr i cmds fdin ret p = .error (.returned q)) :
    q.command.Fresh := by
  induction cmds generalizing i fdin ret p with
  | nil => cases h
  | cons sCommand rest ih =>
    rw [runPipeline] at h
    cases hround : runCommand os tmpout tmperr i rest.isEmpty sCommand fdin p with
    | ok r =>
      rw [hround] at h
      exact ih h
    | error outcome =>
      rw [hround] at h
      obtain rfl := Except.error.inj h
      obtain ⟨name, p', hdispatch⟩ := runCommand_returned hround
      have hcases := dispatch_spec os i name sCommand p'
      rw [hdispatch] at hcases
      cases hcases with
      | builtin _ _ _ hfresh => exact hfresh
      | forkFailed _ hfail => exact absurd hfail (hfork i)

theorem finish_fresh (ret : Option Nat) (p : ShellState) : (finish ret p).command.Fresh :=
  commandClear_fresh _

theorem afterLoop_fresh {tmpin tmpout tmperr : Option Nat} {q : ShellState}
    {r : Except Outcome (Option Nat × ShellState)}
    (hr : ∀ p, r = .error (.returned p) → p.command.Fresh)
    (h : afterLoop tmpin tmpout tmperr r = .returned q) : q.command.Fresh := by
  cases r with
  | error outcome => exact hr q (congrArg Except.error h)
  | ok r =>
    obtain rfl := Outcome.returned.inj h
    exact finish_fresh _ _

/-- With no failing fork, a table that is executed is cleared. -/
theorem commandExecute_fresh {os : Answers} {p q : ShellState} (hfork : ∀ i, os.fork i ≠ none)
    (hne : p.command.simpleCommands ≠ []) (h : commandExecute os p = .returned q) :
    q.command.Fresh := by
  obtain ⟨sCommand, rest, hcmds⟩ := List.exists_cons_of_ne_nil hne
  simp only [commandExecute, hcmds] at h
  cases hname : argument sCommand 0 with
  | none =>
    rw [hname] at h
    cases h
  | some name =>
    simp only [hname] at h
    split at h
    · cases h
    · exact afterLoop_fresh (fun _ hr => runPipeline_returned hfork hr) h

/-! ### The table after a line -/

section Line

variable {σ : Type} {expand : Expander σ} {s s' : Parser σ} {st st' : LineState}
  {tokens : List Token} {os : Answers}

/-- From the first word of a line on, there is a simple command in the table,
unless the arguments of the first one are still being read. -/
def Loaded (st : LineState) (s : Parser σ) : Prop :=
  match st with
  | .lineStart => False
  | .arguments => True
  | _ => s.shell.command.simpleCommands ≠ []

theorem commandAndArgs_loaded (s : Parser σ) :
    (commandAndArgs s).shell.command.simpleCommands ≠ [] := by
  simp [commandAndArgs, Parser.modifyCommand, commandInsertSimpleCommand]

theorem iomodifierOpt_simpleCommands (op : IoModifier) (file : String) (command : Command) :
    (iomodifierOpt op file command).simpleCommands = command.simpleCommands := by
  cases op <;> rfl

theorem action_loaded {t : Token} (hs : Loaded st s) (h : action expand st t s = .ok s') :
    Loaded (st.next t) s' := by
  cases st with
  | lineStart => cases hs
  | arguments =>
    cases t with
    | word text => trivial
    | _ =>
      obtain rfl := Except.ok.inj h
      exact commandAndArgs_loaded s
  | pipe =>
    cases t with
    | word text => trivial
    | _ =>
      obtain rfl := Except.ok.inj h
      exact hs
  | modifiers =>
    cases t <;> obtain rfl := Except.ok.inj h <;> exact hs
  | operator op =>
    cases t with
    | word text =>
      obtain rfl := Except.ok.inj h
      show (iomodifierOpt op text s.shell.command).simpleCommands ≠ []
      rw [iomodifierOpt_simpleCommands]
      exact hs
    | _ =>
      obtain rfl := Except.ok.inj h
      exact hs
  | background =>
    cases t <;> obtain rfl := Except.ok.inj h <;> exact hs
  | error =>
    cases t <;> obtain rfl := Except.ok.inj h <;> exact hs

theorem feed_loaded (hs : Loaded st s) (h : feed expand st tokens s = .ok (st', s')) :
    st' = tokens.foldl LineState.next st ∧ Loaded st' s' := by
  induction tokens generalizing st s with
  | nil =>
    obtain ⟨rfl, rfl⟩ := Prod.mk.inj (Except.ok.inj h)
    exact ⟨rfl, hs⟩
  | cons t tokens ih =>
    rw [feed] at h
    cases haction : action expand st t s with
    | error s₁ =>
      rw [haction] at h
      cases h
    | ok s₁ =>
      rw [haction] at h
      exact ih (action_loaded hs haction) h

theorem executeLine_fresh (hfork : ∀ i, os.fork i ≠ none)
    (hne : s.shell.command.simpleCommands ≠ []) (h : executeLine os s = .ok s') :
    s'.shell.command.Fresh := by
  unfold executeLine at h
  cases hrun : commandExecute os s.shell with
  | returned q =>
    simp only [hrun] at h
    obtain rfl := Except.ok.inj h
    exact commandExecute_fresh hfork hne hrun
  | exited q =>
    simp only [hrun] at h
    cases h
  | crashed =>
    simp only [hrun] at h
    cases h
  | overrun q =>
    simp only [hrun] at h
    cases h

theorem foldl_error (tokens : List Token) : tokens.foldl LineState.next .error = .error := by
  induction tokens with
  | nil => rfl
  | cons t tokens ih => cases t <;> exact ih

/-- A line that starts with a word, up to its end. -/
theorem runLine_word {line : Line} {text : String} {rest : List Token}
    (htokens : line.tokens = .word text :: rest) (h : runLine expand line s = .ok s') :
    ∃ st s₁, st.accepting = accepts line.tokens ∧ Loaded st s₁ ∧
      endLine line.answers st s₁ = .ok s' := by
  rw [runLine, htokens, feed] at h
  simp only [action] at h
  cases hfeed : feed expand (LineState.lineStart.next (.word text)) rest (commandWord text s) with
  | error s₁ =>
    rw [hfeed] at h
    cases h
  | ok r =>
    obtain ⟨st, s₁⟩ := r
    rw [hfeed] at h
    obtain ⟨hst, hloaded⟩ :=
      feed_loaded (show Loaded (LineState.lineStart.next (.word text)) _ from trivial) hfeed
    refine ⟨st, s₁, ?_, hloaded, h⟩
    rw [hst, htokens]
    rfl

/-- A line of the grammar, on which no fork fails, leaves the table empty. -/
theorem runLine_wellFormed {line : Line} (hline : WellFormedLine line.tokens)
    (hfork : ∀ i, line.answers.fork i ≠ none) (h : runLine expand line s = .ok s') :
    s'.shell.command.Fresh := by
  have haccepts := accepts_iff.mpr hline
  cases htokens : line.tokens with
  | nil =>
    rw [runLine, htokens] at h
    obtain rfl := Except.ok.inj h
    exact commandClear_fresh _
  | cons t rest =>
    cases t with
    | word text =>
      obtain ⟨st, s₁, hst, hloaded, hend⟩ := runLine_word htokens h
      rw [haccepts] at hst
      cases st with
      | lineStart => cases hloaded
      | arguments => exact executeLine_fresh hfork (commandAndArgs_loaded s₁) hend
      | modifiers => exact executeLine_fresh hfork hloaded hend
      | background => exact executeLine_fresh hfork hloaded hend
      | _ => cases hst
    | _ =>
      rw [htokens, accepts, List.foldl_cons] at haccepts
      simp [LineState.next, foldl_error, LineState.accepting] at haccepts

/-- A malformed line that starts with a word leaves a simple command in the table. -/
theorem runLine_malformed_word {line : Line} {text : String} {rest : List Token}
    (hline : ¬WellFormedLine line.tokens) (htokens : line.tokens = .word text :: rest)
    (h : runLine expand line s = .ok s') : s'.shell.command.simpleCommands ≠ [] := by
  obtain ⟨st, s₁, hst, hloaded, hend⟩ := runLine_word htokens h
  have hrejects : st.accepting = false := by
    rw [hst]
    exact Bool.eq_false_iff.mpr fun haccepts => hline (accepts_iff.mp haccepts)
  cases st with
  | lineStart => cases hloaded
  | pipe => exact Except.ok.inj hend ▸ hloaded
  | operator op => exact Except.ok.inj hend ▸ hloaded
  | error => exact Except.ok.inj hend ▸ hloaded
  | _ => cases hrejects

theorem feed_error (expand : Expander σ) (tokens : List Token) (s : Parser σ) :
    feed expand .error tokens s = .ok (.error, s) := by
  induction tokens with
  | nil => rfl
  | cons t tokens ih => cases t <;> exact ih

/-- A malformed line that does not start with a word changes nothing. -/
theorem runLine_malformed (expand : Expander σ) {line : Line} (hline : ¬WellFormedLine line.tokens)
    (hfirst : ∀ text rest, line.tokens ≠ .word text :: rest) (s : Parser σ) :
    runLine expand line s = .ok s := by
  rw [runLine]
  cases htokens : line.tokens with
  | nil => exact absurd (htokens ▸ WellFormedLine.newline) hline
  | cons t rest =>
    cases t with
    | word text => exact absurd htokens (hfirst text rest)
    | _ =>
      rw [feed]
      simp only [action, LineState.next, feed_error]
      rfl

end Line

/-! ### The table before every line -/

/-- The line reaches neither way out that leaves the table as it is: if it is
malformed, it does not start with a word, and if it is executed, no fork fails. -/
structure Harmless (line : Line) : Prop where
  malformed : ¬WellFormedLine line.tokens → ∀ text rest, line.tokens ≠ .word text :: rest
  forks : WellFormedLine line.tokens → ∀ i, line.answers.fork i ≠ none

theorem runLine_fresh {σ : Type} {expand : Expander σ} {line : Line} {s s' : Parser σ}
    (hline : Harmless line) (hs : s.shell.command.Fresh) (h : runLine expand line s = .ok s') :
    s'.shell.command.Fresh := by
  by_cases hwell : WellFormedLine line.tokens
  · exact runLine_wellFormed hwell (hline.forks hwell) h
  · rw [runLine_malformed expand hwell (hline.malformed hwell)] at h
    exact Except.ok.inj h ▸ hs

/-- When no fork fails, the first token of a malformed line decides. -/
theorem runLine_fresh_iff {σ : Type} {expand : Expander σ} {line : Line} {s s' : Parser σ}
    (hfork : ∀ i, line.answers.fork i ≠ none) (hs : s.shell.command.Fresh)
    (h : runLine expand line s = .ok s') :
    s'.shell.command.Fresh ↔
      (¬WellFormedLine line.tokens → ∀ text rest, line.tokens ≠ .word text :: rest) := by
  constructor
  · intro hfresh hwell text rest htokens
    refine runLine_malformed_word hwell htokens h ?_
    rw [hfresh]
    rfl
  · exact fun hfirst => runLine_fresh ⟨hfirst, fun _ => hfork⟩ hs h

theorem run_fresh {σ : Type} {expand : Expander σ} {lines : List Line} {s s' : Parser σ}
    (hlines : ∀ line ∈ lines, Harmless line) (hs : s.shell.command.Fresh)
    (h : run expand lines s = .ok s') : s'.shell.command.Fresh := by
  induction lines generalizing s with
  | nil => exact Except.ok.inj h ▸ hs
  | cons line lines ih =>
    rw [run] at h
    cases hline : runLine expand line s with
    | error s₁ =>
      rw [hline] at h
      cases h
    | ok s₁ =>
      rw [hline] at h
      refine ih (fun l hl => hlines l (List.mem_cons_of_mem _ hl)) ?_ h
      exact runLine_fresh (hlines line List.mem_cons_self) hs hline

/-- Deleting the malformed lines changes nothing. -/
theorem run_filter {σ : Type} {expand : Expander σ} {lines : List Line}
    (hlines : ∀ line ∈ lines, Harmless line) (s : Parser σ) :
    run expand lines s = run expand (lines.filter fun line => WellFormedLine line.tokens) s := by
  induction lines generalizing s with
  | nil => rfl
  | cons line lines ih =>
    have hrest := ih fun l hl => hlines l (List.mem_cons_of_mem _ hl)
    by_cases hwell : WellFormedLine line.tokens
    · rw [List.filter_cons_of_pos (by simpa using hwell), run, run]
      cases runLine expand line s with
      | error s₁ => rfl
      | ok s₁ => exact hrest s₁
    · have hline := runLine_malformed expand hwell
        ((hlines line List.mem_cons_self).malformed hwell) s
      rw [List.filter_cons_of_neg (by simpa using hwell), run, hline]
      exact hrest s

/-- **Malformed lines are without effect** in every input whose lines are
harmless: every line begins with an empty table, and all that is executed is the
same as with the malformed lines deleted. -/
theorem malformed_lines_harmless {σ : Type} {expand : Expander σ} {lines : List Line} {s : Parser σ}
    (hs : s.shell.command.Fresh) (hlines : ∀ line ∈ lines, Harmless line) :
    (∀ before after s', lines = before ++ after → run expand before s = .ok s' →
      s'.shell.command.Fresh) ∧
    run expand lines s = run expand (lines.filter fun line => WellFormedLine line.tokens) s := by
  refine ⟨fun before after s' hsplit hrun => ?_, run_filter hlines s⟩
  refine run_fresh (fun line hline => hlines line ?_) hs hrun
  rw [hsplit]
  exact List.mem_append_left after hline

/-! ### Two inputs -/

/-- An expansion that leaves every word as it is. -/
def noExpansion : Expander Unit := fun _ _ word => some ([word], ())

/-- A shell that has read nothing. -/
def newParser : Parser Unit := ⟨newShell [], simpleCommandCreate, (), []⟩

/-- The lines `| x` and `ls`. -/
def harmlessLines : List Line :=
  [⟨[.pipe, .word "x"], allSucceed⟩, ⟨[.word "ls"], allSucceed⟩]

/-- The lines `ls >` and `pwd`. -/
def leakingLines : List Line :=
  [⟨[.word "ls", .io .great], allSucceed⟩, ⟨[.word "pwd"], allSucceed⟩]

theorem malformed_lines_harmless_pipe :
    (∀ before after s', harmlessLines = before ++ after → run noExpansion before newParser = .ok s' →
      s'.shell.command.Fresh) ∧
    run noExpansion harmlessLines newParser =
      run noExpansion (harmlessLines.filter fun line => WellFormedLine line.tokens) newParser := by
  refine malformed_lines_harmless (show newParser.shell.command.Fresh from rfl) fun line hline => ?_
  rcases List.mem_cons.mp hline with rfl | hline
  · exact ⟨fun _ text rest heq => by simp at heq, fun _ i => Option.some_ne_none _⟩
  · obtain rfl := List.mem_singleton.mp hline
    exact ⟨fun hnot => absurd (by decide) hnot, fun _ i => Option.some_ne_none _⟩

/-- The commands executed by each line of a run. -/
def executedCommands (s : Parser Unit) : List (List (List String)) :=
  s.executed.map fun command => command.simpleCommands.map SimpleCommand.arguments

/-- After `ls >`, the line `pwd` executes the pipeline `ls | pwd`. -/
theorem malformed_line_leaks :
    ∃ s₁ s₂ s₃, run noExpansion (leakingLines.take 1) newParser = .ok s₁ ∧
      ¬s₁.shell.command.Fresh ∧
      run noExpansion leakingLines newParser = .ok s₂ ∧
      executedCommands s₂ = [[["ls"], ["pwd"]]] ∧
      run noExpansion (leakingLines.filter fun line => WellFormedLine line.tokens) newParser
        = .ok s₃ ∧
      executedCommands s₃ = [[["pwd"]]] :=
  ⟨_, _, _, rfl, by decide, rfl, rfl, rfl, rfl⟩

end Cs252.Shell
