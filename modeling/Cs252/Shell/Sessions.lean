import Cs252.Shell.Script
import Cs252.Shell.Substitution

/-!
# Cs252.Shell.Sessions

Sessions: lines that change the environment, and lines that read it.

A session is a program of its own, with a meaning that does not mention the
shell. Its state is the environment; `setenv` and `unsetenv` assign to it, `cd`
reads `HOME`, and every word of a line stands for its text with the values that
the variables have by then (`SessionLine.env`, `SessionLine.events`,
`SessionLine.commands`). The shell runs such programs as they mean, from the text
of the lines on (`session_runs`), if every variable is set where it is mentioned
and every word fits its array, in the expansion and in the message of a `cd`.

The shell pays for each of its builtins with three descriptors: `command_execute`
saves the standard ones, and a builtin returns without closing them.
-/

namespace Cs252.Shell

/-! ### Sessions and their meaning -/

/-- The environment: `getenv`. -/
abbrev Env : Type := String → Option String

/-- A simple command, with its words by their parts. -/
structure CommandParts where
  command : String
  arguments : List (List WordPart)

/-- A pipeline, with its words by their parts. -/
structure PipelineParts where
  first : CommandParts
  rest : List CommandParts
  modifiers : List (IoModifier × String)
  background : Bool

/-- A line of a session. -/
inductive SessionLine
  | empty
  | cd (dir : Option (List WordPart))
  | setenv (var value : List WordPart)
  | unsetenv (var : List WordPart)
  | pipeline (line : PipelineParts)

/-- The line, when each word is the text that is given for its parts. -/
def PipelineParts.under (text : List WordPart → String) (line : PipelineParts) : PipelineLine where
  first := ⟨line.first.command, line.first.arguments.map text⟩
  rest := line.rest.map fun c => ⟨c.command, c.arguments.map text⟩
  modifiers := line.modifiers
  background := line.background

/-- The word as it is written. -/
def spelled (parts : List WordPart) : String := .ofList (wordText parts)

/-- A shell with some environment. -/
def shellWith (env : Env) : ShellState := { newShell [] with env := env }

/-- The word with the values of its variables. -/
def valueIn (env : Env) (parts : List WordPart) : String :=
  .ofList (substituted (shellWith env) parts)

/-- Change the value of a variable; there are names that cannot be assigned to. -/
def assign (var : String) (value : Option String) (env : Env) : Env :=
  if validName var then fun name => if name = var then value else env name else env

namespace SessionLine

/-- The line as a pipeline, with its words. -/
def parts : SessionLine → Option PipelineParts
  | empty => none
  | cd dir => some ⟨⟨"cd", dir.toList⟩, [], [], false⟩
  | setenv var value => some ⟨⟨"setenv", [var, value]⟩, [], [], false⟩
  | unsetenv var => some ⟨⟨"unsetenv", [var]⟩, [], [], false⟩
  | pipeline line => some line

/-- The tokens of the line. -/
def tokens (line : SessionLine) : List Token :=
  lineTokens (line.parts.map (PipelineParts.under spelled))

/-- The environment after the line. -/
def env : SessionLine → Env → Env
  | setenv var value, e => assign (valueIn e var) (some (valueIn e value)) e
  | unsetenv var, e => assign (valueIn e var) none e
  | _, e => e

/-- The message of a `cd` that fails. -/
def message (e : Env) (dir : Option (List WordPart)) : String :=
  "cd: " ++ (dir.map (valueIn e)).getD "(null)"

/-- What the shell is seen to do. `unsetenv` reports an error when it succeeds. -/
def events (os : Answers) (e : Env) : SessionLine → List Event
  | empty => [.prompt]
  | cd dir =>
    .chdir ((dir.map (valueIn e)).or (e "HOME")) ::
      if os.chdir then [.prompt] else [.perror (message e dir), .prompt]
  | setenv _ _ => [.prompt]
  | unsetenv var =>
    if validName (valueIn e var) then [.perror "unsetenv", .prompt] else [.prompt]
  | pipeline line => (line.under (valueIn e)).events os

/-- The external commands that are run. -/
def commands (e : Env) : SessionLine → Option PipelineLine
  | pipeline line => some (line.under (valueIn e))
  | _ => none

/-- The line is a builtin. -/
def isBuiltin : SessionLine → Bool
  | cd _ | setenv _ _ | unsetenv _ => true
  | empty | pipeline _ => false

end SessionLine

/-- The environment after some lines. -/
def envAfter (e : Env) (lines : List SessionLine) : Env := lines.foldl (fun e line => line.env e) e

/-- The events of some lines. -/
def eventsOf (answers : Nat → Answers) (e : Env) : List SessionLine → List Event
  | [] => []
  | line :: lines =>
    line.events (answers 0) e ++ eventsOf (fun k => answers (k + 1)) (line.env e) lines

/-- The external commands of some lines. -/
def commandsOf (e : Env) : List SessionLine → List (Option PipelineLine)
  | [] => []
  | line :: lines => line.commands e :: commandsOf (line.env e) lines

/-! ### What a session may contain -/

/-- A word that is expanded to one argument: no pattern and no home directory, and
only references that can be replaced in the array on the stack. -/
structure WordReady (e : Env) (word : List WordPart) : Prop where
  parts : ∀ part ∈ word, part.Ok
  noWildcard : hasWildcard (wordText word) = false
  noTilde : (wordText word).head? ≠ some '~'
  fits : (∀ part ∈ word, part.isReference = false) ∨
    (∀ part ∈ word, part.value (shellWith e) ≠ none) ∧
      (substituted (shellWith e) word).length < 1024

/-- A line whose words can be expanded, of external commands or a builtin. The message
of a `cd` fits `err_msg`. -/
structure SessionLine.Ready (e : Env) (line : SessionLine) : Prop where
  words : ∀ parts, line.parts = some parts → ∀ c ∈ parts.first :: parts.rest,
    ∀ word ∈ c.arguments, WordReady e word
  external : ∀ parts, line = .pipeline parts → ∀ c ∈ parts.first :: parts.rest,
    c.command ≠ "exit" ∧ ¬Builtin c.command
  fits : ∀ dir, line = .cd dir → (SessionLine.message e dir).length < errMsgSize

/-- Every line can be run when its turn comes. -/
def SessionReady : Env → List SessionLine → Prop
  | _, [] => True
  | e, line :: lines => line.Ready e ∧ SessionReady (line.env e) lines

/-! ### Words -/

section Words

variable {process : Process} {stack : Stack} {e : Env} {word : List WordPart}

theorem substituted_congr {p q : ShellState} (h : p.env = q.env) (word : List WordPart) :
    substituted p word = substituted q word := by
  refine List.flatMap_congr fun part _ => ?_
  cases part with
  | literal text => rfl
  | reference name => rw [WordPart.value, WordPart.value, getenv, getenv, h]

/-- There is a `$` only in front of a name. -/
theorem dollar_notMem_wordText (hok : ∀ part ∈ word, part.Ok)
    (hnone : ∀ part ∈ word, part.isReference = false) : '$' ∉ wordText word := by
  intro hmem
  obtain ⟨part, hpart, hmem⟩ := List.mem_flatMap.mp hmem
  cases part with
  | literal text => exact (hok _ hpart '$' hmem).1 rfl
  | reference name => cases hnone _ hpart

theorem dollar_mem_wordText (h : ¬∀ part ∈ word, part.isReference = false) :
    '$' ∈ wordText word := by
  push Not at h
  obtain ⟨part, hpart, href⟩ := h
  refine List.mem_flatMap.mpr ⟨part, hpart, ?_⟩
  cases part with
  | literal text => exact absurd rfl href
  | reference name => exact List.mem_cons_self

theorem environmentExpansion_ready {p : ShellState} (h : WordReady e word) (hp : p.env = e)
    (hsome : ¬∀ part ∈ word, part.isReference = false) :
    environmentExpansion process p (wordText word) = some (substituted p word) := by
  obtain ⟨hset, hfits⟩ := h.fits.resolve_left hsome
  have hshell : p.env = (shellWith e).env := hp
  have hany : word.any WordPart.isReference = true := by
    push Not at hsome
    obtain ⟨part, hpart, href⟩ := hsome
    exact List.any_eq_true.mpr ⟨part, hpart, by simpa using href⟩
  have hset' : ∀ part ∈ word, part.value p ≠ none := by
    intro part hpart
    have := hset part hpart
    cases part with
    | literal text => exact Option.some_ne_none _
    | reference name => rwa [WordPart.value, getenv, ← hshell] at this
  rw [environmentExpansion_wordText h.parts, if_pos hany,
    expanded_eq_some_iff.mpr ⟨hset', rfl⟩, Option.bind_some, printTo, if_pos]
  rwa [substituted_congr hshell]

/-- A word is expanded to its value. -/
theorem insertedArguments_ready {p : ShellState} (h : WordReady e word) (hp : p.env = e)
    (st : DirArray) :
    insertedArguments process stack st p (spelled word) = some ([valueIn e word], st) := by
  have hvalue : substituted p word = substituted (shellWith e) word := substituted_congr hp word
  rw [insertedArguments, spelled, String.toList_ofList, if_neg (by simp [h.noWildcard]),
    expandPlain, if_neg h.noTilde, valueIn, ← hvalue]
  by_cases hnone : ∀ part ∈ word, part.isReference = false
  · rw [if_neg (by simpa using dollar_notMem_wordText h.parts hnone), wordText_of_literals hnone]
    rfl
  · rw [if_pos (by simpa using dollar_mem_wordText hnone), environmentExpansion_ready h hp hnone]
    rfl

end Words

/-! ### Lines with the values in their words -/

/-- Keep every word as it is. -/
def keep {σ : Type} : Expander σ := fun st _ word => some ([word], st)

/-- From a state on, the same tokens but for arguments, each of them with the word
it is expanded to. -/
inductive Rewrites {σ : Type} (expand : Expander σ) (statics : σ) (e : Env) :
    LineState → List Token → List Token → Prop
  | nil {st : LineState} : Rewrites expand statics e st [] []
  | argument {word value : String} {ts ts' : List Token} :
      (∀ p : ShellState, p.env = e → expand statics p word = some ([value], statics)) →
      Rewrites expand statics e .arguments ts ts' →
      Rewrites expand statics e .arguments (.word word :: ts) (.word value :: ts')
  | other {st : LineState} {t : Token} {ts ts' : List Token} :
      (∀ word, t = .word word → st ≠ .arguments) → Rewrites expand statics e (st.next t) ts ts' →
      Rewrites expand statics e st (t :: ts) (t :: ts')

section Rewriting

variable {σ : Type} {expand : Expander σ} {st : LineState} {ts ts' : List Token}

/-- The other tokens do not ask for an expansion. -/
theorem action_keep {t : Token} (h : ∀ word, t = .word word → st ≠ .arguments) (s : Parser σ) :
    ∃ s', action expand st t s = .ok s' ∧ action keep st t s = .ok s' ∧ s'.statics = s.statics ∧
      s'.shell.env = s.shell.env := by
  cases t with
  | word text => cases st <;> first | exact ⟨_, rfl, rfl, rfl, rfl⟩ | exact absurd rfl (h _ rfl)
  | io op => cases st <;> exact ⟨_, rfl, rfl, rfl, rfl⟩
  | pipe => cases st <;> exact ⟨_, rfl, rfl, rfl, rfl⟩
  | ampersand => cases st <;> exact ⟨_, rfl, rfl, rfl, rfl⟩

theorem feed_rewrites {statics : σ} {e : Env} (h : Rewrites expand statics e st ts ts')
    {s : Parser σ} (hs : s.statics = statics) (he : s.shell.env = e) :
    feed expand st ts s = feed keep st ts' s := by
  induction h generalizing s with
  | nil => rfl
  | @argument word value ts ts' hword _ ih =>
    have hinsert : insertArguments expand word s = insertArguments keep value s := by
      rw [insertArguments, insertArguments, hs, hword s.shell he, ← hs]
      rfl
    rw [feed, feed, action, action, hinsert]
    exact @ih { s with current := simpleCommandInsertArgument s.current value } hs he
  | other hother _ ih =>
    obtain ⟨s', haction, hkeep, hstatics, henv⟩ := @action_keep σ expand _ _ hother s
    rw [feed, feed, haction, hkeep]
    exact ih (hstatics.trans hs) (henv.trans he)

end Rewriting

section Tokens

variable {process : Process} {stack : Stack} {st : DirArray} {e : Env} {ts ts' : List Token}

theorem rewrites_arguments {words : List (List WordPart)} (h : ∀ word ∈ words, WordReady e word)
    (hrest : Rewrites (insertedArguments process stack) st e .arguments ts ts') :
    Rewrites (insertedArguments process stack) st e .arguments
      ((words.map spelled).map .word ++ ts) ((words.map (valueIn e)).map .word ++ ts') := by
  induction words with
  | nil => exact hrest
  | cons word words ih =>
    obtain ⟨hword, hwords⟩ := List.forall_mem_cons.mp h
    exact .argument (fun p hp => insertedArguments_ready hword hp st) (ih hwords)

theorem rewrites_rest {rest : List CommandParts}
    (h : ∀ c ∈ rest, ∀ word ∈ c.arguments, WordReady e word)
    (hrest : Rewrites (insertedArguments process stack) st e .arguments ts ts') :
    Rewrites (insertedArguments process stack) st e .arguments
      (((rest.map fun c => ⟨c.command, c.arguments.map spelled⟩).flatMap
        fun c : CommandWords => .pipe :: c.tokens) ++ ts)
      (((rest.map fun c => ⟨c.command, c.arguments.map (valueIn e)⟩).flatMap
        fun c : CommandWords => .pipe :: c.tokens) ++ ts') := by
  induction rest with
  | nil => exact hrest
  | cons c rest ih =>
    obtain ⟨hc, hcs⟩ := List.forall_mem_cons.mp h
    rw [List.map_cons, List.map_cons, List.flatMap_cons, List.flatMap_cons, List.append_assoc,
      List.append_assoc]
    exact .other (by simp) (.other (fun _ _ h => by cases h) (rewrites_arguments hc (ih hcs)))

/-- The words of the modifiers are not expanded. -/
theorem rewrites_modifiers {st' : LineState} (modifiers : List (IoModifier × String))
    (background : Bool) (hst : st' = .arguments ∨ st' = .modifiers) :
    Rewrites (insertedArguments process stack) st e st'
      (modifierTokens modifiers ++ backgroundTokens background)
      (modifierTokens modifiers ++ backgroundTokens background) := by
  induction modifiers generalizing st' with
  | nil =>
    cases background with
    | false => exact .nil
    | true => exact .other (by simp) .nil
  | cons m modifiers ih =>
    have hop : st'.next (.io m.1) = .operator m.1 := by
      rcases hst with rfl | rfl <;> rfl
    refine .other (by simp) ?_
    rw [hop]
    exact .other (by simp) (ih (.inr rfl))

/-- A line as it is written and the line with the values are read alike. -/
theorem rewrites_line {line : PipelineParts}
    (h : ∀ c ∈ line.first :: line.rest, ∀ word ∈ c.arguments, WordReady e word) :
    Rewrites (insertedArguments process stack) st e .lineStart (line.under spelled).tokens
      (line.under (valueIn e)).tokens := by
  obtain ⟨hfirst, hrest⟩ := List.forall_mem_cons.mp h
  rw [PipelineLine.tokens, PipelineLine.tokens, PipelineLine.pipeTokens, PipelineLine.pipeTokens,
    List.append_assoc, List.append_assoc, List.append_assoc, List.append_assoc]
  exact .other (by simp) (rewrites_arguments hfirst
    (rewrites_rest hrest (rewrites_modifiers _ _ (.inl rfl))))

end Tokens

/-! ### Builtins -/

section Builtins

variable {os : Answers} {p : ShellState} {n : Nat}

theorem dup_below {t : Descriptors File} {fd : Nat} {x : File} (h : t.Below n)
    (hget : t.get fd = some x) : t.dup (some fd) = (some n, t.put n x) := by
  rw [Descriptors.dup, Option.bind_some, hget, Descriptors.openNew, h.free_eq]

/-- The standard descriptors are saved in the next three. -/
theorem save_standard {t : Descriptors File} (h : t.Below n) (hn : 3 ≤ n) :
    ∃ t₁ t₂ t₃, t.dup (some 0) = (some n, t₁) ∧ t₁.dup (some 1) = (some (n + 1), t₂) ∧
      t₂.dup (some 2) = (some (n + 2), t₃) ∧ t₃.Below (n + 3) ∧
      (∀ fd < n, t₃.get fd = t.get fd) ∧ ∀ fd < 3, t₃.get (n + fd) = t.get fd := by
  have hopen (fd : Nat) (hfd : fd < 3) : ∃ x, t.get fd = some x :=
    Option.isSome_iff_exists.mp ((h fd).mpr (Nat.lt_of_lt_of_le hfd hn))
  obtain ⟨x₀, hx₀⟩ := hopen 0 (by decide)
  obtain ⟨x₁, hx₁⟩ := hopen 1 (by decide)
  obtain ⟨x₂, hx₂⟩ := hopen 2 (by decide)
  have hget₁ : (t.put n x₀).get 1 = some x₁ := by
    rw [Descriptors.get_put_of_ne (by omega), hx₁]
  have hget₂ : ((t.put n x₀).put (n + 1) x₁).get 2 = some x₂ := by
    rw [Descriptors.get_put_of_ne (by omega), Descriptors.get_put_of_ne (by omega), hx₂]
  refine ⟨_, _, _, dup_below h hx₀, dup_below (h.put x₀) hget₁,
    dup_below ((h.put x₀).put x₁) hget₂, ((h.put x₀).put x₁).put x₂, fun fd hfd => ?_,
    fun fd hfd => ?_⟩
  · rw [Descriptors.get_put_of_ne (by omega), Descriptors.get_put_of_ne (by omega),
      Descriptors.get_put_of_ne (by omega)]
  · have hcases : fd = 0 ∨ fd = 1 ∨ fd = 2 := by omega
    rcases hcases with rfl | rfl | rfl <;> simp [Descriptors.get_put, hx₀, hx₁, hx₂]

/-- A standard descriptor that is restored from its copy: the table is as it was. -/
theorem restore_standard {t : Descriptors File} {saved fd : Nat} (h : t.Below n) (hfd : fd < n)
    (hsaved : t.get saved = t.get fd) :
    ∃ t', t.dup (some saved) = (some n, t') ∧ ((t'.dup2 (some n) fd).close (some n)).Same t := by
  obtain ⟨x, hx⟩ := Option.isSome_iff_exists.mp ((h fd).mpr hfd)
  refine ⟨_, dup_below h (hsaved.trans hx), fun fd' => ?_⟩
  rw [Descriptors.dup2_of_get Descriptors.get_put_self, Descriptors.get_close,
    Descriptors.get_put, Descriptors.get_put]
  split
  · next heq => rw [heq, h.get_eq_none]
  · split
    · next heq => rw [heq, hx]
    · rfl

/-- A table with a builtin and nothing else. -/
structure Command.Single (command : Command) (sCommand : SimpleCommand) : Prop where
  simpleCommands : command.simpleCommands = [sCommand]
  outFile : command.outFile = none
  inFile : command.inFile = none
  errFile : command.errFile = none
  outfileCounter : command.outfileCounter = 0

/-- A builtin is dispatched with the descriptors of the shell and three copies of the
standard ones, which stay open. -/
theorem commandExecute_builtin {sCommand : SimpleCommand} {name : String}
    (hsingle : p.command.Single sCommand) (hname : argument sCommand 0 = some name)
    (hexit : name ≠ "exit") (hbelow : p.fds.Below n) (hn : 3 ≤ n) (os : Answers) :
    ∃ fds : Descriptors File, fds.Below (n + 3) ∧ (∀ fd < n, fds.get fd = p.fds.get fd) ∧
      ∀ outcome, dispatch os 0 name sCommand { p with fds := fds } = .error outcome →
        commandExecute os p = outcome := by
  obtain ⟨hcmds, hout, hin, herr, hcount⟩ := hsingle
  obtain ⟨t₁, t₂, t, hd₀, hd₁, hd₂, ht, hkept, hcopies⟩ := save_standard hbelow hn
  have hsaved {u : Descriptors File} (hu : u.Same t) (fd : Nat) (hfd : fd < 3) :
      u.get (n + fd) = u.get fd := by
    rw [hu, hu, hcopies fd hfd, hkept fd (Nat.lt_of_lt_of_le hfd hn)]
  obtain ⟨u₀, hr₀, hu₀⟩ := restore_standard ht (show 0 < n + 3 by omega)
    (hsaved (.refl t) 0 (by decide))
  obtain ⟨u₁, hr₁, hu₁⟩ := restore_standard (hu₀.below ht) (show 2 < n + 3 by omega)
    (hsaved hu₀ 2 (by decide))
  have hu₁ := hu₁.trans hu₀
  obtain ⟨u₂, hr₂, hu₂⟩ := restore_standard (hu₁.below ht) (show 1 < n + 3 by omega)
    (hsaved hu₁ 1 (by decide))
  have hu₂ := hu₂.trans hu₁
  refine ⟨_, hu₂.below ht, fun fd hfd => (hu₂ fd).trans (hkept fd hfd), fun outcome houtcome => ?_⟩
  rw [Nat.add_zero] at hr₀
  simp only [commandExecute, hcmds, hname, if_neg hexit, warnAmbiguous, hcount, openOrDup, hin,
    hd₀, hd₁, hd₂, hr₀, hr₁, hr₂, runPipeline, runCommand, List.isEmpty_nil, setupLast, herr, hout,
    redirectOutput, if_true, Nat.not_lt_zero, if_false, houtcome]
  rfl

/-- The table of a builtin. -/
theorem table_single {name : String} {args : List String} {command : Command}
    (h : command.Fresh) :
    ∃ sCommand, ((⟨⟨name, args⟩, [], [], false⟩ : PipelineLine).table command).Single sCommand ∧
      sCommand.arguments = name :: args := by
  obtain ⟨hcmds, hout, hin, herr, -, hcount⟩ :=
    (⟨⟨name, args⟩, [], [], false⟩ : PipelineLine).table_denotes h
  obtain ⟨sCommand, hsingle, hargs⟩ := List.map_eq_singleton_iff.mp hcmds
  exact ⟨sCommand, ⟨hsingle, hout, hin, herr, hcount⟩, hargs⟩

end Builtins

/-! ### A line of a session -/

section Lines

variable {σ : Type} {os : Answers} {s : Parser σ} {n : Nat}

/-- The state after a line that leaves the environment `e`. -/
structure Advanced (s s' : Parser σ) (m : Nat) (e : Env) (kids : List Child) (events : List Event)
    (pipes : Nat) : Prop where
  statics : s'.statics = s.statics
  children : s'.shell.children = s.shell.children ++ kids
  below : s'.shell.fds.Below m
  standard : ∀ fd < 3, s'.shell.fds.get fd = s.shell.fds.get fd
  command : s'.shell.command.Fresh
  env : s'.shell.env = e
  pipes : s'.shell.pipes = s.shell.pipes + pipes
  log : s'.shell.log = s.shell.log ++ events

theorem Followed.advanced {s' : Parser σ} {kids : List Child} {events : List Event} {pipes : Nat}
    (h : Followed s s' kids events pipes) (hbelow : s.shell.fds.Below n) :
    Advanced s s' n s.shell.env kids events pipes :=
  ⟨h.statics, h.children, h.fds.below hbelow, fun fd _ => h.fds fd, h.command, h.env, h.pipes,
    h.log⟩

/-- The shell after a builtin. -/
structure BuiltinDone (p q : ShellState) (e : Env) (events : List Event) : Prop where
  fds : q.fds = p.fds
  children : q.children = p.children
  pipes : q.pipes = p.pipes
  env : q.env = e
  command : q.command.Fresh
  log : q.log = p.log ++ events

section Dispatch

variable {sCommand : SimpleCommand} {p : ShellState} {e : Env}

theorem dispatch_cd {dir : Option String} (hargs : sCommand.arguments = "cd" :: dir.toList)
    (hfits : ("cd: " ++ dir.getD "(null)").length < errMsgSize) (he : p.env = e) (os : Answers) :
    ∃ q, dispatch os 0 "cd" sCommand p = .error (.returned q) ∧
      BuiltinDone p q e (.chdir (dir.or (e "HOME")) ::
        if os.chdir then [.prompt] else [.perror ("cd: " ++ dir.getD "(null)"), .prompt]) := by
  subst he
  have harg : argument sCommand 1 = dir := by
    rw [argument, hargs]
    cases dir <;> rfl
  have hdir : (if 1 < sCommand.arguments.length then argument sCommand 1 else p.env "HOME") =
      dir.or (p.env "HOME") := by
    rw [harg, hargs]
    cases dir <;> rfl
  cases hchdir : os.chdir with
  | true =>
    have hrun : runCd os sCommand p = (p.emit (.chdir (dir.or (p.env "HOME"))), true) := by
      rw [runCd, hdir, if_pos hchdir]
    refine ⟨prompt (p.emit (.chdir (dir.or (p.env "HOME")))).clear, ?_,
      rfl, rfl, rfl, rfl, commandClear_fresh _, by simp [prompt, ShellState.clear, ShellState.emit]⟩
    rw [dispatch, if_pos rfl, hrun]
  | false =>
    have hrun : runCd os sCommand p = ((p.emit (.chdir (dir.or (p.env "HOME")))).emit
        (.perror ("cd: " ++ dir.getD "(null)")), true) := by
      rw [runCd, hdir, if_neg (by simp [hchdir]), cdMessage, harg, decide_eq_true hfits]
    refine ⟨prompt ((p.emit (.chdir (dir.or (p.env "HOME")))).emit
        (.perror ("cd: " ++ dir.getD "(null)"))).clear, ?_,
      rfl, rfl, rfl, rfl, commandClear_fresh _, by simp [prompt, ShellState.clear, ShellState.emit]⟩
    rw [dispatch, if_pos rfl, hrun]

/-- The variable that `getenv` finds is overwritten, another one is new. -/
theorem setenv_env (p : ShellState) (var value : String) :
    setenv p var value (p.env var).isSome = { p with env := assign var (some value) p.env } := by
  have hset : (p.env var).isSome = true ∨ (p.env var).isNone = true := by
    cases p.env var <;> simp
  unfold setenv assign
  by_cases hname : validName var = true
  · rw [if_pos (by simpa [hname] using hset), if_pos hname]
  · rw [if_neg (by simp [hname]), if_neg hname]

theorem dispatch_setenv {var value : String}
    (hargs : sCommand.arguments = ["setenv", var, value]) (he : p.env = e) (os : Answers) :
    ∃ q, dispatch os 0 "setenv" sCommand p = .error (.returned q) ∧
      BuiltinDone p q (assign var (some value) e) [.prompt] := by
  subst he
  have hrun : runSetenv sCommand p = some { p with env := assign var (some value) p.env } := by
    rw [runSetenv, argument, argument, hargs]
    exact congrArg some (setenv_env p var value)
  refine ⟨prompt (ShellState.clear { p with env := assign var (some value) p.env }), ?_,
    ⟨rfl, rfl, rfl, rfl, commandClear_fresh _, rfl⟩⟩
  rw [dispatch, if_neg (by decide), if_pos rfl, hrun]

theorem dispatch_unsetenv {var : String} (hargs : sCommand.arguments = ["unsetenv", var])
    (he : p.env = e) (os : Answers) :
    ∃ q, dispatch os 0 "unsetenv" sCommand p = .error (.returned q) ∧
      BuiltinDone p q (assign var none e)
        (if validName var then [.perror "unsetenv", .prompt] else [.prompt]) := by
  subst he
  refine ⟨_, rfl, ?_⟩
  have harg : argument sCommand 1 = some var := by
    rw [argument, hargs]
    rfl
  rw [runUnsetenv, harg, unsetenv, assign]
  by_cases hname : validName var = true
  · simp only [hname, if_true]
    exact ⟨rfl, rfl, rfl, rfl, commandClear_fresh _,
      by simp [prompt, ShellState.clear, ShellState.emit]⟩
  · simp only [hname]
    exact ⟨rfl, rfl, rfl, rfl, commandClear_fresh _, rfl⟩

end Dispatch

/-- A line with a builtin, from its tokens on. -/
theorem runLine_builtin {name : String} {args : List String} {e : Env} {events : List Event}
    (hexit : name ≠ "exit")
    (hdone : ∀ (sCommand : SimpleCommand) (p : ShellState), sCommand.arguments = name :: args →
      p.env = s.shell.env → ∃ q, dispatch os 0 name sCommand p = .error (.returned q) ∧
        BuiltinDone p q e events)
    (hfresh : s.shell.command.Fresh) (hbelow : s.shell.fds.Below n) (hn : 3 ≤ n) :
    ∃ s', runLine keep ⟨(⟨⟨name, args⟩, [], [], false⟩ : PipelineLine).tokens, os⟩ s = .ok s' ∧
      Advanced s s' (n + 3) e [] events 0 := by
  obtain ⟨st, s₁, current, hfeed, hbefore⟩ := @feed_tokens σ keep s
    ⟨⟨name, args⟩, [], [], false⟩ fun _ _ _ _ _ => rfl
  obtain ⟨sCommand, hsingle, hargs⟩ := @table_single name args _ hfresh
  obtain ⟨fds, hfds, hkept, hexecute⟩ := @commandExecute_builtin
    { s.shell with command := PipelineLine.table ⟨⟨name, args⟩, [], [], false⟩ s.shell.command }
    n sCommand name hsingle (by rw [argument, hargs]; rfl) hexit hbelow hn os
  obtain ⟨q, hdispatch, hq⟩ := hdone sCommand { s.shell with
    command := PipelineLine.table ⟨⟨name, args⟩, [], [], false⟩ s.shell.command
    fds := fds } hargs rfl
  have hreturned := hexecute _ hdispatch
  refine ⟨{ s with
    shell := q
    current := current
    executed := s.executed ++
      [PipelineLine.table ⟨⟨name, args⟩, [], [], false⟩ s.shell.command] }, ?_,
    ⟨rfl, hq.children.trans (List.append_nil _).symm, hq.fds ▸ hfds, fun fd hfd => ?_,
      hq.command, hq.env, hq.pipes, hq.log⟩⟩
  · rw [runLine, hfeed]
    refine (endLine_execute hbefore).trans ?_
    simp only [executeLine, Parser.modifyCommand, hreturned]
  · exact (congrArg (Descriptors.get · fd) hq.fds).trans (hkept fd (Nat.lt_of_lt_of_le hfd hn))

/-- A line that can be run does what it means. -/
theorem runLine_session {process : Process} {stack : Stack} {s : Parser DirArray}
    {std : Nat → File} {line : SessionLine} (hready : line.Ready s.shell.env) (hsys : Succeeds os)
    (hfresh : s.shell.command.Fresh) (hbelow : s.shell.fds.Below n) (hn : 3 ≤ n)
    (hstd : ∀ fd < 3, s.shell.fds.get fd = some (std fd)) :
    ∃ s' kids pipes, runLine (insertedArguments process stack) ⟨line.tokens, os⟩ s = .ok s' ∧
      Advanced s s' (if line.isBuiltin then n + 3 else n) (line.env s.shell.env) kids
        (line.events os s.shell.env) pipes ∧
      ∀ lines kids', Launched std (s.shell.pipes + pipes) lines kids' →
        Launched std s.shell.pipes (line.commands s.shell.env :: lines) (kids ++ kids') := by
  have hrewrite (parts : PipelineParts) (hparts : line.parts = some parts) :
      runLine (insertedArguments process stack) ⟨line.tokens, os⟩ s =
        runLine keep ⟨(parts.under (valueIn s.shell.env)).tokens, os⟩ s := by
    have hfeed := feed_rewrites (@rewrites_line process stack s.statics s.shell.env parts
      (hready.words parts hparts)) rfl rfl
    have htokens : line.tokens = (parts.under spelled).tokens := by
      rw [SessionLine.tokens, hparts]
      rfl
    rw [htokens, runLine, runLine, hfeed]
  cases line with
  | empty =>
    obtain ⟨s', hrun, hfollowed⟩ := runLine_empty (insertedArguments process stack) os s
    exact ⟨s', [], 0, hrun, hfollowed.advanced hbelow, fun _ _ h => .empty h⟩
  | cd dir =>
    have hargs : dir.toList.map (valueIn s.shell.env) = (dir.map (valueIn s.shell.env)).toList := by
      cases dir <;> rfl
    obtain ⟨s', hrun, hadvanced⟩ := @runLine_builtin _ os s n "cd" _ _ _ (by decide)
      (fun _ _ hwords he => dispatch_cd hwords (hready.fits dir rfl) he os) hfresh hbelow hn
    refine ⟨s', [], 0, (hrewrite _ rfl).trans ?_, hadvanced, fun _ _ h => .empty h⟩
    rw [← hargs] at hrun
    exact hrun
  | setenv var value =>
    obtain ⟨s', hrun, hadvanced⟩ := @runLine_builtin _ os s n "setenv"
      [valueIn s.shell.env var, valueIn s.shell.env value] _ _ (by decide)
      (fun _ _ hwords he => dispatch_setenv hwords he os) hfresh hbelow hn
    exact ⟨s', [], 0, (hrewrite _ rfl).trans hrun, hadvanced, fun _ _ h => .empty h⟩
  | unsetenv var =>
    obtain ⟨s', hrun, hadvanced⟩ := @runLine_builtin _ os s n "unsetenv"
      [valueIn s.shell.env var] _ _ (by decide)
      (fun _ _ hwords he => dispatch_unsetenv hwords he os) hfresh hbelow hn
    exact ⟨s', [], 0, (hrewrite _ rfl).trans hrun, hadvanced, fun _ _ h => .empty h⟩
  | pipeline parts =>
    have hext : ∀ c ∈ (parts.under (valueIn s.shell.env)).commands,
        c.command ≠ "exit" ∧ ¬Builtin c.command := by
      have hparts := hready.external parts rfl
      rw [List.forall_mem_cons] at hparts
      exact List.forall_mem_cons.mpr ⟨hparts.1, List.forall_mem_map.mpr hparts.2⟩
    obtain ⟨s', kids, hrun, hfollowed, hkids⟩ := @runLine_pipeline _ keep s std
      (parts.under (valueIn s.shell.env)) os (fun _ _ _ _ _ => rfl) hext hsys hfresh hstd
    exact ⟨s', kids, _, (hrewrite _ rfl).trans hrun, hfollowed.advanced hbelow,
      fun _ _ h => .pipeline hkids h⟩

theorem Advanced.trans {s s' s'' : Parser σ} {m m' : Nat} {e e' : Env} {kids kids' : List Child}
    {events events' : List Event} {k k' : Nat} (h : Advanced s s' m e kids events k)
    (h' : Advanced s' s'' m' e' kids' events' k') :
    Advanced s s'' m' e' (kids ++ kids') (events ++ events') (k + k') where
  statics := h'.statics.trans h.statics
  children := by rw [h'.children, h.children, List.append_assoc]
  below := h'.below
  standard fd hfd := (h'.standard fd hfd).trans (h.standard fd hfd)
  command := h'.command
  env := h'.env
  pipes := by rw [h'.pipes, h.pipes, Nat.add_assoc]
  log := by rw [h'.log, h.log, List.append_assoc]

/-- The lines, one after the other: each of them with the environment that the lines
before it have left. -/
theorem run_session {process : Process} {stack : Stack} {s : Parser DirArray} {std : Nat → File}
    {lines : List SessionLine} {answers : Nat → Answers}
    (hready : SessionReady s.shell.env lines) (hsys : ∀ k, Succeeds (answers k))
    (hfresh : s.shell.command.Fresh) (hbelow : s.shell.fds.Below n) (hn : 3 ≤ n)
    (hstd : ∀ fd < 3, s.shell.fds.get fd = some (std fd)) :
    ∃ s' kids pipes, run (insertedArguments process stack)
        ((lines.map SessionLine.tokens).mapIdx fun k tokens => ⟨tokens, answers k⟩) s = .ok s' ∧
      Advanced s s' (n + 3 * lines.countP SessionLine.isBuiltin) (envAfter s.shell.env lines) kids
        (eventsOf answers s.shell.env lines) pipes ∧
      Launched std s.shell.pipes (commandsOf s.shell.env lines) kids := by
  induction lines generalizing s n answers with
  | nil =>
    exact ⟨s, [], 0, rfl, ⟨rfl, (List.append_nil _).symm, hbelow, fun _ _ => rfl, hfresh, rfl, rfl,
      (List.append_nil _).symm⟩, .nil⟩
  | cons line lines ih =>
    obtain ⟨hline, hlines⟩ := hready
    obtain ⟨s₁, kids, k, hrun, hadvanced, hlaunched⟩ :=
      runLine_session hline (hsys 0) hfresh hbelow hn hstd
    have hmore : n ≤ if line.isBuiltin then n + 3 else n := by
      split
      · exact Nat.le_add_right n 3
      · exact Nat.le_refl n
    obtain ⟨s', kids', k', hrun', hadvanced', hlaunched'⟩ := ih (hadvanced.env ▸ hlines)
      (fun k => hsys (k + 1)) hadvanced.command hadvanced.below (Nat.le_trans hn hmore)
      (fun fd hfd => (hadvanced.standard fd hfd).trans (hstd fd hfd))
    rw [hadvanced.env] at hadvanced' hlaunched'
    refine ⟨s', kids ++ kids', k + k', ?_, ?_, hlaunched _ _ (hadvanced.pipes ▸ hlaunched')⟩
    · rw [List.map_cons, List.mapIdx_cons, run, hrun]
      exact hrun'
    · have hcount : (if line.isBuiltin then n + 3 else n) + 3 * lines.countP SessionLine.isBuiltin =
          n + 3 * (line :: lines).countP SessionLine.isBuiltin := by
        rw [List.countP_cons]
        split <;> omega
      rw [← hcount]
      exact hadvanced.trans hadvanced'

end Lines

/-- **Sessions mean what they say.** The text of some lines, in any spelling, is run with
the values that the variables have by then: the environment at the end, the
commands that are run and what is logged are those of the meaning. Every builtin
leaves three more descriptors open. -/
theorem session_runs {process : Process} {stack : Stack} {text : List Char}
    {lines : List SessionLine} {answers : Nat → Answers} {s : Parser DirArray} {std : Nat → File}
    {n : Nat} (htext : ScriptText (lines.map SessionLine.tokens) text)
    (hready : SessionReady s.shell.env lines) (hsys : ∀ k, Succeeds (answers k))
    (hfresh : s.shell.command.Fresh) (hbelow : s.shell.fds.Below n) (hn : 3 ≤ n)
    (hstd : ∀ fd < 3, s.shell.fds.get fd = some (std fd)) :
    ∃ s' kids, runText (insertedArguments process stack) text answers s = some (.ok s') ∧
      s'.shell.env = envAfter s.shell.env lines ∧
      s'.shell.children = s.shell.children ++ kids ∧
      Launched std s.shell.pipes (commandsOf s.shell.env lines) kids ∧
      s'.shell.log = s.shell.log ++ eventsOf answers s.shell.env lines ∧
      s'.shell.fds.Below (n + 3 * lines.countP SessionLine.isBuiltin) ∧
      (∀ fd < 3, s'.shell.fds.get fd = some (std fd)) ∧ s'.shell.command.Fresh := by
  obtain ⟨s', kids, pipes, hrun, hadvanced, hlaunched⟩ :=
    @run_session _ process stack s std lines answers hready hsys hfresh hbelow hn hstd
  refine ⟨s', kids, ?_, hadvanced.env, hadvanced.children, hlaunched, hadvanced.log,
    hadvanced.below, fun fd hfd => (hadvanced.standard fd hfd).trans (hstd fd hfd),
    hadvanced.command⟩
  rw [runText, htext.inputLines_lex, Option.map_some, hrun]

/-- A variable is set, and mentioned. -/
def greeting : List SessionLine := [
  .setenv [.literal "A".toList] [.literal "b".toList],
  .pipeline ⟨⟨"echo", [[.literal "to ".toList, .reference "A".toList]]⟩, [], [], false⟩]

/-- Its text. -/
def greetingText : List Char := "setenv A b\necho \"to $\x7bA\x7d\"\n".toList

theorem greeting_ready : SessionReady (fun _ => none) greeting := by
  have hset : ∀ part ∈ [WordPart.literal "to ".toList, .reference "A".toList],
      part.value (shellWith (envAfter (fun _ => none) (greeting.take 1))) ≠ none := by decide
  have hok : ∀ part ∈ [WordPart.literal "A".toList, .literal "b".toList, .literal "to ".toList,
      .reference "A".toList], part.Ok := by simp [WordPart.Ok, WordPart.specialNames]
  refine ⟨⟨fun parts hparts => ?_, fun _ h => ?_, fun _ h => ?_⟩,
    ⟨fun parts hparts => ?_, fun parts hparts => ?_, fun _ h => ?_⟩, trivial⟩
  · cases hparts
    exact List.forall_mem_singleton.mpr (List.forall_mem_cons.mpr
      ⟨⟨fun part h => hok part (by grind), by decide, by decide, .inl (by decide)⟩,
        List.forall_mem_singleton.mpr
          ⟨fun part h => hok part (by grind), by decide, by decide, .inl (by decide)⟩⟩)
  · cases h
  · cases h
  · cases hparts
    exact List.forall_mem_singleton.mpr (List.forall_mem_singleton.mpr
      ⟨fun part h => hok part (by grind), by decide, by decide, .inr ⟨hset, by decide⟩⟩)
  · cases hparts
    exact List.forall_mem_singleton.mpr ⟨by decide, by decide⟩
  · cases h

theorem greetingText_script : ScriptText (greeting.map SessionLine.tokens) greetingText := by
  have hword (w : String) (hne : w.toList ≠ []) (h : ∀ c ∈ w.toList, isOrdinary c = true) :
      Written (.word w) w.toList := by simpa using Written.ordinary hne h
  have hquoted : Written (.word "to $\x7bA\x7d") ('"' :: ("to $\x7bA\x7d".toList ++ ['"'])) :=
    .quoted (s := "to $\x7bA\x7d".toList) (by simp [isQuotable])
  have hblank {c : Char} {s : List Char} (h : isBlank c = true) :
      ∀ d ∈ (c :: s).head?, isBlank d = true := by
    simpa using h
  refine .line (.token (hword "setenv" (by simp) (by simp [isOrdinary, isSpecial])) (hblank rfl)
    (.blank rfl (.token (hword "A" (by simp) (by simp [isOrdinary, isSpecial])) (hblank rfl)
    (.blank rfl (.token (hword "b" (by simp) (by simp [isOrdinary, isSpecial])) (by simp) .nil)))))
    (.line (.token (hword "echo" (by simp) (by simp [isOrdinary, isSpecial])) (hblank rfl)
    (.blank rfl (.token hquoted (by simp) .nil))) .nil)

/-- The variable is read back. -/
theorem session_runs_greeting :
    ∃ s' kids, runText (insertedArguments (sampleProcess twoFiles) fun _ _ => fullBuffer)
        greetingText (fun _ => allSucceed) ⟨newShell [], simpleCommandCreate, .start, []⟩ =
        some (.ok s') ∧
      s'.shell.env "A" = some "b" ∧ s'.shell.children = kids ∧
      Launched .inherited 0 [none, some ⟨⟨"echo", ["to b"]⟩, [], [], false⟩] kids ∧
      s'.shell.log = [.prompt, .waitpid (some 1), .prompt] ∧ s'.shell.fds.Below 6 := by
  have hcommands : commandsOf (fun _ => none) greeting =
      [none, some ⟨⟨"echo", ["to b"]⟩, [], [], false⟩] := by
    decide
  have hbelow : (newShell []).fds.Below 3
    | 0 | 1 | 2 => by simp [newShell, Descriptors.get]
    | fd + 3 => by simp [newShell, Descriptors.get]
  obtain ⟨s', kids, hrun, henv, hchildren, hlaunched, hlog, hfds, -⟩ := session_runs
    (s := ⟨newShell [], simpleCommandCreate, .start, []⟩) greetingText_script greeting_ready
    (fun _ => allSucceed_succeeds) (commandClear_fresh _) hbelow (Nat.le_refl 3) newShell_std
  refine ⟨s', kids, hrun, ?_, hchildren, hcommands ▸ hlaunched, hlog, hfds⟩
  rw [henv]
  decide

end Cs252.Shell
