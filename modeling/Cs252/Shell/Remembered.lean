import Cs252.Shell.ErrorLines
import Cs252.Shell.PipelineLines
import Cs252.Shell.WildcardMatches

/-!
# Cs252.Shell.Remembered

What `${!}` and `${?}` yield after a history of lines.

The table that holds the last pid and the last status is cleared at the end of
every line (`run_fresh`), and before that only a pipeline in the foreground sets
the pid. So `${!}` yields 0. `${?}` is a word with a wildcard, and no variable.
-/

namespace Cs252.Shell

/-! ### Histories -/

/-- The names that are not run as programs. -/
def builtins : List String := ["exit", "cd", "setenv", "unsetenv"]

/-- A pipeline of external commands, and what the system does when it is executed. -/
structure Execution where
  line : PipelineLine
  external : ∀ c ∈ line.commands, c.command ∉ builtins
  answers : Answers
  forks : ∀ i, ∃ pid, answers.fork i = some pid ∧ 0 < pid
  /-- The exit status of the last process. -/
  status : Nat

/-- A line of a history. -/
inductive Entry
  | empty
  | pipeline (x : Execution)

/-- The pid of the last process. -/
def Execution.lastProcess (x : Execution) : Nat := (x.answers.fork x.line.rest.length).getD 0

/-- The line as it is run. -/
def Entry.toLine : Entry → Line
  | .empty => ⟨[], allSucceed⟩
  | .pipeline x => ⟨x.line.tokens, x.answers⟩

/-- The pid of a background pipeline. -/
def Entry.backgroundPid : Entry → Option Nat
  | .pipeline x => if x.line.background then some x.lastProcess else none
  | .empty => none

/-- The status of a foreground pipeline. -/
def Entry.foregroundStatus : Entry → Option Nat
  | .pipeline x => if x.line.background then none else some x.status
  | .empty => none

/-- The most recent of what the entries give. -/
def mostRecent (value : Entry → Option Nat) (history : List Entry) : Nat :=
  (history.reverse.findSome? value).getD 0

/-- What a word yields when it is expanded after the history. -/
def Yields (process : Process) (stack : Stack) (s : Parser DirArray) (word : String)
    (value : Nat) : Prop :=
  (insertedArguments process stack s.statics s.shell word).map Prod.fst = some [toString value]

/-! ### The two words -/

section Words

variable {process : Process} {stack : Stack} {s : Parser DirArray} {p : ShellState}

theorem environmentExpansion_lastPid :
    environmentExpansion process p "$\x7b!\x7d".toList =
      (printTo (process.usable 4) (toString p.command.lastPid).toList).bind (printTo 1024) := by
  have hend (maxLength : Nat) (text : Text) : expandVariables process p (0 + ['!'].length + 3) maxLength
      [some '$', some '\x7b', some '!', none, none] text = some text := expandVariables_end rfl
  rw [environmentExpansion, if_pos (by decide), expandVariables_variable rfl
    (show takeName _ 0 = some (['!'], [some '$', some '\x7b', some '!', none, none]) by decide)]
  have hname : variableText process p (if 0 = 1024 then 1024 * 2 else 1024) ['!'] =
      printTo (process.usable 4) (toString p.command.lastPid).toList := rfl
  simp only [hname, hend, List.nil_append]
  exact congrArg _ (funext fun text => Option.bind_fun_some _)

theorem toList_toString (n : Nat) : (toString n).toList = Nat.toDigits 10 n := by
  rw [Nat.toString_eq_ofList_toDigits, String.toList_ofList]

theorem toString_inj {m n : Nat} : toString m = toString n ↔ m = n := by
  constructor
  · intro h
    have hdigits : Nat.toDigits 10 m = Nat.toDigits 10 n := by
      rw [← toList_toString, h, toList_toString]
    rw [← Nat.ofDigitChars_toDigits (b := 10) (n := m) (by decide) (by decide), hdigits,
      Nat.ofDigitChars_toDigits (by decide) (by decide)]
  · exact congrArg toString

/-- `${!}` yields the last pid of the table. -/
theorem yields_lastPid (h : s.shell.command.lastPid = 0) (value : Nat) :
    Yields process stack s "${!}" value ↔ value = 0 := by
  have hprint : printTo (process.usable 4) (toString s.shell.command.lastPid).toList = some ['0'] := by
    rw [h]
    exact if_pos (Nat.lt_of_lt_of_le (by decide) (process.le_usable 4))
  have hplain : expandPlain process s.shell "${!}".toList = some ['0'] := by
    rw [expandPlain, if_neg (by decide), if_pos (by decide), environmentExpansion_lastPid, hprint]
    rfl
  have hinserted : insertedArguments process stack s.statics s.shell "${!}" =
      some (["0"], s.statics) := by
    rw [insertedArguments, if_neg (by decide), hplain]
    rfl
  have hzero : "0" = toString 0 := by decide
  rw [Yields, hinserted, Option.map_some, hzero, Option.some_inj, List.singleton_inj, toString_inj]
  exact eq_comm

/-- `${?}` is not expanded to a number. -/
theorem not_yields_lastReturn (value : Nat) :
    ¬Yields process stack s "${?}" value := by
  intro h
  obtain ⟨⟨arguments, st⟩, hinserted, harguments⟩ := Option.map_eq_some_iff.mp h
  obtain rfl : arguments = [toString value] := harguments
  rw [insertedArguments, if_pos (by decide)] at hinserted
  obtain ⟨st', -, hinserted⟩ := Option.bind_eq_some_iff.mp hinserted
  split at hinserted
  · next hmany =>
    -- the names of several files
    have hlength := congrArg (fun r => (r.map fun r => r.1.length)) hinserted
    simp [sortFiles] at hlength
    omega
  · next =>
    -- the word itself
    have hword : "${?}" = toString value := by
      simpa using congrArg (Option.map fun r => r.1) hinserted
    have hmem : '$' ∈ Nat.toDigits 10 value := by
      rw [← toList_toString, ← hword]
      decide
    exact absurd (Nat.isDigit_of_mem_toDigits (by decide) (by decide) hmem) (by decide)

end Words

/-! ### After a history -/

theorem Execution.lastProcess_pos (x : Execution) : 0 < x.lastProcess := by
  obtain ⟨pid, hpid, hpos⟩ := x.forks x.line.rest.length
  rw [lastProcess, hpid]
  exact hpos

theorem Entry.harmless (e : Entry) : Harmless e.toLine := by
  cases e with
  | empty => exact ⟨fun h => absurd .newline h, fun _ _ => Option.some_ne_none _⟩
  | pipeline x =>
    refine ⟨fun h => absurd (wellFormedLine_iff.mpr (Or.inr ⟨x.line, rfl⟩)) h, fun _ i => ?_⟩
    obtain ⟨pid, hpid, -⟩ := x.forks i
    exact hpid ▸ Option.some_ne_none pid

/-- There is no pid to remember. -/
theorem mostRecent_backgroundPid_eq_zero_iff {history : List Entry} :
    mostRecent Entry.backgroundPid history = 0 ↔
      ∀ x, .pipeline x ∈ history → x.line.background = false := by
  have hnone : history.reverse.findSome? Entry.backgroundPid = none ↔
      ∀ x, .pipeline x ∈ history → x.line.background = false := by
    rw [List.findSome?_eq_none_iff]
    constructor
    · intro h x hx
      have := h _ (List.mem_reverse.mpr hx)
      cases hbackground : x.line.background with
      | false => rfl
      | true => simp [Entry.backgroundPid, hbackground] at this
    · intro h e he
      cases e with
      | empty => rfl
      | pipeline x => simp [Entry.backgroundPid, h x (List.mem_reverse.mp he)]
  rw [← hnone, mostRecent]
  cases hfound : history.reverse.findSome? Entry.backgroundPid with
  | none => simp
  | some pid =>
    obtain ⟨e, -, he⟩ := List.exists_of_findSome?_eq_some hfound
    have hpos : 0 < pid := by
      cases e with
      | empty => cases he
      | pipeline x =>
        obtain ⟨-, he⟩ := Option.ite_none_right_eq_some.mp he
        cases he
        exact x.lastProcess_pos
    simp [Nat.pos_iff_ne_zero.mp hpos]

/-- **What is remembered of a history.** `${!}` yields the pid exactly if there has
been no background pipeline, and `${?}` never yields the status. -/
theorem remembered_iff {process : Process} {stack : Stack} {history : List Entry}
    {s s' : Parser DirArray} (hs : s.shell.command.Fresh)
    (h : run (insertedArguments process stack) (history.map Entry.toLine) s = .ok s') :
    (Yields process stack s' "${!}" (mostRecent Entry.backgroundPid history) ↔
      ∀ x, .pipeline x ∈ history → x.line.background = false) ∧
    ¬Yields process stack s' "${?}" (mostRecent Entry.foregroundStatus history) := by
  have hlines : ∀ line ∈ history.map Entry.toLine, Harmless line :=
    List.forall_mem_map.mpr fun e _ => e.harmless
  have hfresh : s'.shell.command.Fresh := run_fresh hlines hs h
  have hlastPid : s'.shell.command.lastPid = 0 := congrArg Command.lastPid hfresh
  exact ⟨(yields_lastPid hlastPid _).trans mostRecent_backgroundPid_eq_zero_iff,
    not_yields_lastReturn _⟩

/-! ### Two lines -/

/-- A command without arguments, with a system on which every call succeeds. -/
def simpleExecution (name : String) (hname : name ∉ builtins) (background : Bool) (status : Nat) :
    Execution where
  line := ⟨⟨name, []⟩, [], [], background⟩
  external := by
    intro c hc
    obtain rfl := List.mem_singleton.mp hc
    exact hname
  answers := allSucceed
  forks i := ⟨i + 1, rfl, Nat.succ_pos i⟩
  status := status

/-- The lines `ls`, which fails, and `firefox &`. -/
def twoEntries : List Entry :=
  [.pipeline (simpleExecution "ls" (by decide) false 2),
    .pipeline (simpleExecution "firefox" (by decide) true 0)]

/-- The shell before the two lines. -/
def historyStart : Parser DirArray := ⟨newShell [], simpleCommandCreate, .start, []⟩

theorem run_twoEntries :
    ∃ s, run (insertedArguments (sampleProcess twoFiles) fun _ _ => fullBuffer)
      (twoEntries.map Entry.toLine) historyStart = .ok s ∧ s.shell.command.lastPid = 0 :=
  ⟨_, rfl, rfl⟩

/-- After the two lines, both are forgotten. -/
theorem remembered_twoEntries :
    ∃ s, run (insertedArguments (sampleProcess twoFiles) fun _ _ => fullBuffer)
        (twoEntries.map Entry.toLine) historyStart = .ok s ∧
      ((Yields (sampleProcess twoFiles) (fun _ _ => fullBuffer) s "${!}"
          (mostRecent Entry.backgroundPid twoEntries) ↔
        ∀ x, .pipeline x ∈ twoEntries → x.line.background = false) ∧
      ¬Yields (sampleProcess twoFiles) (fun _ _ => fullBuffer) s "${?}"
        (mostRecent Entry.foregroundStatus twoEntries)) := by
  obtain ⟨s, hs, -⟩ := run_twoEntries
  exact ⟨s, hs, remembered_iff (show historyStart.shell.command.Fresh from rfl) hs⟩

/-- The pid is 1 and the status is 2, and the words yield neither. -/
theorem twoEntries_forgotten :
    mostRecent Entry.backgroundPid twoEntries = 1 ∧
      mostRecent Entry.foregroundStatus twoEntries = 2 ∧
      ∃ s, run (insertedArguments (sampleProcess twoFiles) fun _ _ => fullBuffer)
          (twoEntries.map Entry.toLine) historyStart = .ok s ∧
        ¬Yields (sampleProcess twoFiles) (fun _ _ => fullBuffer) s "${!}" 1 ∧
        ¬Yields (sampleProcess twoFiles) (fun _ _ => fullBuffer) s "${?}" 2 := by
  obtain ⟨s, hs, hlastPid⟩ := run_twoEntries
  refine ⟨rfl, rfl, s, hs, fun h => ?_, not_yields_lastReturn 2⟩
  exact absurd ((yields_lastPid hlastPid 1).mp h) (by decide)

end Cs252.Shell
