import Cs252.Lib.Transition

/-!
# Cs252.Shell.Zombie

The children of the shell and its handler of SIGCHLD, `zombie` of
`lab3-src/command.c`.

A child runs, exits, and is then reaped: by `waitpid` in `command_execute`, or by
the handler. An exit makes the signal pending, whatever number of exits there
were before, and the signal is held back while its handler runs. The handler is
on top of whatever `main` does, so no step of `main` comes in between.

The first `wait3` of the handler has no `WNOHANG`. It waits for a job that still
runs if the child that raised the signal is reaped before the signal is
delivered.
-/

namespace Cs252.Zombie

open Labelled

/-! ### Children -/

/-- What has become of a child. -/
inductive Status
  | running
  /-- It has exited, and nobody has waited for it. -/
  | exited
  | reaped
  deriving Repr, DecidableEq

/-- A child of the shell. -/
structure Child where
  /-- It was forked for a line that ends in `&`. -/
  background : Bool
  status : Status
  deriving Repr, DecidableEq

/-- Where `main` is. -/
inductive Pc
  /-- In `yyparse`. -/
  | reading
  /-- In the loop of `command_execute`, with some commands still to be forked. -/
  | execute (background : Bool) (commands : Nat) (ret : Option Nat)
  /-- In the `waitpid` after it. -/
  | waitpid (ret : Nat)
  deriving Repr, DecidableEq

/-- Where the handler is. -/
inductive Handler
  /-- `wait3(0, 0, NULL)`. -/
  | first
  /-- `wait3(&status, WNOHANG, NULL)`, in the loop. -/
  | rest
  deriving Repr, DecidableEq

/-- The shell and its children, numbered as they are forked. -/
structure State where
  children : List Child
  /-- SIGCHLD is pending. -/
  pending : Bool
  pc : Pc
  /-- The handler, while it runs. -/
  handler : Option Handler
  deriving Repr, DecidableEq

namespace State

/-- What has become of child `pid`. -/
def status (s : State) (pid : Nat) : Option Status := s.children[pid]?.map Child.status

/-- Something becomes of child `pid`. -/
def setStatus (s : State) (pid : Nat) (status : Status) : State :=
  { s with children := s.children.modify pid fun c => { c with status } }

/-- `fork`. -/
def fork (s : State) (background : Bool) : State :=
  { s with children := s.children ++ [⟨background, .running⟩] }

end State

/-! ### Steps -/

/-- The steps of `main`. -/
inductive MainStep
  /-- A line is read. -/
  | line (background : Bool) (commands : Nat)
  /-- A subshell is forked for backquotes, in the lexer. -/
  | subshell
  | fork
  /-- `command_execute` returns from the loop, after a builtin or a failed fork. -/
  | leave
  | endLoop
  /-- `waitpid` returns. -/
  | waitpid
  deriving Repr, DecidableEq

/-- `main` and `command_execute`. -/
def mainStep : MainStep → State → Option State
  | .line background commands, s =>
    if s.pc = .reading then
      some (if commands = 0 then s else { s with pc := .execute background commands none })
    else none
  | .subshell, s => if s.pc = .reading then some (s.fork false) else none
  | .fork, s =>
    match s.pc with
    | .execute background (commands + 1) _ =>
      some { s.fork background with pc := .execute background commands (some s.children.length) }
    | _ => none
  | .leave, s =>
    match s.pc with
    | .execute _ (_ + 1) _ => some { s with pc := .reading }
    | _ => none
  | .endLoop, s =>
    match s.pc with
    | .execute true 0 _ => some { s with pc := .reading }
    | .execute false 0 (some ret) => some { s with pc := .waitpid ret }
    | _ => none
  | .waitpid, s =>
    match s.pc with
    | .waitpid ret =>
      match s.status ret with
      | some .running => none
      | some .exited => some { s.setStatus ret .reaped with pc := .reading }
      -- there is no such child any more
      | _ => some { s with pc := .reading }
    | _ => none

/-- A step of the shell, or of a child. -/
inductive Step
  | main (step : MainStep)
  | exit (pid : Nat)
  /-- SIGCHLD is delivered. -/
  | deliver
  /-- `wait3` returns a child. -/
  | wait3 (pid : Nat)
  /-- `wait3` returns without one. -/
  | noChild
  deriving Repr, DecidableEq

/-- One step. -/
def step : Step → State → Option State
  | .main a, s => if s.handler = none then mainStep a s else none
  | .exit pid, s =>
    if s.status pid = some .running then some { s.setStatus pid .exited with pending := true }
    else none
  | .deliver, s =>
    if s.pending ∧ s.handler = none then some { s with pending := false, handler := some .first }
    else none
  | .wait3 pid, s =>
    if s.handler.isSome ∧ s.status pid = some .exited then
      some { s.setStatus pid .reaped with handler := some .rest }
    else none
  | .noChild, s =>
    match s.handler with
    | none => none
    | some .first =>
      if ∀ c ∈ s.children, c.status = .reaped then some { s with handler := none } else none
    | some .rest =>
      if ∀ c ∈ s.children, c.status ≠ .exited then some { s with handler := none } else none

/-! ### Waiting for a job -/

/-- The handler waits, and only the exit of a background child would end that. -/
structure WaitsForJob (s : State) : Prop where
  handler : s.handler = some .first
  waits : ∀ pid, step (.wait3 pid) s = none
  stays : step .noChild s = none
  jobs : ∀ pid, (step (.exit pid) s).isSome → s.children[pid]?.map Child.background = some true

/-- The first `wait3` of a handler finds a child that has exited, or it can wait
for one of the foreground, or there is none to wait for. -/
def InTime (s : State) : Prop :=
  (∀ c ∈ s.children, c.status = .reaped) ∨
    ∃ c ∈ s.children, c.status = .exited ∨ c.status = .running ∧ c.background = false

theorem status_eq_some_iff {s : State} {pid : Nat} {status : Status} :
    s.status pid = some status ↔ ∃ c, s.children[pid]? = some c ∧ c.status = status :=
  Option.map_eq_some_iff

/-- The handler waits for a job where it did not start in time. -/
theorem waitsForJob_iff {s : State} : WaitsForJob s ↔ s.handler = some .first ∧ ¬InTime s := by
  constructor
  · intro h
    refine ⟨h.handler, fun hin => ?_⟩
    rcases hin with hreaped | hchild
    · have := h.stays
      simp only [step, h.handler, if_pos hreaped, reduceCtorEq] at this
    · obtain ⟨c, hmem, hc⟩ := hchild
      obtain ⟨pid, hpid⟩ := List.mem_iff_getElem?.mp hmem
      rcases hc with hexited | ⟨hrunning, hforeground⟩
      · have hstatus : s.status pid = some .exited := status_eq_some_iff.mpr ⟨c, hpid, hexited⟩
        have := h.waits pid
        simp [step, h.handler, hstatus] at this
      · have hstatus : s.status pid = some .running := status_eq_some_iff.mpr ⟨c, hpid, hrunning⟩
        have := h.jobs pid (by simp [step, hstatus])
        simp [hpid, hforeground] at this
  · intro h
    obtain ⟨hfirst, hin⟩ := h
    simp only [InTime, not_or, not_exists, not_and] at hin
    obtain ⟨hleft, hjobs⟩ := hin
    refine ⟨hfirst, fun pid => ?_, ?_, fun pid hexit => ?_⟩
    · refine if_neg fun hwait => ?_
      obtain ⟨c, hpid, hexited⟩ := status_eq_some_iff.mp hwait.2
      exact (hjobs c (List.mem_of_getElem? hpid)).1 hexited
    · simp only [step, hfirst, if_neg hleft]
    · by_cases hrunning : s.status pid = some .running
      · obtain ⟨c, hpid, hc⟩ := status_eq_some_iff.mp hrunning
        rw [hpid, Option.map_some]
        have hjob := (hjobs c (List.mem_of_getElem? hpid)).2 hc
        exact congrArg some (Bool.not_eq_false _ ▸ hjob)
      · simp [step, hrunning] at hexit

/-- A child that has exited is there to be waited for. -/
theorem inTime_of_exit {s : State} {pid : Nat} (h : s.status pid = some .running)
    (pending : Bool) : InTime { s.setStatus pid .exited with pending } := by
  obtain ⟨c, hpid, -⟩ := status_eq_some_iff.mp h
  have hexited : (s.setStatus pid .exited).children[pid]? = some { c with status := .exited } := by
    rw [State.setStatus, List.getElem?_modify_eq, hpid]
    rfl
  exact .inr ⟨_, List.mem_of_getElem? hexited, .inl rfl⟩

theorem mainStep_handler {a : MainStep} {s s' : State} (h : mainStep a s = some s') :
    s'.handler = s.handler := by
  cases a with
  | line background commands =>
    obtain ⟨-, h⟩ := Option.ite_none_right_eq_some.mp h
    cases h
    split <;> rfl
  | subshell =>
    obtain ⟨-, h⟩ := Option.ite_none_right_eq_some.mp h
    cases h
    rfl
  | fork =>
    simp only [mainStep] at h
    split at h <;> cases h
    rfl
  | leave =>
    simp only [mainStep] at h
    split at h <;> cases h
    rfl
  | endLoop =>
    simp only [mainStep] at h
    split at h <;> cases h <;> rfl
  | waitpid =>
    simp only [mainStep] at h
    split at h
    · split at h <;> cases h <;> rfl
    · cases h

/-- A step other than a delivery does not make the handler wait for a job. -/
theorem not_waits_of_step {a : Step} {s s' : State} (ha : step a s = some s')
    (hdeliver : a ≠ .deliver) : ¬WaitsForJob s' := by
  rw [waitsForJob_iff]
  cases a with
  | main a =>
    obtain ⟨hnone, ha⟩ := Option.ite_none_right_eq_some.mp ha
    rw [mainStep_handler ha, hnone]
    exact fun h => nomatch h.1
  | exit pid =>
    obtain ⟨hrunning, ha⟩ := Option.ite_none_right_eq_some.mp ha
    cases ha
    exact fun h => h.2 (inTime_of_exit hrunning true)
  | deliver => exact absurd rfl hdeliver
  | wait3 pid =>
    obtain ⟨-, ha⟩ := Option.ite_none_right_eq_some.mp ha
    cases ha
    exact fun h => nomatch h.1
  | noChild =>
    cases hhandler : s.handler with
    | none => simp [step, hhandler] at ha
    | some handler =>
      cases handler <;> simp only [step, hhandler, Option.ite_none_right_eq_some] at ha
      all_goals
        cases ha.2
        exact fun h => nomatch h.1

/-- **The handler never waits for a job** in a run exactly if each delivery of the
signal comes in time. -/
theorem never_waits_iff (children : List Child) (pending : Bool) (pc : Pc) (steps : List Step) :
    AllStates step (fun s => ¬WaitsForJob s) steps ⟨children, pending, pc, none⟩ ↔
      AllSteps step (fun a s => a = .deliver → InTime s) steps ⟨children, pending, pc, none⟩ := by
  refine allStates_iff (fun a s s' _ ha => ?_) fun h => nomatch h.handler
  by_cases hdeliver : a = .deliver
  · subst hdeliver
    obtain ⟨-, ha⟩ := Option.ite_none_right_eq_some.mp ha
    cases ha
    rw [waitsForJob_iff, and_iff_right rfl, Classical.not_not]
    exact ⟨fun h _ => h, fun h => h rfl⟩
  · exact iff_of_true (not_waits_of_step ha hdeliver) fun h => absurd h hdeliver

/-- The shell as it starts. -/
def shellStart : State := ⟨[], false, .reading, none⟩

/-- `sleep 100 &`, and then `ls`: the child that runs `ls` exits and is waited for,
and the signal is delivered after that. -/
def sleepThenLs : List Step :=
  [.main (.line true 1), .main .fork, .main .endLoop, .main (.line false 1), .main .fork,
    .main .endLoop, .exit 1, .main .waitpid, .deliver]

/-- The shell waits for `sleep 100`. -/
theorem waits_for_sleep :
    ∃ s, run step sleepThenLs shellStart = some s ∧ WaitsForJob s ∧
      s.children = [⟨true, .running⟩, ⟨false, .reaped⟩] := by
  refine ⟨⟨[⟨true, .running⟩, ⟨false, .reaped⟩], false, .reading, some .first⟩, by decide, ?_, rfl⟩
  exact waitsForJob_iff.mpr ⟨rfl, by simp [InTime]⟩

end Cs252.Zombie
