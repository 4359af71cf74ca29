import Cs252.Lib.Transition
import Cs252.Shell.WildcardMatches

/-!
# Cs252.Shell.WildcardSessions

One word after the other in the same shell.

`insert_arguments` empties `dir_array` only where it takes more than one path
from it. A path that is found alone stays in the array and turns up among the
arguments of a later word.
-/

namespace Cs252.Shell

open Labelled

/-- A call of `insert_arguments`, and what it meets. -/
structure Call where
  process : Process
  stack : Stack
  shell : ShellState
  word : String

namespace Call

variable (c : Call)

/-- The arguments that are inserted. -/
def arguments (st : DirArray) : Option (List String) :=
  (insertedArguments c.process c.stack st c.shell c.word).map Prod.fst

/-- The static variables after the call. -/
def after (st : DirArray) : Option DirArray :=
  (insertedArguments c.process c.stack st c.shell c.word).map Prod.snd

/-- Exactly one path is found for the word. -/
def FindsOne : Prop :=
  hasWildcard c.word.toList = true ∧
    (search c.process.toDirectories c.stack [] c.word.toList).length = 1

end Call

/-- In a run of calls, each inserts what it would insert at the start of the
shell, and leaves the array empty. -/
def Independent (calls : List Call) : Prop :=
  AllTries Call.after (fun c st => c.arguments st = c.arguments .start ∧
    ∀ st', c.after st = some st' → st'.entries = []) calls .start

variable {c : Call} {st st' : DirArray}

/-- A word without wildcards leaves the static variables alone. -/
theorem after_of_plain (hwild : ¬hasWildcard c.word.toList = true) (h : c.after st = some st') :
    st' = st := by
  obtain ⟨r, hr, rfl⟩ := Option.map_eq_some_iff.mp h
  rw [insertedArguments, if_neg hwild] at hr
  obtain ⟨newArg, -, hr⟩ := Option.bind_eq_some_iff.mp hr
  cases hr
  rfl

/-- With an empty array, a call inserts what it would at the start of the shell. -/
theorem arguments_of_empty (hst : st.entries = []) : c.arguments st = c.arguments .start := by
  by_cases hwild : hasWildcard c.word.toList = true
  · have hentries := insertedArguments_entries c.process c.stack c.shell hwild st
    have hstart := insertedArguments_entries c.process c.stack c.shell hwild .start
    rw [hst] at hentries
    have hsame := congrArg (Option.map Prod.fst) (hentries.trans hstart.symm)
    rwa [Option.map_map, Option.map_map] at hsame
  · rw [Call.arguments, Call.arguments, insertedArguments, insertedArguments, if_neg hwild,
      if_neg hwild]
    cases expandPlain c.process c.shell c.word.toList <;> rfl

/-- A call leaves an empty array empty, unless it finds exactly one path. -/
theorem empty_after_iff (hst : st.entries = []) (h : c.after st = some st') :
    st'.entries = [] ↔ ¬c.FindsOne := by
  by_cases hwild : hasWildcard c.word.toList = true
  · obtain ⟨r, hr, rfl⟩ := Option.map_eq_some_iff.mp h
    have hentries := insertedArguments_entries c.process c.stack c.shell hwild st
    rw [hr, hst, Option.map_some, eq_comm, Option.map_eq_some_iff] at hentries
    obtain ⟨entries, hcollected, hr⟩ := hentries
    have hsearch := expandEntries_eq_some hcollected
    rw [List.nil_append] at hsearch
    rw [Call.FindsOne, and_iff_right hwild, ← hsearch]
    split at hr
    · obtain ⟨-, hempty⟩ := Prod.mk.inj hr
      exact iff_of_true hempty.symm (by omega)
    · obtain ⟨-, hleft⟩ := Prod.mk.inj hr
      rw [← hleft, ← List.length_eq_zero_iff]
      omega
  · rw [after_of_plain hwild h]
    exact iff_of_true hst fun hone => hwild hone.1

/-- **Words are expanded independently** in a session exactly if none of them finds
exactly one path. -/
theorem independent_iff (calls : List Call) :
    Independent calls ↔ AllSteps Call.after (fun c _ => ¬c.FindsOne) calls .start := by
  refine allTries_iff (P := fun st => st.entries = []) (fun c st hst => ?_)
    (fun c st st' hst h hone => (empty_after_iff hst h).mpr hone) rfl
  rw [and_iff_right (arguments_of_empty hst)]
  exact forall₂_congr fun st' h => empty_after_iff hst h

/-- A call for `*.c`, in a directory with one C file. -/
def sampleCall : Call where
  process := sampleProcess oneFile
  stack _ _ := fullBuffer
  shell := newShell []
  word := "*.c"

/-- The second of two words inserts the match of the first one as well. -/
theorem match_left_over :
    sampleCall.arguments .start = some ["*.c"] ∧
      (sampleCall.after .start).map DirArray.entries = some ["a.c".toList] ∧
      (sampleCall.after .start).bind sampleCall.arguments = some ["a.c", "a.c"] ∧
      ¬Independent [sampleCall, sampleCall] := by
  have hfirst : sampleCall.arguments .start = some ["*.c"] := by decide +kernel
  have hleft : (sampleCall.after .start).map DirArray.entries = some ["a.c".toList] := by
    decide +kernel
  have hsecond : (sampleCall.after .start).bind sampleCall.arguments = some ["a.c", "a.c"] := by
    decide +kernel
  refine ⟨hfirst, hleft, hsecond, fun h => ?_⟩
  obtain ⟨st, hst, hentries⟩ := Option.map_eq_some_iff.mp hleft
  rw [(h.1.2 st hst)] at hentries
  cases hentries

end Cs252.Shell
