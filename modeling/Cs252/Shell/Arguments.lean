import Cs252.Shell.Parser
import Cs252.Shell.Wildcards
import Mathlib.Data.List.Sort

/-!
# Cs252.Shell.Arguments

`insert_arguments` of `lab3-src/shell.y`, with `tilde_expansion` and
`environment_expansion`.

`environment_expansion` reads its word in memory that it changes on the way: it
ends a name by a terminator in place of its `}`. The string in `env_arg` is as
long as `j` says. What the functions print is left out.
-/

namespace Cs252.Shell

/-- The process and its system. -/
structure Process extends Directories where
  /-- `getpid`. -/
  pid : Int
  /-- `getcwd`. -/
  cwd : Option Text
  /-- The home directory of a user, as `getpwnam` finds it. -/
  pwDir : Text → Option Text
  /-- The bytes that `malloc` gives for a request. -/
  usable : Nat → Nat
  le_usable : ∀ n, n ≤ usable n

/-- `getenv`. -/
def getenv (p : ShellState) (name : Text) : Option Text :=
  (p.env (String.ofList name)).map String.toList

/-! ### Home directories -/

/-- `tilde_expansion`: `arg` is overwritten, in the memory of a word. -/
def tildeExpansion (process : Process) (p : ShellState) (arg : Text) : Option Text :=
  let room := process.usable (arg.length + 1)
  if arg = ['~'] ∨ arg = ['~', '/'] then do
    let user ← getenv p "USER".toList
    let newDir ← process.pwDir user
    printTo room newDir
  else do
    let newArg ← printTo (process.usable ("/homes/".toList.length + 1))
      ("/homes/".toList ++ arg.drop 1)
    printTo room newArg

/-! ### Variables -/

/-- The string matches `"${.*}"`. -/
def hasReference : Text → Bool
  | '$' :: '{' :: rest => rest.contains '}' || hasReference ('{' :: rest)
  | _ :: rest => hasReference rest
  | [] => false

/-- `strchr`: the position of a character in the string at the beginning of memory. -/
def strchr (c : Char) : List (Option Char) → Option Nat
  | [] => none
  | none :: _ => none
  | some d :: cells => if d = c then some 0 else (strchr c cells).map (· + 1)

/-- The name after the `$` at position `i`, and the memory of the word after it is taken. -/
def takeName (temp : List (Option Char)) (i : Nat) : Option (Text × List (Option Char)) :=
  match strchr '{' (temp.drop i), strchr '}' (temp.drop i) with
  | some head, some tail => do
    let temp := temp.set (i + tail) none
    let out ← readText (temp.drop (i + head + 1))
    return (out, temp)
  | _, _ => do
    -- the first `$` of the word is removed
    let ptr ← strchr '$' temp
    let length := (← readText (temp.drop ptr)).length
    let temp := temp.take ptr ++ (temp.drop (ptr + 1)).take length ++ temp.drop (ptr + length)
    let out ← readText (temp.drop ptr)
    return (out, temp)

/-- The text for a name. A variable that is not set is a null pointer, and so may
be what `_` stands for. -/
def variableText (process : Process) (p : ShellState) (maxLength : Nat) (out : Text) :
    Option Text :=
  if out = "SHELL".toList ∨ out = "SH".toList then do
    let final ← process.cwd
    if final.length < maxLength then
      printTo (process.usable (final.length + 1)) (final ++ "/shell".toList)
    else none
  -- the numbers are printed to the memory of an `int`
  else if out = ['$'] then printTo (process.usable 4) (toString process.pid).toList
  else if out = ['!'] then printTo (process.usable 4) (toString p.command.lastPid).toList
  else if out = ['?'] then printTo (process.usable 4) (toString p.command.lastReturn).toList
  else if out = ['_'] then none
  else getenv p out

theorem readText_length {cells : List (Option Char)} {text : Text} (h : readText cells = some text) :
    text.length < cells.length := by
  induction cells generalizing text with
  | nil => cases h
  | cons c cells ih =>
    cases c with
    | none =>
      cases h
      exact Nat.succ_pos _
    | some c =>
      obtain ⟨rest, hrest, rfl⟩ := Option.map_eq_some_iff.mp h
      exact Nat.succ_lt_succ (ih hrest)

theorem takeName_length {temp temp' : List (Option Char)} {i : Nat} {out : Text}
    (h : takeName temp i = some (out, temp')) : temp'.length = temp.length := by
  unfold takeName at h
  split at h
  · obtain ⟨_, _, h⟩ := Option.bind_eq_some_iff.mp h
    cases h
    exact List.length_set
  · obtain ⟨ptr, _, h⟩ := Option.bind_eq_some_iff.mp h
    obtain ⟨text, htext, h⟩ := Option.bind_eq_some_iff.mp h
    obtain ⟨_, _, h⟩ := Option.bind_eq_some_iff.mp h
    cases h
    have := readText_length htext
    simp only [List.length_append, List.length_take, List.length_drop] at this ⊢
    omega

/-- The loop of `environment_expansion`, from position `i` on: `env_arg` at its end.
`max_length` grows, but not the array. -/
def expandVariables (process : Process) (p : ShellState) (i maxLength : Nat)
    (temp : List (Option Char)) (envArg : Text) : Option Text :=
  match hi : temp[i]? with
  | none => none
  | some none => some envArg
  | some (some c) =>
    have : i < temp.length := (List.getElem?_eq_some_iff.mp hi).1
    let maxLength := if i = maxLength then maxLength * 2 else maxLength
    if c = '$' then
      match h : takeName temp i with
      | none => none
      | some (out, temp') => do
        have := takeName_length h
        let final ← variableText process p maxLength out
        let envArg ← printTo 1024 (envArg ++ final)
        expandVariables process p (i + out.length + 3) maxLength temp' envArg
    else if c = '\\' then expandVariables process p (i + 1) maxLength temp envArg
    else do
      let envArg ← printTo 1024 (envArg ++ [c])
      expandVariables process p (i + 1) maxLength temp envArg
termination_by temp.length - i

section Loop

variable {process : Process} {p : ShellState} {i maxLength : Nat} {temp temp' : List (Option Char)}
  {envArg out : Text}

theorem expandVariables_end (hi : temp[i]? = some none) :
    expandVariables process p i maxLength temp envArg = some envArg := by
  rw [expandVariables]
  split
  · next h => cases hi.symm.trans h
  · rfl
  · next h => cases hi.symm.trans h

theorem expandVariables_variable (hi : temp[i]? = some (some '$'))
    (h : takeName temp i = some (out, temp')) :
    expandVariables process p i maxLength temp envArg =
      (let maxLength := if i = maxLength then maxLength * 2 else maxLength
      (variableText process p maxLength out).bind fun final =>
        (printTo 1024 (envArg ++ final)).bind fun envArg =>
          expandVariables process p (i + out.length + 3) maxLength temp' envArg) := by
  rw [expandVariables]
  split
  · next h' => cases hi.symm.trans h'
  · next h' => cases hi.symm.trans h'
  · next c h' =>
    cases hi.symm.trans h'
    rw [if_pos rfl]
    split
    · next h'' => cases h.symm.trans h''
    · next h'' =>
      cases h.symm.trans h''
      rfl

end Loop

/-- `environment_expansion`. -/
def environmentExpansion (process : Process) (p : ShellState) (arg : Text) : Option Text :=
  if hasReference arg then expandVariables process p 0 1024 (arg.map some ++ [none]) []
  else some arg

/-! ### Arguments -/

/-- `compare_file`. -/
def compareFile (f1 f2 : Text) : Int := if f1 < f2 then -1 else if f1 = f2 then 0 else 1

/-- `qsort` of `dir_array`. Equal strings are the same, so there is only one order. -/
def sortFiles (files : List Text) : List Text := files.insertionSort fun a b => compareFile a b ≤ 0

/-- A word without wildcards. -/
def expandPlain (process : Process) (p : ShellState) (arg : Text) : Option Text :=
  if arg.head? = some '~' then tildeExpansion process p arg
  else if arg.contains '$' then environmentExpansion process p arg
  else some arg

/-- What `insert_arguments` inserts for a word. -/
def insertedArguments (process : Process) (stack : Stack) : Expander DirArray :=
  fun st p arg =>
    if hasWildcard arg.toList then do
      let st ← expandWildcards process.toDirectories stack [] arg.toList st
      if 1 < st.entries.length then
        return ((sortFiles st.entries).map String.ofList, st.free)
      else return ([arg], st)
    else do
      let newArg ← expandPlain process p arg.toList
      return ([String.ofList newArg], st)

end Cs252.Shell
