import Cs252.Lib.Doubling

/-!
# Cs252.Shell.Wildcards

`expand_wildcards` of `lab3-src/shell.y`.

The function takes the components of a path one after the other. A component
without wildcards goes to the prefix as it is, one with wildcards is looked up in
the directory that the prefix names. What is found goes to the static array
`dir_array`, at the last component only, and only if that has wildcards.

A component is copied to an array on the stack, and `strncpy` leaves that without
a terminator. What the array holds before is a parameter (`Stack`), for each call.
Memory is a list of cells, where `none` is the terminator; a string that runs off
the end of its memory, or does not fit it, is a fault, and so is a capacity that
does not fit an `int`. The fault ends the process (`none`).
-/

namespace Cs252.Shell

/-- A string, without its terminator. -/
abbrev Text : Type := List Char

/-! ### What a word is expanded against -/

/-- The directories, and the regular expressions of the C library. -/
structure Directories where
  /-- The entries that `readdir` returns for a directory that `opendir` can open. -/
  entries : Text → Option (List Text)
  /-- The names that a regular expression matches, if `regcomp` can compile it. -/
  regcomp : Text → Option (Text → Bool)
  nodup : ∀ path names, entries path = some names → names.Nodup
  /-- `d_name` is an array of 256 characters. -/
  proper : ∀ path names, entries path = some names → ∀ name ∈ names,
    name ≠ [] ∧ '/' ∉ name ∧ name.length < 256

/-- `MAX_FILENAME`. -/
def maxFilename : Nat := 1024

/-- The array `component` before anything is stored in it. -/
structure Buffer where
  cells : List (Option Char)
  length_eq : cells.length = maxFilename

/-- What the stack holds when `expand_wildcards` is called with a prefix and a suffix. -/
abbrev Stack : Type := Text → Text → Buffer

/-! ### Strings in memory -/

/-- The string at the beginning of memory. -/
def readText : List (Option Char) → Option Text
  | [] => none
  | none :: _ => some []
  | some c :: cells => (readText cells).map (c :: ·)

theorem readText_append (text : Text) (cells : List (Option Char)) :
    readText (text.map some ++ none :: cells) = some text := by
  induction text with
  | nil => rfl
  | cons c text ih => rw [List.map_cons, List.cons_append, readText, ih, Option.map_some]

theorem readText_map_some (text : Text) : readText (text.map some) = none := by
  induction text with
  | nil => rfl
  | cons c text ih => rw [List.map_cons, readText, ih, Option.map_none]

/-- `strcpy`. -/
def strcpy (cells : List (Option Char)) (text : Text) : Option (List (Option Char)) :=
  if text.length < cells.length then
    some (text.map some ++ none :: cells.drop (text.length + 1))
  else none

/-- `strncpy`, of no more characters than there are. -/
def strncpy (cells : List (Option Char)) (text : Text) (n : Nat) : Option (List (Option Char)) :=
  if n ≤ cells.length then some ((text.take n).map some ++ cells.drop n) else none

/-- `sprintf` to `new_prefix`. -/
def printTo (size : Nat) (text : Text) : Option Text :=
  if text.length < size then some text else none

/-! ### The static variables -/

/-- The static variables `max_entries`, `num_entries` and `dir_array`. The number
of entries is the length of the list. -/
structure DirArray where
  maxEntries : Capacity 20
  dirArray : Option (List Text)
  fits : (dirArray.getD []).length ≤ maxEntries.size

namespace DirArray

/-- The entries in the array. -/
def entries (st : DirArray) : List Text := st.dirArray.getD []

/-- At the start of the shell. -/
def start : DirArray := ⟨.start (by decide), none, Nat.zero_le _⟩

/-- Allocate the array, if it is not. -/
def alloc (st : DirArray) : DirArray := ⟨st.maxEntries, some st.entries, st.fits⟩

/-- Room for another entry. -/
def grow (st : DirArray) : Option DirArray :=
  match h : st.maxEntries.reserve st.entries.length with
  | none => none
  | some maxEntries =>
    some ⟨maxEntries, st.dirArray, Nat.le_of_lt (Capacity.lt_of_reserve (by decide) st.fits h)⟩

/-- `dir_array[num_entries] = path; num_entries++`. -/
def add (st : DirArray) (path : Text) : Option DirArray :=
  if h : st.entries.length < st.maxEntries.size then
    some ⟨st.maxEntries, some (st.entries ++ [path]), by rw [Option.getD_some, List.length_append]; exact h⟩
  else none

/-- Free the array. -/
def free (st : DirArray) : DirArray := ⟨st.maxEntries, none, Nat.zero_le _⟩

end DirArray

/-! ### The function -/

/-- A string with `*` or `?` in it. -/
def hasWildcard (text : Text) : Bool := text.contains '*' || text.contains '?'

/-- The regular expression for a character. -/
def regexChar (c : Char) : Text :=
  if c = '*' then ['.', '*'] else if c = '?' then ['.'] else if c = '.' then ['\\', '.'] else [c]

/-- The regular expression for a component. -/
def regexOf (component : Text) : Text := '^' :: component.flatMap regexChar ++ ['$']

/-- What the function takes from the suffix. -/
structure Taken where
  pre : Text
  component : Text
  suffix : Text
  /-- `s != NULL`: a slash follows the component. -/
  slash : Bool

/-- The component up to the first slash, if there is one. -/
def copyComponent (buffer : Buffer) (pre suffix : Text) : Option Taken :=
  match suffix.idxOf? '/' with
  | some n => do
    -- `strncpy` writes no terminator: what was on the stack goes on after the component
    let component ← readText (← strncpy buffer.cells suffix n)
    return ⟨pre, component, suffix.drop (n + 1), true⟩
  | none => do
    let component ← readText (← strcpy buffer.cells suffix)
    return ⟨pre, component, [], false⟩

/-- The beginning of the function: a slash at the start of a path, and then the
component. -/
def takeComponent (buffer : Buffer) (pre suffix : Text) : Option Taken :=
  match pre, suffix with
  | [], '/' :: rest => copyComponent buffer ['/'] rest
  | _, _ => copyComponent buffer pre suffix

/-- The path of a name after a prefix. -/
def joinPath (pre name : Text) : Text :=
  if pre = [] then name else if pre = ['/'] then '/' :: name else pre ++ '/' :: name

/-- `new_prefix`. -/
def newPrefix (pre name : Text) : Option Text := printTo maxFilename (joinPath pre name)

/-- The name is not hidden, or the component asks for hidden ones. -/
def shown (component name : Text) : Bool := name.head? ≠ some '.' || component.head? = some '.'

theorem copyComponent_suffix {buffer : Buffer} {pre suffix : Text} {t : Taken}
    (h : copyComponent buffer pre suffix = some t) : t.suffix.length ≤ suffix.length - 1 := by
  unfold copyComponent at h
  split at h
  · obtain ⟨_, _, h⟩ := Option.bind_eq_some_iff.mp h
    obtain ⟨_, _, h⟩ := Option.bind_eq_some_iff.mp h
    cases h
    rw [List.length_drop]
    omega
  · obtain ⟨_, _, h⟩ := Option.bind_eq_some_iff.mp h
    obtain ⟨_, _, h⟩ := Option.bind_eq_some_iff.mp h
    cases h
    exact Nat.zero_le _

theorem takeComponent_suffix {buffer : Buffer} {pre suffix : Text} {t : Taken}
    (h : takeComponent buffer pre suffix = some t) (hne : suffix ≠ []) :
    t.suffix.length < suffix.length := by
  have hpos := List.length_pos_iff.mpr hne
  unfold takeComponent at h
  split at h
  · have := copyComponent_suffix h
    rw [List.length_cons]
    omega
  · have := copyComponent_suffix h
    omega

/-- One round of the loop over the directory; `expandRest` expands the rest of the
suffix after a prefix. -/
def addEntry (expandRest : Text → DirArray → Option DirArray) (t : Taken) (found : Text → Bool)
    (st : DirArray) (name : Text) : Option DirArray :=
  if found name then do
    -- the array grows before the name is known to be shown
    let st ← st.grow
    if shown t.component name then do
      let path ← newPrefix t.pre name
      let st ← expandRest path st
      if t.slash then some st else st.add path
    else some st
  else some st

/-- The directory that a prefix names. -/
def directory (pre : Text) : Text := if pre = [] then ['.'] else pre

/-- Look up a component with wildcards. -/
def lookUp (dirs : Directories) (expandRest : Text → DirArray → Option DirArray) (t : Taken)
    (st : DirArray) : Option DirArray :=
  match dirs.regcomp (regexOf t.component), dirs.entries (directory t.pre) with
  | some found, some names => names.foldlM (addEntry expandRest t found) st.alloc
  -- the expression cannot be compiled, or the directory not be opened
  | _, _ => some st

/-- `expand_wildcards`. -/
def expandWildcards (dirs : Directories) (stack : Stack) (pre suffix : Text) (st : DirArray) :
    Option DirArray :=
  if hne : suffix = [] then some st
  else
    match h : takeComponent (stack pre suffix) pre suffix with
    | none => none
    | some t =>
      have := takeComponent_suffix h hne
      if hasWildcard t.component then
        lookUp dirs (fun path st => expandWildcards dirs stack path t.suffix st) t st
      else do
        let path ← newPrefix t.pre t.component
        expandWildcards dirs stack path t.suffix st
termination_by suffix.length

section Equations

variable {dirs : Directories} {stack : Stack} {pre suffix : Text} {t : Taken} {st : DirArray}

theorem expandWildcards_nil : expandWildcards dirs stack pre [] st = some st := by
  rw [expandWildcards, dif_pos rfl]

theorem expandWildcards_of_none (hne : suffix ≠ [])
    (h : takeComponent (stack pre suffix) pre suffix = none) :
    expandWildcards dirs stack pre suffix st = none := by
  rw [expandWildcards, dif_neg hne]
  split
  · rfl
  · next ht => cases h.symm.trans ht

theorem expandWildcards_of_some (hne : suffix ≠ [])
    (h : takeComponent (stack pre suffix) pre suffix = some t) :
    expandWildcards dirs stack pre suffix st =
      if hasWildcard t.component then
        lookUp dirs (fun path st => expandWildcards dirs stack path t.suffix st) t st
      else (newPrefix t.pre t.component).bind fun path =>
        expandWildcards dirs stack path t.suffix st := by
  rw [expandWildcards, dif_neg hne]
  split
  · next ht => cases ht.symm.trans h
  · next ht =>
    cases ht.symm.trans h
    rfl

end Equations

end Cs252.Shell
