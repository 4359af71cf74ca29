import Cs252.Shell.Arguments

/-!
# Cs252.Shell.Substitution

What `environment_expansion` makes of a word.

The words are concatenations of parts: literal text, and references to
variables. `expanded` substitutes the values and is undefined when a variable is
not set, as the loop is, which copies from a null pointer then. `substituted` is
the substitution one would expect, with the empty string for such a variable.

The loop writes terminators into the memory it scans, in place of the `}` it has
passed. What is still to be scanned is the rest of the word
(`expandVariables_parts`).
-/

namespace Cs252.Shell

/-! ### Words of parts -/

/-- A part of a word. -/
inductive WordPart
  | literal (text : Text)
  | reference (name : Text)
  deriving Repr, DecidableEq

namespace WordPart

/-- The part as it stands in the word. -/
def text : WordPart → Text
  | .literal text => text
  | .reference name => '$' :: '{' :: (name ++ ['}'])

/-- The names with a meaning of their own. -/
def specialNames : List Text :=
  ["SHELL".toList, "SH".toList, ['$'], ['!'], ['?'], ['_']]

/-- Literal text without the characters that are looked for, or a reference to a
variable of the environment. -/
def Ok : WordPart → Prop
  | .literal text => ∀ c ∈ text, c ≠ '$' ∧ c ≠ '{' ∧ c ≠ '}' ∧ c ≠ '\\'
  | .reference name => name ≠ [] ∧ '}' ∉ name ∧ name ∉ specialNames

instance : DecidablePred Ok
  | .literal text =>
    inferInstanceAs (Decidable (∀ c ∈ text, c ≠ '$' ∧ c ≠ '{' ∧ c ≠ '}' ∧ c ≠ '\\'))
  | .reference name =>
    inferInstanceAs (Decidable (name ≠ [] ∧ '}' ∉ name ∧ name ∉ specialNames))

/-- What stands for the part, if it can be had. -/
def value (p : ShellState) : WordPart → Option Text
  | .literal text => some text
  | .reference name => getenv p name

/-- The part is a reference. -/
def isReference : WordPart → Bool
  | .literal _ => false
  | .reference _ => true

end WordPart

/-- The word of the parts. -/
def wordText (parts : List WordPart) : Text := parts.flatMap WordPart.text

/-- The word with the values of the variables, when all of them are set. -/
def expanded (p : ShellState) : List WordPart → Option Text
  | [] => some []
  | part :: parts => do
    let value ← part.value p
    let rest ← expanded p parts
    return value ++ rest

/-- The word with the values of the variables, the empty string for one that is not set. -/
def substituted (p : ShellState) (parts : List WordPart) : Text :=
  parts.flatMap fun part => (part.value p).getD []

section Pieces

variable {process : Process} {p : ShellState} {parts : List WordPart} {text name rest : Text}

theorem expanded_eq_some_iff {result : Text} :
    expanded p parts = some result ↔
      (∀ part ∈ parts, part.value p ≠ none) ∧ result = substituted p parts := by
  induction parts generalizing result with
  | nil => simp [expanded, substituted, eq_comm]
  | cons part parts ih =>
    rw [expanded, List.forall_mem_cons]
    cases hvalue : part.value p with
    | none => simp
    | some value =>
      simp only [Option.bind_eq_bind, Option.bind_some, Option.bind_eq_some_iff, Option.pure_def,
        Option.some.injEq, ih, substituted, List.flatMap_cons, hvalue, Option.getD_some]
      constructor
      · rintro ⟨_, ⟨hset, rfl⟩, rfl⟩
        exact ⟨⟨Option.some_ne_none _, hset⟩, rfl⟩
      · rintro ⟨⟨-, hset⟩, rfl⟩
        exact ⟨_, ⟨hset, rfl⟩, rfl⟩

/-! ### References are recognised -/

theorem hasReference_literal (htext : '$' ∉ text) : hasReference (text ++ rest) = hasReference rest := by
  induction text with
  | nil => rfl
  | cons c text ih =>
    obtain ⟨hc, htext⟩ := not_or.mp (mt List.mem_cons.mpr htext)
    rw [List.cons_append, hasReference, ih htext]
    intro _ hdollar _
    exact hc hdollar.symm

theorem hasReference_wordText (hok : ∀ part ∈ parts, part.Ok) :
    hasReference (wordText parts) = parts.any WordPart.isReference := by
  induction parts with
  | nil => rfl
  | cons part parts ih =>
    obtain ⟨hpart, hok⟩ := List.forall_mem_cons.mp hok
    rw [wordText, List.flatMap_cons, ← wordText, List.any_cons, ← ih hok]
    cases part with
    | literal text =>
      rw [WordPart.text, hasReference_literal fun h => (hpart '$' h).1 rfl]
      rfl
    | reference name => simp [WordPart.text, WordPart.isReference, hasReference]

/-! ### One part -/

/-- What does not fit after some text does not fit after more. -/
theorem printTo_bind {β : Type} (envArg text : Text) (f : Text → Option β) :
    ((printTo 1024 envArg).bind fun envArg => (printTo 1024 (envArg ++ text)).bind f) =
      (printTo 1024 (envArg ++ text)).bind f := by
  by_cases h : envArg.length < 1024
  · rw [printTo, if_pos h]
    rfl
  · have h' : ¬(envArg ++ text).length < 1024 := by
      rw [List.length_append]
      omega
    rw [printTo, printTo, if_neg h, if_neg h']
    rfl

theorem strchr_append {c : Char} {cells : List (Option Char)} (htext : c ∉ text) :
    strchr c (text.map some ++ some c :: cells) = some text.length := by
  induction text with
  | nil => simp [strchr]
  | cons d text ih =>
    obtain ⟨hc, htext⟩ := not_or.mp (mt List.mem_cons.mpr htext)
    rw [List.map_cons, List.cons_append, strchr, if_neg (Ne.symm hc), ih htext]
    rfl

variable {done cells : List (Option Char)} {maxLength : Nat} {envArg : Text}

/-- A character of literal text is copied. -/
theorem expandVariables_literal {c : Char} {i : Nat} {temp : List (Option Char)}
    (hi : temp[i]? = some (some c)) (hdollar : c ≠ '$') (hslash : c ≠ '\\') :
    expandVariables process p i maxLength temp envArg =
      (printTo 1024 (envArg ++ [c])).bind fun envArg =>
        expandVariables process p (i + 1) (if i = maxLength then maxLength * 2 else maxLength)
          temp envArg := by
  rw [expandVariables]
  split
  · next h' => cases hi.symm.trans h'
  · next h' => cases hi.symm.trans h'
  · next c' h' =>
    cases hi.symm.trans h'
    rw [if_neg hdollar, if_neg hslash]
    rfl

/-- Literal text is copied as it is. -/
theorem expandVariables_text (process : Process) (p : ShellState)
    (hok : (WordPart.literal text).Ok) (done cells : List (Option Char))
    (maxLength : Nat) (envArg : Text) :
    ∃ maxLength', (printTo 1024 envArg).bind
        (expandVariables process p done.length maxLength (done ++ (text.map some ++ cells))) =
      (printTo 1024 (envArg ++ text)).bind
        (expandVariables process p (done ++ text.map some).length maxLength'
          ((done ++ text.map some) ++ cells)) := by
  induction text generalizing done maxLength envArg with
  | nil => exact ⟨maxLength, by simp⟩
  | cons c text ih =>
    obtain ⟨hc, htext⟩ := List.forall_mem_cons.mp hok
    have hi : (done ++ ((c :: text).map some ++ cells))[done.length]? = some (some c) := by simp
    have hstep : expandVariables process p done.length maxLength
          (done ++ ((c :: text).map some ++ cells)) = fun envArg =>
        (printTo 1024 (envArg ++ [c])).bind fun envArg =>
          expandVariables process p (done.length + 1)
            (if done.length = maxLength then maxLength * 2 else maxLength)
            (done ++ ((c :: text).map some ++ cells)) envArg :=
      funext fun envArg => expandVariables_literal hi hc.1 hc.2.2.2
    obtain ⟨maxLength', heq⟩ := ih htext (done ++ [some c])
      (if done.length = maxLength then maxLength * 2 else maxLength) (envArg ++ [c])
    refine ⟨maxLength', ?_⟩
    rw [hstep, printTo_bind]
    simpa using heq

/-- The name of a reference, with its end marked in memory. -/
theorem takeName_reference (hok : (WordPart.reference name).Ok) (done cells : List (Option Char)) :
    takeName (done ++ ((WordPart.reference name).text.map some ++ cells)) done.length =
      some (name, done ++ (('$' :: '{' :: name).map some ++ none :: cells)) := by
  have hcells : (WordPart.reference name).text.map some ++ cells =
      ('$' :: '{' :: name).map some ++ some '}' :: cells := by simp [WordPart.text]
  have hhead : strchr '{' (('$' :: '{' :: name).map some ++ some '}' :: cells) = some 1 := by
    simp [strchr]
  have htail : strchr '}' (('$' :: '{' :: name).map some ++ some '}' :: cells) =
      some ('$' :: '{' :: name).length := by
    refine strchr_append fun hmem => ?_
    simp [hok.2.1] at hmem
  have hset : (done ++ (('$' :: '{' :: name).map some ++ some '}' :: cells)).set
        (done.length + ('$' :: '{' :: name).length) none =
      done ++ (('$' :: '{' :: name).map some ++ none :: cells) := by
    simp
  have hname : readText ((done ++ (('$' :: '{' :: name).map some ++ none :: cells)).drop
      (done.length + 1 + 1)) = some name := by
    rw [Nat.add_assoc, ← List.drop_drop, List.drop_left]
    exact readText_append name cells
  rw [hcells, takeName, List.drop_left, hhead, htail]
  simp only [hset, hname, Option.bind_eq_bind, Option.bind_some, Option.pure_def]

theorem variableText_of_ok (hok : (WordPart.reference name).Ok) (maxLength : Nat) :
    variableText process p maxLength name = getenv p name := by
  obtain ⟨hshell, hsh, hpid, hlast, hreturn, hunderscore, -⟩ :
      name ≠ "SHELL".toList ∧ name ≠ "SH".toList ∧ name ≠ ['$'] ∧ name ≠ ['!'] ∧ name ≠ ['?'] ∧
        name ≠ ['_'] ∧ True := by
    simpa [WordPart.specialNames] using hok.2.2
  rw [variableText, if_neg (not_or.mpr ⟨hshell, hsh⟩), if_neg hpid, if_neg hlast, if_neg hreturn,
    if_neg hunderscore]

/-- A reference is replaced by the value of the variable. -/
theorem expandVariables_reference (process : Process) (p : ShellState)
    (hok : (WordPart.reference name).Ok)
    (done cells : List (Option Char)) (maxLength : Nat) (envArg : Text) :
    ∃ maxLength' done', (printTo 1024 envArg).bind
        (expandVariables process p done.length maxLength
          (done ++ ((WordPart.reference name).text.map some ++ cells))) =
      (getenv p name).bind fun final => (printTo 1024 (envArg ++ final)).bind
        (expandVariables process p (List.length done') maxLength' (done' ++ cells)) := by
  have hi : (done ++ ((WordPart.reference name).text.map some ++ cells))[done.length]? =
      some (some '$') := by simp [WordPart.text]
  have hstep : expandVariables process p done.length maxLength
        (done ++ ((WordPart.reference name).text.map some ++ cells)) = fun envArg =>
      (getenv p name).bind fun final => (printTo 1024 (envArg ++ final)).bind fun envArg =>
        expandVariables process p (done.length + name.length + 3)
          (if done.length = maxLength then maxLength * 2 else maxLength)
          (done ++ (('$' :: '{' :: name).map some ++ none :: cells)) envArg := by
    funext envArg
    rw [expandVariables_variable hi (takeName_reference hok done cells)]
    simp only [variableText_of_ok hok]
  refine ⟨if done.length = maxLength then maxLength * 2 else maxLength,
    done ++ (('$' :: '{' :: name).map some ++ [none]), ?_⟩
  rw [hstep, Option.bind_comm]
  congr 1
  funext final
  rw [printTo_bind]
  simp [Nat.add_assoc]

/-- **The rest of the word** is expanded after what has been copied. -/
theorem expandVariables_parts (hok : ∀ part ∈ parts, part.Ok) (done : List (Option Char))
    (maxLength : Nat) (envArg : Text) :
    (printTo 1024 envArg).bind
        (expandVariables process p done.length maxLength
          (done ++ ((wordText parts).map some ++ [none]))) =
      (expanded p parts).bind fun rest => printTo 1024 (envArg ++ rest) := by
  induction parts generalizing done maxLength envArg with
  | nil =>
    have hend : expandVariables process p done.length maxLength
        (done ++ ((wordText []).map some ++ [none])) = some := by
      funext envArg
      exact expandVariables_end (by simp [wordText])
    rw [hend]
    simp [expanded]
  | cons part parts ih =>
    obtain ⟨hpart, hrest⟩ := List.forall_mem_cons.mp hok
    have hword : (wordText (part :: parts)).map some ++ [none] =
        part.text.map some ++ ((wordText parts).map some ++ [none]) := by
      simp [wordText]
    rw [hword, expanded]
    cases part with
    | literal text =>
      obtain ⟨maxLength', heq⟩ := expandVariables_text process p hpart done
        ((wordText parts).map some ++ [none]) maxLength envArg
      rw [WordPart.text, heq, ih hrest]
      simp [WordPart.value, List.append_assoc, Option.bind_assoc]
    | reference name =>
      obtain ⟨maxLength', done', heq⟩ := expandVariables_reference process p
        hpart done ((wordText parts).map some ++ [none]) maxLength envArg
      rw [heq]
      simp only [ih hrest, WordPart.value, Option.bind_eq_bind, Option.bind_assoc]
      congr 1
      funext value
      simp [List.append_assoc]

/-- What the function returns, with `none` for a fault. -/
theorem environmentExpansion_wordText (hok : ∀ part ∈ parts, part.Ok) :
    environmentExpansion process p (wordText parts) =
      if parts.any WordPart.isReference then (expanded p parts).bind (printTo 1024)
      else some (wordText parts) := by
  rw [environmentExpansion, hasReference_wordText hok]
  by_cases href : parts.any WordPart.isReference = true
  · rw [if_pos href, if_pos href]
    -- nothing has been copied yet
    exact expandVariables_parts hok [] 1024 []
  · rw [if_neg href, if_neg href]

/-- A word without references stands for itself. -/
theorem wordText_of_literals (h : ∀ part ∈ parts, part.isReference = false) :
    wordText parts = substituted p parts := by
  rw [wordText, substituted]
  refine List.flatMap_congr fun part hpart => ?_
  cases part with
  | literal text => rfl
  | reference name => cases h _ hpart

theorem values_iff :
    (∀ part ∈ parts, part.value p ≠ none) ↔
      ∀ name, WordPart.reference name ∈ parts → getenv p name ≠ none := by
  constructor
  · intro h name hmem
    exact h _ hmem
  · intro h part hmem
    cases part with
    | literal text => exact Option.some_ne_none _
    | reference name => exact h name hmem

/-- **Environment expansion is substitution** exactly when the word has no reference, or
all its variables are set and the result is shorter than the array on the stack. -/
theorem environmentExpansion_iff (hok : ∀ part ∈ parts, part.Ok) :
    environmentExpansion process p (wordText parts) = some (substituted p parts) ↔
      (∀ part ∈ parts, part.isReference = false) ∨
      ((∀ name, WordPart.reference name ∈ parts → getenv p name ≠ none) ∧
        (substituted p parts).length < 1024) := by
  rw [environmentExpansion_wordText hok]
  by_cases href : parts.any WordPart.isReference = true
  · have hsome : ¬∀ part ∈ parts, part.isReference = false := by
      obtain ⟨part, hmem, hpart⟩ := List.any_eq_true.mp href
      intro hnone
      rw [hnone part hmem] at hpart
      cases hpart
    rw [if_pos href, or_iff_right hsome, ← values_iff, Option.bind_eq_some_iff]
    constructor
    · rintro ⟨result, hresult, hprint⟩
      obtain ⟨hset, rfl⟩ := expanded_eq_some_iff.mp hresult
      refine ⟨hset, ?_⟩
      by_contra hlong
      rw [printTo, if_neg hlong] at hprint
      cases hprint
    · rintro ⟨hset, hlen⟩
      exact ⟨_, expanded_eq_some_iff.mpr ⟨hset, rfl⟩, if_pos hlen⟩
  · have hnone : ∀ part ∈ parts, part.isReference = false := fun part hmem =>
      Bool.not_eq_true _ ▸ fun hpart => href (List.any_eq_true.mpr ⟨part, hmem, hpart⟩)
    rw [if_neg href, wordText_of_literals (p := p) hnone]
    exact iff_of_true rfl (Or.inl hnone)

end Pieces

/-! ### A small environment -/

/-- A process that finds no file and no user. -/
def bareProcess : Process where
  entries _ := none
  regcomp _ := none
  nodup _ _ h := nomatch h
  proper _ _ h := nomatch h
  pid := 1
  cwd := none
  pwDir _ := none
  usable n := n
  le_usable _ := Nat.le_refl _

/-- A shell with one variable set. -/
def withVariable (name value : String) : ShellState :=
  { newShell [] with env := fun var => if var = name then some value else none }

/-- A reference to a variable that is set, between literal text. -/
theorem environmentExpansion_iff_user :
    environmentExpansion bareProcess (withVariable "USER" "ann") "to $\x7bUSER\x7d.".toList =
      some "to ann.".toList := by
  have hok : ∀ part ∈ [WordPart.literal "to ".toList, .reference "USER".toList,
      .literal ".".toList], part.Ok := by simp [WordPart.Ok, WordPart.specialNames]
  refine (environmentExpansion_iff hok).mpr (Or.inr ⟨fun name hmem => ?_, by decide⟩)
  obtain rfl : name = "USER".toList := by simpa using hmem
  decide

/-- A variable that is not set is copied from a null pointer, and a value of 1024
characters does not fit the array. -/
theorem environmentExpansion_faults :
    environmentExpansion bareProcess (newShell []) "$\x7bX\x7d".toList = none ∧
    (∀ name, getenv (newShell []) name = none) ∧
    substituted (newShell []) [.reference "X".toList] = [] ∧
    environmentExpansion bareProcess (withVariable "X" (String.ofList (List.replicate 1024 'a')))
      "$\x7bX\x7d".toList = none := by
  have hok : ∀ part ∈ [WordPart.reference "X".toList], part.Ok := by decide
  have hword : "$\x7bX\x7d".toList = wordText [.reference "X".toList] := by decide
  have hlong : ∀ value : String, 1024 ≤ value.toList.length →
      environmentExpansion bareProcess (withVariable "X" value) "$\x7bX\x7d".toList = none := by
    intro value hlen
    have hvalue : expanded (withVariable "X" value) [.reference "X".toList] = some value.toList := by
      simp [expanded, WordPart.value, getenv, withVariable]
    rw [hword, environmentExpansion_wordText hok, if_pos (by decide), hvalue]
    exact if_neg (Nat.not_lt.mpr hlen)
  refine ⟨?_, fun name => rfl, rfl, hlong _ ?_⟩
  · rw [hword, environmentExpansion_wordText hok]
    rfl
  · rw [String.toList_ofList, List.length_replicate]

end Cs252.Shell
