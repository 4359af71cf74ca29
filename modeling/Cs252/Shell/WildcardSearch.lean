import Cs252.Shell.Arguments

/-!
# Cs252.Shell.WildcardSearch

What `expand_wildcards` adds to `dir_array`.

Of the static variables, only the number of entries matters, and only for whether
the array can still grow (`expandWildcards_entries`). The paths that are added
depend on the prefix and the suffix alone (`search`).
-/

namespace Cs252.Shell

variable {dirs : Directories} {stack : Stack}

/-! ### The entries -/

/-- The number of entries from which on the array cannot grow. -/
def entriesLimit : Nat := 20 * 2 ^ 26

theorem fits_iff {n : Nat} : Capacity.Fits 20 (n + 1) ↔ n < entriesLimit :=
  Capacity.fits_iff (k := 26) (by decide) (by decide)

theorem grow_entries (st : DirArray) :
    st.grow.map DirArray.entries =
      if st.entries.length < entriesLimit then some st.entries else none := by
  have hle : st.entries.length ≤ st.maxEntries.size := st.fits
  have hfits := Capacity.reserve_isSome_iff (by decide) hle
  rw [fits_iff] at hfits
  unfold DirArray.grow
  split
  · next h =>
    rw [h, Option.isSome_none] at hfits
    have hnot : ¬st.entries.length < entriesLimit := fun hlt => nomatch hfits.mpr hlt
    rw [if_neg hnot, Option.map_none]
  · next h =>
    rw [h, Option.isSome_some] at hfits
    rw [if_pos (hfits.mp rfl)]
    rfl

theorem add_of_grow {st st' : DirArray} (h : st.grow = some st') (path : Text) :
    (st'.add path).map DirArray.entries = some (st.entries ++ [path]) := by
  unfold DirArray.grow at h
  split at h
  · cases h
  · next maxEntries hreserve =>
    cases h
    have hle : st.entries.length ≤ st.maxEntries.size := st.fits
    refine congrArg (Option.map _) (dif_pos (Capacity.lt_of_reserve (by decide) hle hreserve))

/-- `addEntry`, on the entries alone. -/
def addPath (expandRest : Text → List Text → Option (List Text)) (t : Taken)
    (found : Text → Bool) (entries : List Text) (name : Text) : Option (List Text) :=
  if found name then
    if entries.length < entriesLimit then
      if shown t.component name then do
        let path ← newPrefix t.pre name
        let entries' ← expandRest path entries
        return if t.slash then entries' else entries' ++ [path]
      else some entries
    else none
  else some entries

/-- `lookUp`, on the entries alone. -/
def lookUpPaths (dirs : Directories) (expandRest : Text → List Text → Option (List Text))
    (t : Taken) (entries : List Text) : Option (List Text) :=
  match dirs.regcomp (regexOf t.component), dirs.entries (directory t.pre) with
  | some found, some names => names.foldlM (addPath expandRest t found) entries
  | _, _ => some entries

/-- `expand_wildcards`, on the entries alone. -/
def expandEntries (dirs : Directories) (stack : Stack) (pre suffix : Text) (entries : List Text) :
    Option (List Text) :=
  if hne : suffix = [] then some entries
  else
    match h : takeComponent (stack pre suffix) pre suffix with
    | none => none
    | some t =>
      have := takeComponent_suffix h hne
      if hasWildcard t.component then
        lookUpPaths dirs (fun path entries => expandEntries dirs stack path t.suffix entries) t entries
      else do
        let path ← newPrefix t.pre t.component
        expandEntries dirs stack path t.suffix entries
termination_by suffix.length

section Equations

variable {pre suffix : Text} {t : Taken} {entries : List Text}

theorem expandEntries_nil : expandEntries dirs stack pre [] entries = some entries := by
  rw [expandEntries, dif_pos rfl]

theorem expandEntries_of_none (hne : suffix ≠ [])
    (h : takeComponent (stack pre suffix) pre suffix = none) :
    expandEntries dirs stack pre suffix entries = none := by
  rw [expandEntries, dif_neg hne]
  split
  · rfl
  · next ht => cases h.symm.trans ht

theorem expandEntries_of_some (hne : suffix ≠ [])
    (h : takeComponent (stack pre suffix) pre suffix = some t) :
    expandEntries dirs stack pre suffix entries =
      if hasWildcard t.component then
        lookUpPaths dirs (fun path entries => expandEntries dirs stack path t.suffix entries) t entries
      else (newPrefix t.pre t.component).bind fun path =>
        expandEntries dirs stack path t.suffix entries := by
  rw [expandEntries, dif_neg hne]
  split
  · next ht => cases ht.symm.trans h
  · next ht =>
    cases ht.symm.trans h
    rfl

end Equations

/-- A suffix is left after a slash only. -/
theorem takeComponent_slash {buffer : Buffer} {pre suffix : Text} {t : Taken}
    (h : takeComponent buffer pre suffix = some t) (hslash : t.slash = false) : t.suffix = [] := by
  have hcopy : ∀ {pre suffix}, copyComponent buffer pre suffix = some t → t.suffix = [] := by
    intro pre suffix h
    unfold copyComponent at h
    split at h
    · obtain ⟨_, _, h⟩ := Option.bind_eq_some_iff.mp h
      obtain ⟨_, _, h⟩ := Option.bind_eq_some_iff.mp h
      cases h
      cases hslash
    · obtain ⟨_, _, h⟩ := Option.bind_eq_some_iff.mp h
      obtain ⟨_, _, h⟩ := Option.bind_eq_some_iff.mp h
      cases h
      rfl
  unfold takeComponent at h
  split at h <;> exact hcopy h

/-- A loop over states that a function abstracts. -/
theorem foldlM_map {σ τ α : Type} {f : σ → α → Option σ} {f' : τ → α → Option τ} {g : σ → τ}
    (h : ∀ s a, (f s a).map g = f' (g s) a) (as : List α) (s : σ) :
    (as.foldlM f s).map g = as.foldlM f' (g s) := by
  induction as generalizing s with
  | nil => rfl
  | cons a as ih =>
    rw [List.foldlM_cons, List.foldlM_cons, ← h s a]
    cases f s a with
    | none => rfl
    | some s' => exact ih s'

variable {expandRest : Text → DirArray → Option DirArray}
  {expandRest' : Text → List Text → Option (List Text)} {t : Taken}

theorem addEntry_entries {found : Text → Bool}
    (hrest : ∀ path st, (expandRest path st).map DirArray.entries = expandRest' path st.entries)
    (hslash : t.slash = false → ∀ path st, expandRest path st = some st)
    (st : DirArray) (name : Text) :
    (addEntry expandRest t found st name).map DirArray.entries =
      addPath expandRest' t found st.entries name := by
  unfold addEntry addPath
  split
  -- the name is found: both grow at the same number of entries
  · have hgrow := grow_entries st
    cases hst : st.grow with
    | none =>
      rw [hst, Option.map_none] at hgrow
      split at hgrow
      · cases hgrow
      · next hlimit => rw [if_neg hlimit]; rfl
    | some st₁ =>
      rw [hst, Option.map_some] at hgrow
      split at hgrow
      · next hlimit =>
        have hentries : st₁.entries = st.entries := Option.some.inj hgrow
        rw [if_pos hlimit, Option.bind_eq_bind, Option.bind_some]
        split
        · cases newPrefix t.pre name with
          | none => rfl
          | some path =>
            have hpath := hrest path st₁
            rw [hentries] at hpath
            simp only [Option.bind_eq_bind, Option.bind_some, ← hpath]
            cases hs : t.slash with
            -- at the last component nothing is left to expand, so the room is still there
            | false =>
              simp only [hslash hs path st₁, Option.bind_some, Option.map_some, hentries]
              exact add_of_grow hst path
            | true =>
              cases expandRest path st₁ <;> rfl
        · exact congrArg some hentries
      · cases hgrow
  · rfl

theorem lookUp_entries
    (hrest : ∀ path st, (expandRest path st).map DirArray.entries = expandRest' path st.entries)
    (hslash : t.slash = false → ∀ path st, expandRest path st = some st) (st : DirArray) :
    (lookUp dirs expandRest t st).map DirArray.entries =
      lookUpPaths dirs expandRest' t st.entries := by
  unfold lookUp lookUpPaths
  cases dirs.regcomp (regexOf t.component) with
  | none => rfl
  | some found =>
    cases dirs.entries (directory t.pre) with
    | none => rfl
    | some names => exact foldlM_map (addEntry_entries hrest hslash) names st.alloc

/-- What is collected depends on the static variables by the entries in the array alone. -/
theorem expandWildcards_entries (pre suffix : Text) (st : DirArray) :
    (expandWildcards dirs stack pre suffix st).map DirArray.entries =
      expandEntries dirs stack pre suffix st.entries := by
  -- every call takes a part of the suffix
  induction hn : suffix.length using Nat.strongRecOn generalizing pre suffix st with
  | ind n ih =>
    by_cases hne : suffix = []
    · rw [hne, expandWildcards_nil, expandEntries_nil, Option.map_some]
    · cases ht : takeComponent (stack pre suffix) pre suffix with
      | none => rw [expandWildcards_of_none hne ht, expandEntries_of_none hne ht, Option.map_none]
      | some t =>
        have hlt := takeComponent_suffix ht hne
        rw [expandWildcards_of_some hne ht, expandEntries_of_some hne ht]
        split
        · refine lookUp_entries (fun path st => ih _ (hn ▸ hlt) path t.suffix st rfl) ?_ st
          intro hslash path st
          rw [takeComponent_slash ht hslash, expandWildcards_nil]
        · cases newPrefix t.pre t.component with
          | none => rfl
          | some path => exact ih _ (hn ▸ hlt) path t.suffix st rfl

/-- What a word with wildcards inserts and leaves, by the entries that are collected. -/
theorem insertedArguments_entries (process : Process) (stack : Stack) (p : ShellState)
    {arg : String} (hwild : hasWildcard arg.toList = true) (st : DirArray) :
    (insertedArguments process stack st p arg).map (fun r => (r.1, r.2.entries)) =
      (expandEntries process.toDirectories stack [] arg.toList st.entries).map fun entries =>
        if 1 < entries.length then ((sortFiles entries).map String.ofList, [])
        else ([arg], entries) := by
  rw [← expandWildcards_entries, insertedArguments, if_pos hwild]
  cases expandWildcards process.toDirectories stack [] arg.toList st with
  | none => rfl
  | some st' =>
    simp only [Option.bind_eq_bind, Option.bind_some, Option.map_some]
    split <;> rfl

/-! ### The paths -/

/-- The names in the directory of a prefix that a component finds. -/
def foundNames (dirs : Directories) (pre component : Text) : List Text :=
  match dirs.regcomp (regexOf component), dirs.entries (directory pre) with
  | some found, some names => names.filter fun name => found name && shown component name
  | _, _ => []

/-- The paths that `expand_wildcards` finds. -/
def search (dirs : Directories) (stack : Stack) (pre suffix : Text) : List Text :=
  if hne : suffix = [] then []
  else
    match h : takeComponent (stack pre suffix) pre suffix with
    | none => []
    | some t =>
      have := takeComponent_suffix h hne
      if hasWildcard t.component then
        (foundNames dirs t.pre t.component).flatMap fun name =>
          search dirs stack (joinPath t.pre name) t.suffix ++
            if t.slash then [] else [joinPath t.pre name]
      else search dirs stack (joinPath t.pre t.component) t.suffix
termination_by suffix.length

theorem newPrefix_eq_some {pre name path : Text} (h : newPrefix pre name = some path) :
    path = joinPath pre name := by
  unfold newPrefix printTo at h
  split at h <;> cases h
  rfl

section Found

variable {pre suffix : Text} {t : Taken} {entries entries' : List Text}

theorem search_nil : search dirs stack pre [] = [] := by
  rw [search, dif_pos rfl]

theorem search_of_some (hne : suffix ≠ [])
    (h : takeComponent (stack pre suffix) pre suffix = some t) :
    search dirs stack pre suffix =
      if hasWildcard t.component then
        (foundNames dirs t.pre t.component).flatMap fun name =>
          search dirs stack (joinPath t.pre name) t.suffix ++
            if t.slash then [] else [joinPath t.pre name]
      else search dirs stack (joinPath t.pre t.component) t.suffix := by
  rw [search, dif_neg hne]
  split
  · next ht => cases ht.symm.trans h
  · next ht =>
    cases ht.symm.trans h
    rfl

variable {expandRest : Text → List Text → Option (List Text)} {rest : Text → List Text}
  {found : Text → Bool}

theorem addPath_eq_some {name : Text}
    (hrest : ∀ path entries entries', expandRest path entries = some entries' →
      entries' = entries ++ rest path)
    (h : addPath expandRest t found entries name = some entries') :
    entries' = entries ++ if found name && shown t.component name then
      rest (joinPath t.pre name) ++ if t.slash then [] else [joinPath t.pre name] else [] := by
  unfold addPath at h
  cases hfound : found name with
  | false =>
    rw [hfound] at h
    rw [Bool.false_and, if_neg Bool.false_ne_true, List.append_nil]
    exact (Option.some.inj h).symm
  | true =>
    rw [hfound, if_pos rfl] at h
    rw [Bool.true_and]
    split at h
    · split at h
      · next hshown =>
        obtain ⟨path, hpath, h⟩ := Option.bind_eq_some_iff.mp h
        obtain ⟨entries₁, hentries, h⟩ := Option.bind_eq_some_iff.mp h
        cases newPrefix_eq_some hpath
        cases hrest _ _ _ hentries
        rw [if_pos hshown]
        cases hs : t.slash with
        | false =>
          simp only [hs, Bool.false_eq_true, if_false] at h ⊢
          rw [← List.append_assoc]
          exact (Option.some.inj h).symm
        | true =>
          simp only [hs, if_true, List.append_nil] at h ⊢
          exact (Option.some.inj h).symm
      · next hshown =>
        rw [if_neg hshown, List.append_nil]
        exact (Option.some.inj h).symm
    · cases h

theorem addPaths_eq_some {names : List Text}
    (hrest : ∀ path entries entries', expandRest path entries = some entries' →
      entries' = entries ++ rest path)
    (h : names.foldlM (addPath expandRest t found) entries = some entries') :
    entries' = entries ++ (names.filter fun name => found name && shown t.component name).flatMap
      fun name => rest (joinPath t.pre name) ++ if t.slash then [] else [joinPath t.pre name] := by
  induction names generalizing entries with
  | nil => exact (Option.some.inj h).symm.trans (List.append_nil _).symm
  | cons name names ih =>
    rw [List.foldlM_cons] at h
    obtain ⟨entries₁, hname, h⟩ := Option.bind_eq_some_iff.mp h
    rw [ih h, addPath_eq_some hrest hname, List.append_assoc, List.filter_cons]
    split
    · rw [List.flatMap_cons]
    · rw [List.nil_append]

theorem lookUpPaths_eq_some
    (hrest : ∀ path entries entries', expandRest path entries = some entries' →
      entries' = entries ++ rest path)
    (h : lookUpPaths dirs expandRest t entries = some entries') :
    entries' = entries ++ (foundNames dirs t.pre t.component).flatMap
      fun name => rest (joinPath t.pre name) ++ if t.slash then [] else [joinPath t.pre name] := by
  unfold lookUpPaths at h
  unfold foundNames
  cases hfound : dirs.regcomp (regexOf t.component) with
  | none =>
    rw [hfound] at h
    exact (Option.some.inj h).symm.trans (List.append_nil _).symm
  | some found =>
    cases hnames : dirs.entries (directory t.pre) with
    | none =>
      rw [hfound, hnames] at h
      exact (Option.some.inj h).symm.trans (List.append_nil _).symm
    | some names =>
      rw [hfound, hnames] at h
      exact addPaths_eq_some hrest h

/-- The paths that are added are those of the search. -/
theorem expandEntries_eq_some (h : expandEntries dirs stack pre suffix entries = some entries') :
    entries' = entries ++ search dirs stack pre suffix := by
  induction hn : suffix.length using Nat.strongRecOn generalizing pre suffix entries entries' with
  | ind n ih =>
    by_cases hne : suffix = []
    · rw [hne, expandEntries_nil] at h
      rw [hne, search_nil, List.append_nil, Option.some.inj h]
    · cases ht : takeComponent (stack pre suffix) pre suffix with
      | none => rw [expandEntries_of_none hne ht] at h; cases h
      | some t =>
        have hlt := takeComponent_suffix ht hne
        rw [expandEntries_of_some hne ht] at h
        rw [search_of_some hne ht]
        split at h
        · next hwild =>
          rw [if_pos hwild]
          exact lookUpPaths_eq_some (fun path _ _ h => ih _ (hn ▸ hlt) h rfl) h
        · next hwild =>
          rw [if_neg hwild]
          obtain ⟨path, hpath, h⟩ := Option.bind_eq_some_iff.mp h
          cases newPrefix_eq_some hpath
          exact ih _ (hn ▸ hlt) h rfl

end Found

end Cs252.Shell
