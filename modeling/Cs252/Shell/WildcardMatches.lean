import Cs252.Lib.Glob
import Cs252.Shell.WildcardSearch
import Mathlib.Data.Char
import Mathlib.Data.List.Lex
import Mathlib.Data.List.Nodup

/-!
# Cs252.Shell.WildcardMatches

Which paths a word with wildcards stands for, and when `insert_arguments` inserts
them.

A component that a slash follows is copied without a terminator, so what the
stack held before becomes a part of it. Of the words with a single component, the
code takes a match only if there are two at least.
-/

namespace Cs252.Shell

/-! ### The paths of a word -/

/-- What a character of a component stands for. -/
def piece (c : Char) : Glob.Piece Char := if c = '*' then .star else if c = '?' then .any else .one c

/-- The pattern that a component spells. -/
def pattern (component : Text) : List (Glob.Piece Char) := component.map piece

/-- A name matches a component. Only a component that begins with a dot matches
hidden names. -/
def NameMatches (component name : Text) : Prop :=
  Glob.Matches (pattern component) name ∧ shown component name = true

instance (component name : Text) : Decidable (NameMatches component name) :=
  inferInstanceAs (Decidable (_ ∧ _))

/-- A path that exists after a prefix, and matches component by component. -/
inductive PathMatches (dirs : Directories) : Text → List Text → Text → Prop
  | nil {pre : Text} : PathMatches dirs pre [] pre
  | cons {pre component name path : Text} {components names : List Text} :
      dirs.entries (directory pre) = some names → name ∈ names → NameMatches component name →
      PathMatches dirs (joinPath pre name) components path →
      PathMatches dirs pre (component :: components) path

/-- A path that exists and matches a word. -/
def WordMatches (dirs : Directories) (word path : Text) : Prop :=
  match word with
  | '/' :: rest => PathMatches dirs ['/'] (rest.splitOn '/') path
  | _ => PathMatches dirs [] (word.splitOn '/') path

/-- The arguments for a word: the paths that match, each once and in the order of
`strcmp`, or the word itself if there is none. -/
structure Expansion (dirs : Directories) (word : Text) (arguments : List Text) : Prop where
  paths : (∃ path, WordMatches dirs word path) → ∀ path, path ∈ arguments ↔ WordMatches dirs word path
  sorted : arguments.Pairwise (· < ·)
  word : (¬∃ path, WordMatches dirs word path) → arguments = [word]

/-- Whatever is on the stack, `insert_arguments` inserts the arguments for a word. -/
def Expands (process : Process) (word : Text) : Prop :=
  ∀ stack st p, st.entries = [] → ∃ arguments st',
    insertedArguments process stack st p (String.ofList word) =
        some (arguments.map String.ofList, st') ∧
      Expansion process.toDirectories word arguments

/-! ### Words of one component -/

/-- A word of one component, after a slash or not. -/
inductive OneComponent : Text → Text → Text → Prop
  | relative {component : Text} : '/' ∉ component → OneComponent component [] component
  | absolute {component : Text} : '/' ∉ component → OneComponent ('/' :: component) ['/'] component

/-- The array can grow whenever a name is found. -/
def CanGrow (dirs : Directories) (pre component : Text) : Prop :=
  ∀ found names before name after, dirs.regcomp (regexOf component) = some found →
    dirs.entries (directory pre) = some names → names = before ++ name :: after → found name = true →
    (before.filter fun name => found name && shown component name).length < entriesLimit

/-! ### Sorting -/

theorem compareFile_le_iff {a b : Text} : compareFile a b ≤ 0 ↔ a ≤ b := by
  unfold compareFile
  split
  · next h => exact iff_of_true (by decide) (le_of_lt h)
  · next h =>
    split
    · next h => exact iff_of_true (by decide) (le_of_eq h)
    · next hne => exact iff_of_false (by decide) fun hle => hne (le_antisymm hle (not_lt.mp h))

/-- `qsort` puts the paths in the order of `strcmp`. -/
theorem sortFiles_sorted {files : List Text} (h : files.Nodup) :
    (sortFiles files).Pairwise (· < ·) := by
  have htotal : Std.Total fun a b : Text => compareFile a b ≤ 0 := by
    refine ⟨fun a b => ?_⟩
    simp only [compareFile_le_iff]
    exact le_total a b
  have htrans : IsTrans Text fun a b => compareFile a b ≤ 0 := by
    refine ⟨fun a b c hab hbc => ?_⟩
    simp only [compareFile_le_iff] at hab hbc ⊢
    exact le_trans hab hbc
  have hle : (sortFiles files).Pairwise (· ≤ ·) :=
    (List.pairwise_insertionSort _ files).imp compareFile_le_iff.mp
  have hnodup : (sortFiles files).Pairwise (· ≠ ·) :=
    (List.perm_insertionSort _ _).nodup_iff.mpr h
  exact hle.imp₂ (fun _ _ hle hne => lt_of_le_of_ne hle hne) hnodup

theorem mem_sortFiles {files : List Text} {path : Text} : path ∈ sortFiles files ↔ path ∈ files :=
  List.mem_insertionSort _

/-! ### One component -/

section One

variable {dirs : Directories} {stack : Stack} {word pre component path name : Text}

theorem OneComponent.pre_eq (h : OneComponent word pre component) : pre = [] ∨ pre = ['/'] := by
  cases h with
  | relative => exact .inl rfl
  | absolute => exact .inr rfl

theorem joinPath_inj (hpre : pre = [] ∨ pre = ['/']) {name name' : Text}
    (h : joinPath pre name = joinPath pre name') : name = name' := by
  rcases hpre with rfl | rfl
  · exact h
  · exact (List.cons.inj h).2

theorem pathMatches_one_iff :
    PathMatches dirs pre [component] path ↔ ∃ names name, dirs.entries (directory pre) = some names ∧
      name ∈ names ∧ NameMatches component name ∧ path = joinPath pre name := by
  constructor
  · intro h
    cases h with
    | cons hnames hmem hmatch hrest =>
      cases hrest
      exact ⟨_, _, hnames, hmem, hmatch, rfl⟩
  · intro h
    obtain ⟨names, name, hnames, hmem, hmatch, rfl⟩ := h
    exact .cons hnames hmem hmatch .nil

/-- The paths that match a word of one component. -/
theorem OneComponent.wordMatches_iff (h : OneComponent word pre component) :
    WordMatches dirs word path ↔ ∃ names name, dirs.entries (directory pre) = some names ∧
      name ∈ names ∧ NameMatches component name ∧ path = joinPath pre name := by
  rw [← pathMatches_one_iff]
  cases h with
  | relative hslash =>
    have hsplit := List.splitOn_eq_singleton hslash
    unfold WordMatches
    split
    · exact absurd List.mem_cons_self hslash
    · rw [hsplit]
  | absolute hslash => rw [WordMatches, List.splitOn_eq_singleton hslash]

/-! ### What the code does -/

/-- The last component is copied as a whole. -/
theorem copyComponent_last (buffer : Buffer) (pre : Text) (hslash : '/' ∉ component) :
    copyComponent buffer pre component =
      if component.length < maxFilename then some ⟨pre, component, [], false⟩ else none := by
  simp only [copyComponent, List.idxOf?_eq_none_iff.mpr hslash, strcpy, buffer.length_eq]
  split
  · simp only [Option.bind_eq_bind, Option.bind_some, readText_append]
    rfl
  · rfl

theorem OneComponent.takeComponent_eq (h : OneComponent word pre component) (buffer : Buffer) :
    takeComponent buffer [] word =
      if component.length < maxFilename then some ⟨pre, component, [], false⟩ else none := by
  cases h with
  | relative hslash =>
    rw [← copyComponent_last buffer [] hslash]
    unfold takeComponent
    split
    · exact absurd List.mem_cons_self hslash
    · rfl
  | absolute hslash => exact copyComponent_last buffer ['/'] hslash

/-- A stack without a terminator. -/
def fullBuffer : Buffer where
  cells := (List.replicate maxFilename '/').map some
  length_eq := by rw [List.length_map, List.length_replicate]

/-- A component before a slash is not terminated. -/
theorem copyComponent_full (pre : Text) {suffix : Text} (hslash : '/' ∈ suffix) :
    copyComponent fullBuffer pre suffix = none := by
  unfold copyComponent
  split
  · next n hn =>
    unfold strncpy
    split
    · have hcells : (suffix.take n).map some ++ fullBuffer.cells.drop n =
          (suffix.take n ++ (List.replicate maxFilename '/').drop n).map some := by
        rw [List.map_append, List.map_drop, fullBuffer]
      rw [Option.bind_eq_bind, Option.bind_some, hcells, readText_map_some]
      rfl
    · rfl
  · next hnone => exact absurd hslash (List.idxOf?_eq_none_iff.mp hnone)

/-- A word of more than one component is lost with such a stack. -/
theorem takeComponent_full (h : ∀ pre component, ¬OneComponent word pre component) :
    takeComponent fullBuffer [] word = none := by
  unfold takeComponent
  split
  · next rest =>
    exact copyComponent_full _ (by_contra fun hslash => h _ _ (.absolute hslash))
  · exact copyComponent_full _ (by_contra fun hslash => h _ _ (.relative hslash))

/-- One round of the loop over the directory, at the last component. -/
theorem addPath_last {expandRest : Text → List Text → Option (List Text)} {found : Text → Bool}
    (hrest : ∀ path entries, expandRest path entries = some entries)
    (hpath : (joinPath pre name).length < maxFilename) (entries : List Text) :
    addPath expandRest ⟨pre, component, [], false⟩ found entries name =
      if found name = true ∧ ¬entries.length < entriesLimit then none
      else some (entries ++
        if found name && shown component name then [joinPath pre name] else []) := by
  unfold addPath
  cases found name with
  | false => simp
  | true =>
    by_cases hlimit : entries.length < entriesLimit
    · cases hshown : shown component name with
      | false => simp [hlimit]
      | true => simp [hlimit, newPrefix, printTo, hpath, hrest]
    · simp [hlimit]

/-- A name counts with those after it if it is added. -/
theorem length_added (p : Text → Bool) (entries : List Text) (name path : Text)
    (names : List Text) :
    (entries ++ if p name then [path] else []).length + (names.filter p).length =
      entries.length + ((name :: names).filter p).length := by
  rw [List.filter_cons, List.length_append]
  split
  · rw [List.length_singleton, List.length_cons, Nat.add_assoc, Nat.add_comm 1]
  · rfl

theorem addPaths_isSome_iff {expandRest : Text → List Text → Option (List Text)}
    {found : Text → Bool} {names : List Text} {entries : List Text}
    (hrest : ∀ path entries, expandRest path entries = some entries)
    (hpath : ∀ name ∈ names, (joinPath pre name).length < maxFilename) :
    (names.foldlM (addPath expandRest ⟨pre, component, [], false⟩ found) entries).isSome ↔
      ∀ before name after, names = before ++ name :: after → found name = true →
        entries.length + (before.filter fun name => found name && shown component name).length <
          entriesLimit := by
  induction names generalizing entries with
  | nil =>
    refine iff_of_true rfl fun before name after h => ?_
    simp at h
  | cons name names ih =>
    rw [List.foldlM_cons, addPath_last hrest (hpath name List.mem_cons_self)]
    -- the number of entries has to vary: the rest of the names is added to more of them
    have ih := fun entries => @ih entries fun name h =>
      hpath name (List.mem_cons_of_mem _ h)
    split
    · next hfull =>
      refine iff_of_false Bool.false_ne_true fun h => hfull.2 ?_
      exact h [] name names rfl hfull.1
    · next hroom =>
      have hlength := length_added (fun name => found name && shown component name) entries name
        (joinPath pre name)
      rw [Option.bind_eq_bind, Option.bind_some, ih]
      constructor
      · intro h before name' after heq hfound
        cases before with
        | nil =>
          cases heq
          exact Decidable.not_not.mp fun hlimit => hroom ⟨hfound, hlimit⟩
        | cons =>
          cases heq
          exact hlength _ ▸ h _ _ _ rfl hfound
      · intro h before name' after heq hfound
        exact hlength before ▸ h (name :: before) name' after (heq ▸ rfl) hfound

theorem OneComponent.hasWildcard_eq (h : OneComponent word pre component) :
    hasWildcard word = hasWildcard component := by
  cases h with
  | relative => rfl
  | absolute =>
    simp only [hasWildcard, List.contains_cons]
    rfl

theorem OneComponent.short (h : OneComponent word pre component) {names : List Text}
    (hnames : dirs.entries (directory pre) = some names) (hmem : name ∈ names) :
    (joinPath pre name).length < maxFilename := by
  have hshort := (dirs.proper _ _ hnames name hmem).2.2
  have hlength : (joinPath pre name).length ≤ name.length + 1 := by
    rcases h.pre_eq with rfl | rfl
    · exact Nat.le_succ _
    · exact Nat.le_refl _
  unfold maxFilename
  omega

/-- A word of one component is expanded exactly if the component fits its array and
the array of the paths can grow. -/
theorem OneComponent.expandEntries_isSome_iff (h : OneComponent word pre component)
    (stack : Stack) (hwild : hasWildcard word = true) :
    (expandEntries dirs stack [] word []).isSome ↔
      component.length < maxFilename ∧ CanGrow dirs pre component := by
  have hne : word ≠ [] := by
    rintro rfl
    cases hwild
  have htake := h.takeComponent_eq (stack [] word)
  split at htake
  · next hfits =>
    have hrest : ∀ path entries, expandEntries dirs stack path [] entries = some entries :=
      fun path entries => expandEntries_nil
    rw [expandEntries_of_some hne htake, if_pos (h.hasWildcard_eq ▸ hwild), and_iff_right hfits,
      lookUpPaths, CanGrow]
    cases hregcomp : dirs.regcomp (regexOf component) with
    | none => exact iff_of_true rfl nofun
    | some found =>
      cases hnames : dirs.entries (directory pre) with
      | none => exact iff_of_true rfl nofun
      | some names =>
        simp only []
        rw [addPaths_isSome_iff hrest fun name hmem => h.short hnames hmem]
        simp only [List.length_nil, Nat.zero_add]
        constructor
        · intro hgrow found' names' before name after hf hn
          cases hf
          cases hn
          exact hgrow before name after
        · intro hgrow before name after
          exact hgrow found names before name after rfl rfl
  · next hlong =>
    rw [expandEntries_of_none hne htake]
    exact iff_of_false Bool.false_ne_true fun h => hlong h.1

theorem OneComponent.expandEntries_eq_some (h : OneComponent word pre component)
    (hwild : hasWildcard word = true) {entries : List Text}
    (hentries : expandEntries dirs stack [] word [] = some entries) :
    entries = (foundNames dirs pre component).map (joinPath pre) := by
  have hne : word ≠ [] := by
    rintro rfl
    cases hwild
  have htake := h.takeComponent_eq (stack [] word)
  split at htake
  · rw [Cs252.Shell.expandEntries_eq_some hentries, search_of_some hne htake,
      if_pos (h.hasWildcard_eq ▸ hwild), List.nil_append]
    simp only [search_nil, List.nil_append, Bool.false_eq_true, if_false]
    exact List.map_eq_flatMap.symm
  · rw [expandEntries_of_none hne htake] at hentries
    cases hentries

/-- The names that are found in a directory without two equal ones. -/
theorem foundNames_nodup : (foundNames dirs pre component).Nodup := by
  unfold foundNames
  split
  · next hnames => exact (dirs.nodup _ _ hnames).filter _
  · exact List.nodup_nil

theorem mem_entries_of_found (h : name ∈ foundNames dirs pre component) :
    ∃ names, dirs.entries (directory pre) = some names ∧ name ∈ names := by
  unfold foundNames at h
  split at h
  · next hnames => exact ⟨_, hnames, (List.mem_filter.mp h).1⟩
  · cases h

/-- The code finds the names that match, and takes them, or the word stands for
no other path. -/
def FindsMatches (dirs : Directories) (word pre component : Text) : Prop :=
  (2 ≤ (foundNames dirs pre component).length ∧
    ∀ names, dirs.entries (directory pre) = some names → ∀ name ∈ names,
      (name ∈ foundNames dirs pre component ↔ NameMatches component name)) ∨
  ((foundNames dirs pre component).length ≤ 1 ∧
    ∀ names, dirs.entries (directory pre) = some names → ∀ name ∈ names,
      NameMatches component name → joinPath pre name = word)

/-- The arguments that the code makes of the names it finds. -/
def argumentsOf (word pre : Text) (found : List Text) : List Text :=
  if 1 < found.length then sortFiles (found.map (joinPath pre)) else [word]

/-- Two names and more are taken for the paths that match. -/
theorem OneComponent.expansion_paths_iff (h : OneComponent word pre component)
    (htwo : 1 < (foundNames dirs pre component).length) :
    Expansion dirs word (sortFiles ((foundNames dirs pre component).map (joinPath pre))) ↔
      ∀ names, dirs.entries (directory pre) = some names → ∀ name ∈ names,
        (name ∈ foundNames dirs pre component ↔ NameMatches component name) := by
  constructor
  · intro hexp names hnames name hmem
    -- without a match the word alone would be inserted, and not two names
    have hsome : ∃ path, WordMatches dirs word path := by
      by_contra hnone
      have hlength := congrArg List.length (hexp.word hnone)
      rw [sortFiles, List.length_insertionSort, List.length_map, List.length_singleton] at hlength
      exact Nat.ne_of_gt htwo hlength
    have hpath := hexp.paths hsome (joinPath pre name)
    rw [mem_sortFiles, List.mem_map, h.wordMatches_iff] at hpath
    constructor
    · intro hfound
      obtain ⟨_, name', _, _, hmatch, heq⟩ := hpath.mp ⟨name, hfound, rfl⟩
      exact joinPath_inj h.pre_eq heq ▸ hmatch
    · intro hmatch
      obtain ⟨name', hfound, heq⟩ := hpath.mpr ⟨names, name, hnames, hmem, hmatch, rfl⟩
      exact joinPath_inj h.pre_eq heq ▸ hfound
  · intro hfound
    have hpath : ∀ path, path ∈ sortFiles ((foundNames dirs pre component).map (joinPath pre)) ↔
        WordMatches dirs word path := by
      intro path
      rw [mem_sortFiles, List.mem_map, h.wordMatches_iff]
      constructor
      · intro hname
        obtain ⟨name, hname, rfl⟩ := hname
        obtain ⟨names, hnames, hmem⟩ := mem_entries_of_found hname
        exact ⟨names, name, hnames, hmem, (hfound names hnames name hmem).mp hname, rfl⟩
      · intro hname
        obtain ⟨names, name, hnames, hmem, hmatch, rfl⟩ := hname
        exact ⟨name, (hfound names hnames name hmem).mpr hmatch, rfl⟩
    refine ⟨fun _ => hpath, sortFiles_sorted ?_, fun hnone => absurd ?_ hnone⟩
    · exact List.Nodup.map (fun _ _ heq => joinPath_inj h.pre_eq heq) foundNames_nodup
    · obtain ⟨name, hname⟩ := List.exists_mem_of_length_pos (Nat.lt_of_succ_lt htwo)
      exact ⟨_, (hpath _).mp (mem_sortFiles.mpr (List.mem_map_of_mem hname))⟩

/-- With one name or none the word is left as it is. -/
theorem OneComponent.expansion_word_iff (h : OneComponent word pre component) :
    Expansion dirs word [word] ↔
      ∀ names, dirs.entries (directory pre) = some names → ∀ name ∈ names,
        NameMatches component name → joinPath pre name = word := by
  constructor
  · intro hexp names hnames name hmem hmatch
    have hpath := h.wordMatches_iff.mpr ⟨names, name, hnames, hmem, hmatch, rfl⟩
    exact List.mem_singleton.mp ((hexp.paths ⟨_, hpath⟩ _).mpr hpath)
  · intro hword
    have hpaths : ∀ path, WordMatches dirs word path → path = word := by
      intro path hpath
      obtain ⟨names, name, hnames, hmem, hmatch, rfl⟩ := h.wordMatches_iff.mp hpath
      exact hword names hnames name hmem hmatch
    refine ⟨fun hsome path => ?_, List.pairwise_singleton _ _, fun _ => rfl⟩
    obtain ⟨path', hpath'⟩ := hsome
    rw [List.mem_singleton]
    constructor
    · intro heq
      exact (heq.trans (hpaths path' hpath').symm) ▸ hpath'
    · exact hpaths path

theorem OneComponent.expansion_iff (h : OneComponent word pre component) :
    Expansion dirs word (argumentsOf word pre (foundNames dirs pre component)) ↔
      FindsMatches dirs word pre component := by
  rw [argumentsOf, FindsMatches]
  split
  · next htwo =>
    rw [or_iff_left fun hone => Nat.not_le_of_lt htwo hone.1, and_iff_right (Nat.succ_le_of_lt htwo)]
    exact h.expansion_paths_iff htwo
  · next hone =>
    rw [or_iff_right fun htwo => hone htwo.1, and_iff_right (Nat.le_of_not_lt hone)]
    exact h.expansion_word_iff

/-- What is inserted for a word of one component. -/
theorem OneComponent.insertedArguments_iff (h : OneComponent word pre component)
    (process : Process) (stack : Stack) (p : ShellState) {st : DirArray} (hwild : hasWildcard word = true)
    (hst : st.entries = []) {arguments : List String} :
    (∃ st', insertedArguments process stack st p (String.ofList word) = some (arguments, st')) ↔
      (component.length < maxFilename ∧ CanGrow process.toDirectories pre component) ∧
        arguments = (argumentsOf word pre (foundNames process.toDirectories pre component)).map
          String.ofList := by
  have hword : hasWildcard (String.ofList word).toList = true := by
    rwa [String.toList_ofList]
  have hentries := insertedArguments_entries process stack p hword st
  rw [hst, String.toList_ofList] at hentries
  rw [← h.expandEntries_isSome_iff stack hwild]
  cases hcollected : expandEntries process.toDirectories stack [] word [] with
  | none =>
    rw [hcollected, Option.map_none, Option.map_eq_none_iff] at hentries
    rw [hentries]
    exact iff_of_false nofun fun h => nomatch h.1
  | some entries =>
    rw [hcollected, Option.map_some, Option.map_eq_some_iff] at hentries
    obtain ⟨r, hr, hentries⟩ := hentries
    have harguments : r.1 =
        (argumentsOf word pre (foundNames process.toDirectories pre component)).map String.ofList := by
      rw [congrArg Prod.fst hentries, h.expandEntries_eq_some hwild hcollected, argumentsOf,
        List.length_map]
      split <;> rfl
    rw [hr, ← harguments]
    constructor
    · intro hsome
      obtain ⟨st', hsome⟩ := hsome
      cases hsome
      exact ⟨rfl, rfl⟩
    · intro heq
      exact ⟨r.2, by rw [heq.2]⟩

/-- Other words are lost with a full stack. -/
theorem insertedArguments_full {process : Process} {p : ShellState} {st : DirArray}
    (hwild : hasWildcard word = true) (h : ∀ pre component, ¬OneComponent word pre component) :
    insertedArguments process (fun _ _ => fullBuffer) st p (String.ofList word) = none := by
  have hword : hasWildcard (String.ofList word).toList = true := by
    rwa [String.toList_ofList]
  have hne : word ≠ [] := by
    rintro rfl
    cases hwild
  rw [insertedArguments, if_pos hword, String.toList_ofList,
    expandWildcards_of_none hne (takeComponent_full h)]
  rfl

end One

theorem map_ofList_inj {xs ys : List Text} (h : xs.map String.ofList = ys.map String.ofList) :
    xs = ys :=
  List.map_injective_iff.mpr (fun _ _ => String.ofList_injective) h

/-- **Words are expanded to the paths that match** exactly if they are one component
that fits its array, and either the names that are found are those that match, two
at least, or none is taken and there is no other path to take. -/
theorem expands_iff {process : Process} {word : Text} (hwild : hasWildcard word = true) :
    Expands process word ↔
      ∃ pre component, OneComponent word pre component ∧ component.length < maxFilename ∧
        CanGrow process.toDirectories pre component ∧
        FindsMatches process.toDirectories word pre component := by
  constructor
  · intro h
    obtain ⟨arguments, st', hinserted, hexp⟩ := h (fun _ _ => fullBuffer) .start (newShell []) rfl
    -- the stack without a terminator excludes the words of more components
    by_cases hone : ∃ pre component, OneComponent word pre component
    · obtain ⟨pre, component, hone⟩ := hone
      obtain ⟨⟨hshort, hgrow⟩, harguments⟩ :=
        (hone.insertedArguments_iff process (fun _ _ => fullBuffer) (newShell []) hwild rfl).mp ⟨_, hinserted⟩
      cases map_ofList_inj harguments
      exact ⟨pre, component, hone, hshort, hgrow, hone.expansion_iff.mp hexp⟩
    · simp only [not_exists] at hone
      cases (insertedArguments_full hwild hone).symm.trans hinserted
  · intro h stack st p hst
    obtain ⟨pre, component, hone, hshort, hgrow, hfinds⟩ := h
    obtain ⟨st', hinserted⟩ :=
      (hone.insertedArguments_iff process stack p hwild hst).mpr ⟨⟨hshort, hgrow⟩, rfl⟩
    exact ⟨_, st', hinserted, hone.expansion_iff.mpr hfinds⟩

/-! ### Ordinary characters -/

/-- A character that stands for itself in a regular expression, or that the code
takes care of. -/
def ordinary (c : Char) : Bool := !"\\^$[]()\x7b\x7d|+".toList.contains c

/-- `regcomp` and `regexec` do what POSIX says about the regular expressions for
components of ordinary characters. -/
def CompilesOrdinary (regcomp : Text → Option (Text → Bool)) : Prop :=
  ∀ component, component.all ordinary = true → ∃ found, regcomp (regexOf component) = some found ∧
    ∀ name, found name = true ↔ Glob.Matches (pattern component) name

/-- Of the words of ordinary characters, the ones with a single match other than
themselves are not expanded to it. -/
theorem findsMatches_of_ordinary {dirs : Directories} {word pre component : Text}
    (hregcomp : CompilesOrdinary dirs.regcomp) (hordinary : component.all ordinary = true) :
    FindsMatches dirs word pre component ↔
      2 ≤ (foundNames dirs pre component).length ∨
        ∀ names, dirs.entries (directory pre) = some names → ∀ name ∈ names,
          NameMatches component name → joinPath pre name = word := by
  have hfound : ∀ names, dirs.entries (directory pre) = some names → ∀ name ∈ names,
      (name ∈ foundNames dirs pre component ↔ NameMatches component name) := by
    intro names hnames name hmem
    obtain ⟨found, hcompiled, hmatches⟩ := hregcomp component hordinary
    simp only [foundNames, hcompiled, hnames, List.mem_filter, Bool.and_eq_true, hmatches,
      and_iff_right hmem]
    rfl
  unfold FindsMatches
  constructor
  · intro h
    exact h.imp And.left And.right
  · intro h
    by_cases htwo : 2 ≤ (foundNames dirs pre component).length
    · exact .inl ⟨htwo, hfound⟩
    · exact .inr ⟨by omega, h.resolve_left htwo⟩

/-- The pieces that a simple regular expression spells, up to its `$`. -/
def parseRegex : Text → Option (List (Glob.Piece Char))
  | [] => none
  | '.' :: '*' :: rest => (parseRegex rest).map (.star :: ·)
  | '.' :: rest => (parseRegex rest).map (.any :: ·)
  | '\\' :: c :: rest => (parseRegex rest).map (.one c :: ·)
  | ['$'] => some []
  | c :: rest => if ordinary c then (parseRegex rest).map (.one c :: ·) else none

/-- `regcomp`, for simple regular expressions. -/
def simpleRegcomp : Text → Option (Text → Bool)
  | '^' :: rest => (parseRegex rest).map fun pieces name => decide (Glob.Matches pieces name)
  | _ => none

theorem parseRegex_char {c : Char} {rest : Text} (hc : ordinary c = true)
    (hrest : rest.head? ≠ some '*') :
    parseRegex (regexChar c ++ rest) = (parseRegex rest).map (piece c :: ·) := by
  unfold regexChar piece
  split
  · rfl
  · split
    · cases rest with
      | nil => rfl
      | cons d rest =>
        rw [List.singleton_append, parseRegex]
        exact fun _ h => hrest (congrArg List.head? h)
    · split
      · next hdot =>
        rw [hdot]
        rfl
      · next hdot =>
        have hspecial : c ≠ '\\' ∧ c ≠ '$' := by
          constructor <;> rintro rfl <;> exact absurd hc (by decide)
        rw [List.singleton_append, parseRegex, if_pos hc]
        · exact fun _ h => absurd h hdot
        · exact hdot
        · exact fun _ _ h _ => hspecial.1 h
        · exact fun h _ => hspecial.2 h

theorem parseRegex_flatMap {component : Text} (h : component.all ordinary = true) :
    parseRegex (component.flatMap regexChar ++ ['$']) = some (pattern component) ∧
      (component.flatMap regexChar ++ ['$']).head? ≠ some '*' := by
  induction component with
  | nil => exact ⟨rfl, by decide⟩
  | cons c component ih =>
    rw [List.all_cons, Bool.and_eq_true] at h
    obtain ⟨hparse, hhead⟩ := ih h.2
    rw [List.flatMap_cons, List.append_assoc, parseRegex_char h.1 hhead, hparse]
    refine ⟨rfl, ?_⟩
    unfold regexChar
    split
    · simp
    · split
      · simp
      · split <;> simp_all

/-- The simple regular expressions are enough for ordinary characters. -/
theorem simpleRegcomp_compiles : CompilesOrdinary simpleRegcomp := by
  intro component h
  exact ⟨_, congrArg (Option.map _) (parseRegex_flatMap h).1, fun name => decide_eq_true_iff⟩

/-! ### A directory -/

/-- The current directory with some names in it, and no other one. -/
def sampleDirectories (names : List Text) (hnodup : names.Nodup)
    (hnames : ∀ name ∈ names, name ≠ [] ∧ '/' ∉ name ∧ name.length < 256) : Directories where
  entries path := if path = ['.'] then some names else none
  regcomp := simpleRegcomp
  nodup := by
    intro path names' h
    obtain ⟨-, h⟩ := Option.ite_none_right_eq_some.mp h
    cases h
    exact hnodup
  proper := by
    intro path names' h
    obtain ⟨-, h⟩ := Option.ite_none_right_eq_some.mp h
    cases h
    exact hnames

/-- A process in a directory. -/
def sampleProcess (dirs : Directories) : Process where
  toDirectories := dirs
  pid := 1
  cwd := none
  pwDir _ := none
  usable n := n
  le_usable _ := Nat.le_refl _

/-- A directory with one C file. -/
def oneFile : Directories :=
  sampleDirectories [".".toList, "..".toList, "a.c".toList] (by decide) (by decide)

/-- A directory with two C files. -/
def twoFiles : Directories :=
  sampleDirectories [".".toList, "..".toList, "b.c".toList, "a.c".toList] (by decide) (by decide)

theorem canGrow_of_length {dirs : Directories} {pre component : Text}
    (h : ∀ names, dirs.entries (directory pre) = some names → names.length ≤ entriesLimit) :
    CanGrow dirs pre component := by
  intro found names before name after _ hnames heq _
  have hle := h names hnames
  have hfilter := List.length_filter_le (fun name => found name && shown component name) before
  rw [heq, List.length_append, List.length_cons] at hle
  omega

/-- A word with two matches. -/
theorem expands_twoFiles : Expands (sampleProcess twoFiles) "*.c".toList :=
  (expands_iff (by decide)).mpr ⟨[], "*.c".toList, .relative (by decide), by decide,
    canGrow_of_length fun names h => by cases h; decide,
    (findsMatches_of_ordinary simpleRegcomp_compiles (by decide)).mpr (.inl (by decide))⟩

/-- A word with one match stays as it is. -/
theorem oneFile_not_expanded :
    (insertedArguments (sampleProcess oneFile) (fun _ _ => fullBuffer) .start (newShell [])
        "*.c").map Prod.fst = some ["*.c"] ∧
      WordMatches oneFile "*.c".toList "a.c".toList ∧
      ¬Expands (sampleProcess oneFile) "*.c".toList := by
  have hone : OneComponent "*.c".toList [] "*.c".toList := .relative (by decide)
  have hgrow : CanGrow oneFile [] "*.c".toList :=
    canGrow_of_length fun names h => by cases h; decide
  have hmatches : WordMatches oneFile "*.c".toList "a.c".toList :=
    hone.wordMatches_iff.mpr ⟨_, "a.c".toList, rfl, by decide, by decide, by decide⟩
  have harguments : (argumentsOf "*.c".toList [] (foundNames oneFile [] "*.c".toList)).map
      String.ofList = ["*.c"] := by decide
  obtain ⟨st', hinserted⟩ := (hone.insertedArguments_iff (sampleProcess oneFile)
    (fun _ _ => fullBuffer) (newShell []) (by decide) (show DirArray.start.entries = [] from rfl)).mpr
      ⟨⟨by decide, hgrow⟩, harguments.symm⟩
  refine ⟨?_, hmatches, fun h => ?_⟩
  · rw [String.ofList_toList] at hinserted
    rw [hinserted, Option.map_some]
  · obtain ⟨arguments, st'', hinserted', hexp⟩ :=
      h (fun _ _ => fullBuffer) .start (newShell []) rfl
    have hsame := (Prod.mk.inj (Option.some.inj (hinserted'.symm.trans hinserted))).1
    have harguments : arguments = ["*.c".toList] := map_ofList_inj (hsame.trans (by decide))
    have hmem := (hexp.paths ⟨_, hmatches⟩ _).mpr hmatches
    rw [harguments] at hmem
    exact absurd hmem (by decide)

end Cs252.Shell
