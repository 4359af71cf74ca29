import Cs252.Http.DirectoryLinks
import Cs252.Lib.Comparison

/-!
# Cs252.Http.Listing

The rows of the page of a directory, and their order.

`compare_name_ascending` is 1 or 0. It never says that the first name comes before the
second, so it is no order (`not_consistent`), and what `qsort` promises says nothing
about the array after the call. As far as that promise goes, only a directory with at
most one entry is listed, for which `qsort` is not called.
-/

namespace Cs252.Http

/-- What the row for an entry has to say, after the name of the directory. -/
def Entry.row (sub : CString) (ent : Entry) : Info where
  name := sub ++ .lit "/" ++ ent.name
  date := mdTime ent.modified
  size := if ent.isDir then .lit "-" else decimal ent.size
  isDir := ent.isDir

/-- The names ascend. -/
def Ascending (infos : List Info) : Prop := infos.Pairwise fun a b => strcmp a.name b.name ≤ 0

/-- A page is sent, with a row for each entry, in the order of the names. -/
def ListsEntries (host : Host) (request : HttpRequest) (path : CString) (entries : List Entry) :
    Prop :=
  ∃ infos sub sent, entries.mapM (fileInfo path) = .ok infos ∧
    handleDirectory host { request with requestUri := path } = .ok sent ∧
    (pageText path (shownInfos host infos)).bytes <:+: sent ∧
    (shownInfos host infos).Perm (entries.map (Entry.row sub)) ∧
    Ascending (shownInfos host infos)

/-- The comparison of two names is never negative. -/
theorem not_consistent : ¬Consistent compareNameAscending := by
  intro h
  have hsign := h.opposite ⟨.lit "b", .lit "", .lit "", false⟩ ⟨.lit "a", .lit "", .lit "", false⟩
  exact absurd hsign (by decide)

variable {host : Host} {request : HttpRequest} {path sub : CString} {entries : List Entry}
  {ent : Entry}

/-- A size that an `int` does not hold is printed as another one. -/
theorem entryInfo_eq_row_iff {sub' : CString} :
    entryInfo sub ent = ent.row sub' ↔ sub = sub' ∧ (ent.isDir = false → ent.size < 2 ^ 31) := by
  rw [entryInfo, Entry.row, Info.mk.injEq]
  constructor
  · rintro ⟨hname, -, hsize, -⟩
    refine ⟨append_right_cancel (append_right_cancel hname), fun hfile => ?_⟩
    simp only [hfile, Bool.false_eq_true, if_false] at hsize
    exact (decimal_asInt_eq_iff ent.size).mp hsize
  · rintro ⟨rfl, hsize⟩
    refine ⟨rfl, rfl, ?_, rfl⟩
    split
    · rfl
    · next hfile => exact (decimal_asInt_eq_iff ent.size).mpr (hsize (Bool.eq_false_iff.mpr hfile))

/-- The entry can be described: the path fits `tmp`, the name of the directory is its
fourth part, and an `int` holds the size of a file. -/
structure Described (path sub : CString) (ent : Entry) : Prop where
  short : path.length < 256
  part : (path.tokens 47)[3]? = some sub
  size : ent.isDir = false → ent.size < 2 ^ 31

theorem described_iff : Described path sub ent ↔ fileInfo path ent = .ok (ent.row sub) := by
  rw [fileInfo_eq_ok_iff]
  constructor
  · intro h
    exact ⟨h.short, sub, h.part, (entryInfo_eq_row_iff.mpr ⟨rfl, h.size⟩).symm⟩
  · rintro ⟨hshort, sub', hpart, hinfo⟩
    obtain ⟨rfl, hsize⟩ := entryInfo_eq_row_iff.mp hinfo.symm
    exact ⟨hshort, hpart, hsize⟩

/-- With at most one entry the array is left as it is. -/
theorem shownInfos_of_le {infos : List Info} (h : infos.length ≤ 1) : shownInfos host infos = infos :=
  if_neg (Nat.not_lt.mpr h)

theorem ascending_of_le {infos : List Info} (h : infos.length ≤ 1) : Ascending infos :=
  match infos, h with
  | [], _ => List.Pairwise.nil
  | [info], _ => List.pairwise_singleton _ info

/-- Two entries or more are at the mercy of `qsort`. -/
theorem length_le_of_lists {otherwise : List Info → List Info} (hnone : ∀ infos, otherwise infos = [])
    (h : ListsEntries { host with qsort := sortOr otherwise } request path entries) :
    entries.length ≤ 1 := by
  obtain ⟨infos, sub, -, hinfos, -, -, hperm, -⟩ := h
  have hlength := (mapM_eq_ok_iff.mp hinfos).length_eq
  refine Nat.not_lt.mp fun hlt => ?_
  have hshown : shownInfos { host with qsort := sortOr otherwise } infos = [] :=
    (if_pos (hlength ▸ hlt)).trans ((sortOr_of_not not_consistent infos).trans (hnone infos))
  have hrows := hperm.length_eq
  rw [hshown, List.length_nil, List.length_map] at hrows
  omega

/-- The rows of a directory that is listed without a call of `qsort`. -/
theorem described_of_lists (hentries : host.entries path = some entries) (hle : entries.length ≤ 1)
    (h : ListsEntries host request path entries) :
    ∃ sub, (∀ ent ∈ entries, Described path sub ent) ∧
      spaceNeeded request (.lit "text/html") (pageText path (entries.map (Entry.row sub))).bytes 0 <
        2 ^ 31 := by
  obtain ⟨infos, sub, sent, hinfos, hsent, -, hperm, -⟩ := h
  obtain ⟨infos', hinfos', hfits, -⟩ := (handleDirectory_eq_ok_iff hentries).mp hsent
  cases hinfos.symm.trans hinfos'
  have heach := mapM_eq_ok_iff.mp hinfos
  rw [shownInfos_of_le (heach.length_eq ▸ hle)] at hperm hfits
  have hrows : infos = entries.map (Entry.row sub) := by
    match entries, hle with
    | [], _ => exact List.perm_nil.mp hperm
    | [ent], _ => exact List.perm_singleton.mp hperm
  rw [hrows] at hfits heach
  rw [List.forall₂_map_right_iff, List.forall₂_same] at heach
  exact ⟨sub, fun ent hent => described_iff.mpr (heach ent hent), hfits⟩

theorem lists_of_described (hentries : host.entries path = some entries) (hle : entries.length ≤ 1)
    (hdescribed : ∀ ent ∈ entries, Described path sub ent)
    (hfits : spaceNeeded request (.lit "text/html")
      (pageText path (entries.map (Entry.row sub))).bytes 0 < 2 ^ 31) :
    ListsEntries host request path entries := by
  have hinfos : entries.mapM (fileInfo path) = .ok (entries.map (Entry.row sub)) := by
    rw [mapM_eq_ok_iff, List.forall₂_map_right_iff, List.forall₂_same]
    exact fun ent hent => described_iff.mp (hdescribed ent hent)
  have hshown : shownInfos host (entries.map (Entry.row sub)) = entries.map (Entry.row sub) :=
    shownInfos_of_le (by rwa [List.length_map])
  have hsent := (@handleDirectory_eq_ok_iff host request entries path _ hentries).mpr
    ⟨_, hinfos, by rwa [hshown], rfl⟩
  refine ⟨_, sub, _, hinfos, hsent, ?_, ?_, ?_⟩
  · exact ⟨_, _, rfl⟩
  · rw [hshown]
  · rw [hshown]
    exact ascending_of_le (by rwa [List.length_map])

/-- **Directory listings are complete and sorted**, whatever `qsort` does within its
promise, exactly for a directory with at most one entry that can be described. -/
theorem listsEntries_iff (hentries : host.entries path = some entries) :
    (∀ qsort, Sorts qsort → ListsEntries { host with qsort := qsort } request path entries) ↔
      entries.length ≤ 1 ∧ ∃ sub, (∀ ent ∈ entries, Described path sub ent) ∧
        spaceNeeded request (.lit "text/html") (pageText path (entries.map (Entry.row sub))).bytes 0 <
          2 ^ 31 := by
  constructor
  · intro h
    have hlists := h (sortOr fun _ => []) (sorts_sortOr _)
    have hle : entries.length ≤ 1 := length_le_of_lists (fun _ => rfl) hlists
    have hsame : { host with qsort := sortOr fun _ => [] }.entries path = some entries := hentries
    exact ⟨hle, described_of_lists hsame hle hlists⟩
  · rintro ⟨hle, sub, hdescribed, hfits⟩ qsort -
    exact lists_of_described hentries hle hdescribed hfits

/-- A directory with one file in it. -/
theorem listsEntries_one :
    ListsEntries { sampleHost with qsort := sortOr id } indexRequest
      (pathOf [.lit "htdocs", .lit "dir1"]) [sampleEntry] := by
  have hentries : sampleHost.entries (pathOf [.lit "htdocs", .lit "dir1"]) = some [sampleEntry] :=
    rfl
  refine (listsEntries_iff hentries).mpr ⟨Nat.le_refl 1, .lit "dir1", ?_, ?_⟩ _ (sorts_sortOr id)
  · rw [List.forall_mem_singleton]
    exact ⟨by decide, by decide, fun _ => by decide⟩
  · decide +kernel

/-- Two files, in the order of their names. -/
def twoEntries : List Entry := [sampleEntry, { sampleEntry with name := .lit "b.html" }]

/-- A host on which every directory has these files in it, with a `qsort` that turns an
array around if the comparison is not consistent. -/
noncomputable def twoHost : Host :=
  { sampleHost with
    entries := fun _ => some twoEntries
    qsort := sortOr List.reverse }

/-- The names descend, although this `qsort` keeps what is promised and loses nothing. -/
theorem listed_backwards :
    Sorts twoHost.qsort ∧ (∀ cmp infos, (twoHost.qsort cmp infos).Perm infos) ∧
    twoEntries.mapM (fileInfo (pathOf [.lit "htdocs", .lit "dir1"])) =
      .ok (twoEntries.map (entryInfo (.lit "dir1"))) ∧
    (shownInfos twoHost (twoEntries.map (entryInfo (.lit "dir1")))).map Info.name =
      [.lit "dir1/b.html", .lit "dir1/a.html"] ∧
    ¬ListsEntries twoHost indexRequest (pathOf [.lit "htdocs", .lit "dir1"]) twoEntries := by
  have hinfos : twoEntries.mapM (fileInfo (pathOf [.lit "htdocs", .lit "dir1"])) =
      .ok (twoEntries.map (entryInfo (.lit "dir1"))) := by
    rw [mapM_eq_ok_iff, List.forall₂_map_right_iff, List.forall₂_same]
    exact fun ent _ => fileInfo_eq_ok_iff.mpr ⟨by decide, .lit "dir1", by decide, rfl⟩
  have hshown : (shownInfos twoHost (twoEntries.map (entryInfo (.lit "dir1")))).map Info.name =
      [.lit "dir1/b.html", .lit "dir1/a.html"] := by
    have hreverse : shownInfos twoHost (twoEntries.map (entryInfo (.lit "dir1"))) =
        (twoEntries.map (entryInfo (.lit "dir1"))).reverse :=
      (if_pos (by decide)).trans (sortOr_of_not not_consistent _)
    rw [hreverse]
    decide
  refine ⟨sorts_sortOr _, sortOr_perm List.reverse_perm, hinfos, hshown, ?_⟩
  rintro ⟨infos, sub, sent, hinfos', -, -, -, hascending⟩
  cases hinfos.symm.trans hinfos'
  have hnames : ((shownInfos twoHost (twoEntries.map (entryInfo (.lit "dir1")))).map
      Info.name).Pairwise fun s t => strcmp s t ≤ 0 := List.pairwise_map.mpr hascending
  rw [hshown] at hnames
  exact absurd hnames (by decide)

end Cs252.Http
