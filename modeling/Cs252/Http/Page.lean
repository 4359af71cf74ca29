import Cs252.Http.Directory

/-!
# Cs252.Http.Page

The page of a directory, as one text.

`handle_directory` asks for as much memory as the next few tags take, each time
that it adds some (`grow_iff`). The buffer then always fits the text in it, and
the page is made exactly if an `int` can count its length.
-/

namespace Cs252.Http

/-- Tags after a text. -/
def addTags (s : CString) (tags : List CString) : CString := tags.foldl (· ++ ·) s

/-- The number of characters that tags take. -/
def tagsLength (tags : List CString) : Nat := (tags.map CString.length).sum

@[simp] theorem addTags_length (s : CString) (tags : List CString) :
    (addTags s tags).length = s.length + tagsLength tags := by
  induction tags generalizing s with
  | nil => simp [addTags, tagsLength]
  | cons tag tags ih =>
    have := ih (s ++ tag)
    simp only [addTags, tagsLength, List.foldl_cons, List.map_cons, List.sum_cons,
      CString.append_length] at this ⊢
    omega

theorem addTags_append (s : CString) (tags tags' : List CString) :
    addTags s (tags ++ tags') = addTags (addTags s tags) tags' := List.foldl_append

/-- The tags of the name of an entry. -/
def nameTags (info : Info) : List CString :=
  [.lit "<tr>", .lit "<td>", .lit "<A HREF=\"", info.name, .lit "\">", info.name, .lit "</A>",
    .lit "</td>"]

/-- The tags of its date. -/
def dateTags (info : Info) : List CString := [.lit "<td>", info.date, .lit "</td>"]

/-- The tags of its size. -/
def sizeTags (info : Info) : List CString :=
  [.lit "<td>", info.size, .lit "</td>", .lit "</tr>"]

/-- The tags of the row for an entry. -/
def rowTags (info : Info) : List CString := nameTags info ++ dateTags info ++ sizeTags info

theorem tagsLength_nameTags (info : Info) :
    tagsLength (nameTags info) = 4 + 4 + 9 + 2 * info.name.length + 2 + 4 + 5 := by
  change 4 + (4 + (9 + (info.name.length + (2 + (info.name.length + (4 + (5 + 0))))))) = _
  omega

theorem tagsLength_dateTags (info : Info) :
    tagsLength (dateTags info) = 4 + info.date.length + 5 := by
  change 4 + (info.date.length + (5 + 0)) = _
  omega

theorem tagsLength_sizeTags (info : Info) :
    tagsLength (sizeTags info) = 4 + info.size.length + 5 + 5 := by
  change 4 + (info.size.length + (5 + (5 + 0))) = _
  omega

/-- The text of a page before its rows. -/
def pageTitle (dirPath : CString) : CString :=
  .lit "<html><head><title>" ++ .lit "Index of Directory</title></head><body><h1>Index of" ++
    dirPath ++ .lit "</h1>" ++ .lit "<table><th>Name</th><th>Date</th><th>Size</th>"

/-- The text of a page. -/
def pageText (dirPath : CString) (infos : List Info) : CString :=
  addTags (pageTitle dirPath) (infos.flatMap rowTags) ++ .lit "</table></body></html>"

/-! ### Making the page -/

@[simp] theorem strdup_text (s : CString) : (strdup s).text = s := rfl

section Grow

variable {b b' : Buffer} {tags : List CString}

theorem strcats_eq (h : b.text.length + tagsLength tags < b.size) :
    strcats b tags = .ok ⟨addTags b.text tags, b.size⟩ := by
  induction tags generalizing b with
  | nil => rfl
  | cons tag tags ih =>
    simp only [tagsLength, List.map_cons, List.sum_cons] at h
    rw [strcats, List.foldlM_cons, Buffer.strcat_eq (by omega)]
    exact ih (b := ⟨b.text ++ tag, b.size⟩) (by
      simp only [CString.append_length, tagsLength]
      omega)

theorem strcats_eq_ok (h : strcats b tags = .ok b') (hne : tags ≠ []) :
    b.text.length + tagsLength tags < b.size := by
  induction tags generalizing b with
  | nil => exact absurd rfl hne
  | cons tag tags ih =>
    obtain ⟨b₁, hb₁, h⟩ := bind_eq_ok.mp h
    obtain ⟨htext, hsize, hfits⟩ := Buffer.strcat_eq_ok hb₁
    simp only [tagsLength, List.map_cons, List.sum_cons]
    by_cases htags : tags = []
    · subst htags
      simpa using hfits
    · have := ih h htags
      rw [htext, hsize, CString.append_length, tagsLength] at this
      omega

/-- Memory for some tags is asked for, and then they are added. -/
theorem grow_iff {s : CString} {n : Int} (hn : n = s.length + tagsLength tags + 1)
    (hne : tags ≠ []) :
    ((strdup s).realloc n >>= fun b => strcats b tags) = .ok b' ↔
      (addTags s tags).length + 1 < 2 ^ 31 ∧ b' = strdup (addTags s tags) := by
  have hlength := addTags_length s tags
  constructor
  · intro h
    obtain ⟨b₁, hb₁, h⟩ := bind_eq_ok.mp h
    obtain ⟨htext, hsize⟩ := Buffer.realloc_eq_ok hb₁
    have hfits := strcats_eq_ok h hne
    rw [strcats_eq hfits, htext, strdup_text] at h
    rw [htext, strdup_text] at hfits
    have hlt : n < 2 ^ 31 := lt_of_le_asInt (m := n) (by omega) (by omega)
    rw [asInt_of_lt (by omega) hlt] at hsize
    have hsize : b₁.size = (addTags s tags).length + 1 := by omega
    refine ⟨by omega, (Except.ok.inj h).symm.trans ?_⟩
    rw [strdup, hsize]
  · intro h
    obtain ⟨hlt, rfl⟩ := h
    have hsize : n.toNat = (addTags s tags).length + 1 := by omega
    refine bind_eq_ok.mpr ⟨_, Buffer.realloc_eq (by omega) (by omega), ?_⟩
    rw [hsize, strdup, strcats_eq (by simp), strdup]

/-- What follows a computation of which the result is known. -/
theorem bind_eq_ok_iff {x : Except Fault Buffer} {f : Buffer → Except Fault Buffer} {P : Prop}
    (hx : ∀ b', x = .ok b' ↔ P ∧ b' = b) : (x >>= f) = .ok b' ↔ P ∧ f b = .ok b' := by
  rw [bind_eq_ok]
  simp only [hx]
  exact ⟨fun ⟨_, ⟨hP, hb⟩, h⟩ => ⟨hP, hb ▸ h⟩, fun ⟨hP, h⟩ => ⟨_, ⟨hP, rfl⟩, h⟩⟩

theorem grow_bind_iff {s : CString} {n : Int} {f : Buffer → Except Fault Buffer}
    (hn : n = s.length + tagsLength tags + 1) (hne : tags ≠ []) :
    ((strdup s).realloc n >>= fun b => strcats b tags >>= f) = .ok b' ↔
      (addTags s tags).length + 1 < 2 ^ 31 ∧ f (strdup (addTags s tags)) = .ok b' := by
  rw [← bind_assoc]
  exact bind_eq_ok_iff fun _ => grow_iff hn hne

/-- One tag is added. -/
theorem grow_one_iff {s tag : CString} :
    ((strdup s).realloc (s.length + tag.length + 1) >>= fun b => b.strcat tag) = .ok b' ↔
      (s ++ tag).length + 1 < 2 ^ 31 ∧ b' = strdup (s ++ tag) := by
  have hone : ∀ b : Buffer, b.strcat tag = strcats b [tag] := fun b => (bind_pure _).symm
  simp only [hone]
  exact grow_iff rfl (List.cons_ne_nil _ _)

theorem grow_one_bind_iff {s tag : CString} {f : Buffer → Except Fault Buffer} :
    ((strdup s).realloc (s.length + tag.length + 1) >>= fun b => b.strcat tag >>= f) = .ok b' ↔
      (s ++ tag).length + 1 < 2 ^ 31 ∧ f (strdup (s ++ tag)) = .ok b' := by
  rw [← bind_assoc]
  exact bind_eq_ok_iff fun _ => grow_one_iff

theorem grow_two_bind_iff {s tag tag' : CString} {f : Buffer → Except Fault Buffer} :
    ((strdup s).realloc (s.length + tag.length + tag'.length + 1) >>=
        fun b => strcats b [tag, tag'] >>= f) = .ok b' ↔
      (s ++ tag ++ tag').length + 1 < 2 ^ 31 ∧ f (strdup (s ++ tag ++ tag')) = .ok b' := by
  refine grow_bind_iff ?_ (List.cons_ne_nil _ _)
  simp only [tagsLength, List.map_cons, List.map_nil, List.sum_cons, List.sum_nil]
  omega

/-- A row is added where the text with it can be counted. -/
theorem addRow_eq_ok_iff {s : CString} {info : Info} :
    addRow (strdup s) info = .ok b' ↔
      (addTags s (rowTags info)).length + 1 < 2 ^ 31 ∧
        b' = strdup (addTags s (rowTags info)) := by
  have hname := tagsLength_nameTags info
  have hdate := tagsLength_dateTags info
  have hsize := tagsLength_sizeTags info
  refine (grow_bind_iff ?_ (show nameTags info ≠ [] from List.cons_ne_nil _ _)).trans ?_
  · rw [hname, strdup_text]
    omega
  refine (and_congr_right' (grow_bind_iff ?_
    (show dateTags info ≠ [] from List.cons_ne_nil _ _))).trans ?_
  · rw [hdate, strdup_text]
    omega
  refine (and_congr_right' (and_congr_right'
    (grow_iff ?_ (show sizeTags info ≠ [] from List.cons_ne_nil _ _)))).trans ?_
  · rw [hsize, strdup_text]
    omega
  rw [rowTags, addTags_append, addTags_append]
  simp only [addTags_length, ← and_assoc]
  refine and_congr_left fun _ => ?_
  omega

/-- The rows are added where the text with all of them can be counted. -/
theorem addRows_eq_ok_iff {s : CString} {infos : List Info} (hs : s.length + 1 < 2 ^ 31) :
    infos.foldlM addRow (strdup s) = .ok b' ↔
      (addTags s (infos.flatMap rowTags)).length + 1 < 2 ^ 31 ∧
        b' = strdup (addTags s (infos.flatMap rowTags)) := by
  induction infos generalizing s with
  | nil => exact ⟨fun h => ⟨hs, (Except.ok.inj h).symm⟩, fun h => congrArg Except.ok h.2.symm⟩
  | cons info infos ih =>
    rw [List.foldlM_cons, bind_eq_ok, List.flatMap_cons, addTags_append]
    simp only [addRow_eq_ok_iff]
    constructor
    · intro h
      obtain ⟨b₁, ⟨hfits, rfl⟩, h⟩ := h
      exact (ih hfits).mp h
    · intro h
      have hrow : (addTags s (rowTags info)).length + 1 < 2 ^ 31 := by
        rw [addTags_length] at h
        omega
      exact ⟨_, ⟨hrow, rfl⟩, (ih hrow).mpr h⟩

/-- **The page of a directory** is made exactly if it can be counted. -/
theorem directoryPage_eq_ok_iff {dirPath : CString} {infos : List Info} :
    directoryPage dirPath infos = .ok b' ↔
      (pageText dirPath infos).length + 1 < 2 ^ 31 ∧ b' = strdup (pageText dirPath infos) := by
  unfold directoryPage
  simp only [strdup_text, grow_one_bind_iff, grow_two_bind_iff]
  rw [← pageTitle, bind_eq_ok]
  constructor
  · intro h
    obtain ⟨-, -, htitle, b₁, hrows, h⟩ := h
    obtain ⟨-, rfl⟩ := (addRows_eq_ok_iff htitle).mp hrows
    exact grow_one_iff.mp h
  · intro h
    have hfits := h.1
    rw [pageText, CString.append_length, addTags_length] at hfits
    have htitle : (pageTitle dirPath).length + 1 < 2 ^ 31 := by omega
    have hrows : (addTags (pageTitle dirPath) (infos.flatMap rowTags)).length + 1 < 2 ^ 31 := by
      rw [addTags_length]
      omega
    refine ⟨?_, ?_, htitle, _, (addRows_eq_ok_iff htitle).mpr ⟨hrows, rfl⟩, grow_one_iff.mpr h⟩
    · rw [pageTitle] at htitle
      simp only [CString.append_length] at htitle ⊢
      omega
    · rw [pageTitle] at htitle
      simp only [CString.append_length] at htitle ⊢
      omega

end Grow

end Cs252.Http
