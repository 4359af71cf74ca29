import Cs252.Http.Messages
import Cs252.Lib.Doubling

/-!
# Cs252.Http.GeneratedListing

`generate_dir_listing` of `lab5-src/misc.c`.

The function keeps its text in a buffer that is doubled until what comes next fits,
three times: for the header, for the item of each file, and for the footer. The items
and the footer are measured before they are added. For the header it is the format that
is measured, and the name of the directory once, although it is printed twice; and
`snprintf` is told of one byte more than there is.

So the listing depends on the header alone (`written_iff`): it is whole if the size that
is chosen for the header fits it, as long as an `int` can hold the sizes after that.
-/

namespace Cs252.Http

/-! ### Formats -/

/-- What `printf` makes of a format with `%s` in it. -/
def formatBytes : List UInt8 → List CString → List UInt8
  | 37 :: 115 :: format, arg :: args => arg.bytes ++ formatBytes format args
  | c :: format, args => c :: formatBytes format args
  | [], _ => []

/-- The text for a format. -/
def formatText (format : CString) (args : List CString) : CString :=
  .ofMemory (formatBytes format.bytes args)

/-- What `snprintf` makes of a text when it is told that there are `n` bytes. -/
def printed (n : Nat) (text : CString) : CString := .ofMemory (text.bytes.take (n - 1))

/-- `HEADER_FORMAT`. -/
def headerFormat : CString :=
  .lit "<!doctype html>\n\n<title>%s</title>\n<h1>%s</h1>\n<ul>\n"

/-- `LIST_ITEM_FORMAT`. -/
def listItemFormat : CString := .lit "<li>\n<a href=\"%s\">%s</a>\n</li>\n"

/-- `FOOTER_FORMAT`. -/
def footerFormat : CString := .lit "</ul>\n"

/-! ### The function -/

/-- `file_link`. -/
structure FileLink where
  displayName : CString
  url : CString
  deriving DecidableEq

/-- `buffer` and `buffer_size`. -/
structure ListingBuffer where
  text : CString
  bufferSize : Capacity 1024
  fits : text.length < bufferSize.size

/-- A text is written to a buffer, and its terminator. -/
def ListingBuffer.write (bufferSize : Capacity 1024) (text : CString) : Except Fault ListingBuffer :=
  if hfits : text.length < bufferSize.size then .ok ⟨text, bufferSize, hfits⟩
  else .error .outside

/-- The header. Where an `int` does not hold the size, `malloc` refuses it, and `snprintf`
is given `NULL`. -/
def printHeader (dirName : CString) : Except Fault ListingBuffer :=
  match (Capacity.start (by decide)).growTo (by decide) (headerFormat.length + dirName.length + 1) with
  | none => .error .null
  | some bufferSize =>
    ListingBuffer.write bufferSize
      (printed (bufferSize.size + 1) (formatText headerFormat [dirName, dirName]))

/-- `li`. Where its length does not fit an `int`, `malloc` is asked for something else:
`snprintf` is given `NULL`, or leaves `li` as it is. -/
def listItem (file : FileLink) : Except Fault CString :=
  let combinedLength := asInt
    (listItemFormat.length + file.displayName.length + file.url.length + 1)
  if combinedLength < 0 then .error .null
  else if combinedLength = 0 then .error .unset
  else .ok (printed combinedLength.toNat (formatText listItemFormat [file.url, file.displayName]))

namespace ListingBuffer

/-- The loop that doubles the buffer. `realloc` refuses a size that an `int` does not
hold, and the condition of the loop is about `NULL`. -/
def growTo (buffer : ListingBuffer) (needed : Nat) : Except Fault ListingBuffer :=
  match h : buffer.bufferSize.growTo (by decide) needed with
  | none => .error .null
  | some bufferSize =>
    .ok ⟨buffer.text, bufferSize, Nat.lt_of_lt_of_le buffer.fits (Capacity.le_of_growTo h)⟩

/-- `strncat`. -/
def strncat (buffer : ListingBuffer) (s : CString) (n : Nat) : Except Fault ListingBuffer :=
  write buffer.bufferSize (buffer.text ++ .ofMemory (s.bytes.take n))

/-- Room for a string, and then the string. -/
def add (buffer : ListingBuffer) (s : CString) : Except Fault ListingBuffer := do
  let buffer ← buffer.growTo (buffer.text.length + s.length + 1)
  buffer.strncat s (asSizeT (buffer.bufferSize.size - buffer.text.length - 1))

end ListingBuffer

/-- One round of the loop over the files. -/
def addItem (buffer : ListingBuffer) (file : FileLink) : Except Fault ListingBuffer := do
  buffer.add (← listItem file)

/-- `generate_dir_listing`. -/
def generateDirListing (dirName : CString) (files : List FileLink) :
    Except Fault ListingBuffer := do
  let buffer ← printHeader dirName
  let buffer ← files.foldlM addItem buffer
  buffer.add footerFormat

/-! ### The listing -/

/-- The header of a listing. -/
def headerText (dirName : CString) : CString :=
  .lit "<!doctype html>\n\n<title>" ++ dirName ++ .lit "</title>\n<h1>" ++ dirName ++
    .lit "</h1>\n<ul>\n"

/-- The item of a file. -/
def itemText (file : FileLink) : CString :=
  .lit "<li>\n<a href=\"" ++ file.url ++ .lit "\">" ++ file.displayName ++ .lit "</a>\n</li>\n"

/-- Items after a text. -/
def addItems (s : CString) (files : List FileLink) : CString :=
  files.foldl (fun s file => s ++ itemText file) s

theorem length_le_addItems (s : CString) (files : List FileLink) :
    s.length ≤ (addItems s files).length := by
  induction files generalizing s with
  | nil => exact Nat.le_refl _
  | cons file files ih =>
    have hle := ih (s ++ itemText file)
    rw [CString.append_length] at hle
    exact Nat.le_trans (Nat.le_add_right _ _) hle

/-- The listing of a directory. -/
def listingText (dirName : CString) (files : List FileLink) : CString :=
  addItems (headerText dirName) files ++ footerFormat

/-- The whole listing is written, and nothing outside of the buffer. -/
def Written (dirName : CString) (files : List FileLink) : Prop :=
  ∃ buffer, generateDirListing dirName files = .ok buffer ∧
    buffer.text = listingText dirName files

/-- Each size that is enough for the format and the name is enough for the header. -/
def HeaderFits (dirName : CString) : Prop :=
  ∀ k, dirName.length + 53 ≤ 1024 * 2 ^ k → 2 * dirName.length + 49 ≤ 1024 * 2 ^ k

section Listing

variable {dirName s : CString} {files : List FileLink} {file : FileLink}
  {buffer buffer' : ListingBuffer} {n : Nat}

theorem length_headerText (dirName : CString) :
    (headerText dirName).length = 2 * dirName.length + 48 := by
  have hstart : (CString.lit "<!doctype html>\n\n<title>").length = 24 := rfl
  have hmid : (CString.lit "</title>\n<h1>").length = 13 := rfl
  have hend : (CString.lit "</h1>\n<ul>\n").length = 11 := rfl
  simp only [headerText, CString.append_length, hstart, hmid, hend]
  omega

theorem length_itemText (file : FileLink) :
    (itemText file).length = 27 + file.displayName.length + file.url.length := by
  have hstart : (CString.lit "<li>\n<a href=\"").length = 14 := rfl
  have hmid : (CString.lit "\">").length = 2 := rfl
  have hend : (CString.lit "</a>\n</li>\n").length = 11 := rfl
  simp only [itemText, CString.append_length, hstart, hmid, hend]
  omega

theorem formatText_header : formatText headerFormat [dirName, dirName] = headerText dirName := by
  have hbytes : formatBytes headerFormat.bytes [dirName, dirName] = (headerText dirName).bytes := by
    simp only [headerText, CString.append_bytes, List.append_assoc]
    rfl
  rw [formatText, hbytes]
  exact CString.ext (CString.ofMemory_bytes (headerText dirName).noNul)

theorem formatText_item :
    formatText listItemFormat [file.url, file.displayName] = itemText file := by
  have hbytes : formatBytes listItemFormat.bytes [file.url, file.displayName] =
      (itemText file).bytes := by
    simp only [itemText, CString.append_bytes, List.append_assoc]
    rfl
  rw [formatText, hbytes]
  exact CString.ext (CString.ofMemory_bytes (itemText file).noNul)

/-- A string that is not longer is copied as it is. -/
theorem ofMemory_take (h : s.length ≤ n) : CString.ofMemory (s.bytes.take n) = s := by
  rw [List.take_of_length_le h]
  exact CString.ext (CString.ofMemory_bytes s.noNul)

theorem length_ofMemory_take : (CString.ofMemory (s.bytes.take n)).length = min n s.length := by
  have hnul : 0 ∉ s.bytes.take n := fun h => s.noNul (List.mem_of_mem_take h)
  rw [CString.length, CString.ofMemory_bytes hnul, List.length_take]
  rfl

/-- The largest size of the buffer. -/
theorem fits_iff_le : Capacity.Fits 1024 n ↔ n ≤ 2 ^ 30 :=
  Capacity.fits_iff (k := 20) (by decide) (by decide)

theorem ListingBuffer.write_eq_ok {bufferSize : Capacity 1024} (h : write bufferSize s = .ok buffer) :
    buffer.text = s ∧ s.length < bufferSize.size := by
  unfold write at h
  split at h <;> cases h
  exact ⟨rfl, ‹_›⟩

theorem ListingBuffer.exists_write {bufferSize : Capacity 1024} (h : s.length < bufferSize.size) :
    ∃ buffer, write bufferSize s = .ok buffer ∧ buffer.text = s :=
  ⟨⟨s, bufferSize, h⟩, dif_pos h, rfl⟩

/-! ### The header -/

/-- With one byte more than there is, `snprintf` stays inside exactly if the text fits. -/
theorem length_printed_lt_iff : (printed (n + 1) s).length < n ↔ s.length < n := by
  rw [printed, Nat.add_sub_cancel, length_ofMemory_take]
  omega

/-- What the size for the header is chosen by. -/
theorem length_headerFormat_add (dirName : CString) :
    headerFormat.length + dirName.length + 1 = dirName.length + 53 := by
  have hformat : headerFormat.length = 52 := rfl
  omega

theorem printHeader_eq_ok (h : printHeader dirName = .ok buffer) :
    buffer.text = headerText dirName ∧ HeaderFits dirName := by
  rw [printHeader, length_headerFormat_add] at h
  split at h
  · cases h
  · next bufferSize hgrow =>
    obtain ⟨htext, hfits⟩ := ListingBuffer.write_eq_ok h
    obtain ⟨-, hleast⟩ := Capacity.growTo_spec hgrow
    have hlt := length_printed_lt_iff.mp hfits
    rw [printed, Nat.add_sub_cancel, ofMemory_take (Nat.le_of_lt hlt), formatText_header] at htext
    refine ⟨htext, fun k hk => ?_⟩
    have hle := hleast k (Nat.le_mul_of_pos_right 1024 (Nat.two_pow_pos k)) hk
    rw [formatText_header, length_headerText] at hlt
    omega

theorem exists_printHeader (hheader : HeaderFits dirName) (hfits : dirName.length + 53 ≤ 2 ^ 30) :
    ∃ buffer, printHeader dirName = .ok buffer := by
  have hsome := (Capacity.growTo_isSome_iff (c := .start (by decide)) (by decide)).mpr
    (fits_iff_le.mpr hfits)
  obtain ⟨bufferSize, hgrow⟩ := Option.isSome_iff_exists.mp hsome
  obtain ⟨hle, -⟩ := Capacity.growTo_spec hgrow
  obtain ⟨k, hk⟩ := bufferSize.doubled
  have hlt : (printed (bufferSize.size + 1) (formatText headerFormat [dirName, dirName])).length <
      bufferSize.size := by
    have := hheader k (hk ▸ hle)
    rw [length_printed_lt_iff, formatText_header, length_headerText]
    omega
  obtain ⟨buffer, hwrite, -⟩ := ListingBuffer.exists_write hlt
  refine ⟨buffer, ?_⟩
  rw [printHeader, length_headerFormat_add, hgrow]
  exact hwrite

/-! ### The items and the footer -/

namespace ListingBuffer

theorem growTo_eq_ok (h : buffer.growTo n = .ok buffer') :
    buffer'.text = buffer.text ∧ n ≤ buffer'.bufferSize.size := by
  unfold growTo at h
  split at h
  · cases h
  · next bufferSize hgrow =>
    cases h
    exact ⟨rfl, (Capacity.growTo_spec hgrow).1⟩

theorem exists_growTo (buffer : ListingBuffer) (hfits : n ≤ 2 ^ 30) :
    ∃ buffer', buffer.growTo n = .ok buffer' := by
  have hsome := (Capacity.growTo_isSome_iff (c := buffer.bufferSize) (by decide)).mpr
    (fits_iff_le.mpr hfits)
  obtain ⟨bufferSize, hgrow⟩ := Option.isSome_iff_exists.mp hsome
  unfold growTo
  split
  · next hnone => cases hnone.symm.trans hgrow
  · exact ⟨_, rfl⟩

/-- The room that is left is enough for all of the string. -/
theorem exists_add (buffer : ListingBuffer) (hfits : (buffer.text ++ s).length + 1 ≤ 2 ^ 30) :
    ∃ buffer', buffer.add s = .ok buffer' ∧ buffer'.text = buffer.text ++ s := by
  rw [CString.append_length] at hfits
  obtain ⟨grown, hgrow⟩ := exists_growTo buffer hfits
  obtain ⟨htext, hroom⟩ := growTo_eq_ok hgrow
  have hleft : s.length ≤ asSizeT (grown.bufferSize.size - grown.text.length - 1) := by
    have hlt := grown.bufferSize.lt
    have hsize := asSizeT_of_lt (n := grown.bufferSize.size - grown.text.length - 1)
    rw [htext] at hsize ⊢
    omega
  have hlt : (buffer.text ++ s).length < grown.bufferSize.size := by
    rw [CString.append_length]
    omega
  obtain ⟨buffer', hwrite, htext'⟩ := exists_write hlt
  refine ⟨buffer', bind_eq_ok.mpr ⟨grown, hgrow, ?_⟩, htext'⟩
  rw [strncat, ofMemory_take hleft, htext]
  exact hwrite

end ListingBuffer

theorem listItem_eq (hfits : (itemText file).length + 5 < 2 ^ 31) :
    listItem file = .ok (itemText file) := by
  have hlength := length_itemText file
  have hformat : listItemFormat.length = 31 := rfl
  have hint : asInt (listItemFormat.length + file.displayName.length + file.url.length + 1) =
      ((itemText file).length + 5 : Nat) := by
    rw [asInt_of_lt (by omega) (by omega)]
    omega
  simp only [listItem, hint]
  rw [if_neg (by omega), if_neg (by omega), Int.toNat_natCast, formatText_item, printed,
    ofMemory_take (by omega)]

theorem exists_addItems (buffer : ListingBuffer) (files : List FileLink)
    (hfits : (addItems buffer.text files).length + 1 ≤ 2 ^ 30) :
    ∃ buffer', files.foldlM addItem buffer = .ok buffer' ∧
      buffer'.text = addItems buffer.text files := by
  induction files generalizing buffer with
  | nil => exact ⟨buffer, rfl, rfl⟩
  | cons file files ih =>
    have hle := length_le_addItems (buffer.text ++ itemText file) files
    have hlength := CString.append_length buffer.text (itemText file)
    rw [addItems, List.foldl_cons, ← addItems] at hfits
    obtain ⟨added, hadd, htext⟩ := ListingBuffer.exists_add buffer (s := itemText file) (by omega)
    have hitem : addItem buffer file = .ok added :=
      bind_eq_ok.mpr ⟨_, listItem_eq (by omega), hadd⟩
    obtain ⟨buffer', hrest, htext'⟩ := @ih added (by rw [htext]; exact hfits)
    refine ⟨buffer', ?_, ?_⟩
    · rw [List.foldlM_cons]
      exact bind_eq_ok.mpr ⟨added, hitem, hrest⟩
    · rw [htext', htext]
      rfl

/-- **The listing is written** as a whole exactly if the header fits the size that is
chosen for it, and the listing with its terminator has no more than `2 ^ 30` bytes. -/
theorem written_iff : Written dirName files ↔
    HeaderFits dirName ∧ (listingText dirName files).length < 2 ^ 30 := by
  constructor
  · rintro ⟨buffer, hbuffer, htext⟩
    obtain ⟨header, hheader, -⟩ := bind_eq_ok.mp hbuffer
    refine ⟨(printHeader_eq_ok hheader).2, ?_⟩
    rw [← htext]
    exact Nat.lt_of_lt_of_le buffer.fits (fits_iff_le.mp (Capacity.fits (Nat.le_refl _)))
  · rintro ⟨hheader, hfits⟩
    have hlength := length_headerText dirName
    have hle := length_le_addItems (headerText dirName) files
    have hfooter : footerFormat.length = 6 := rfl
    rw [listingText, CString.append_length] at hfits
    obtain ⟨header, hprinted⟩ := exists_printHeader hheader (by omega)
    have htext := (printHeader_eq_ok hprinted).1
    obtain ⟨items, hitems, htext'⟩ := exists_addItems header files (by
      rw [htext]
      omega)
    rw [htext] at htext'
    obtain ⟨buffer, hadd, htext''⟩ := ListingBuffer.exists_add items (s := footerFormat) (by
        rw [htext', CString.append_length]
        omega)
    refine ⟨buffer, bind_eq_ok.mpr ⟨header, hprinted, bind_eq_ok.mpr ⟨items, hitems, hadd⟩⟩, ?_⟩
    rw [htext'', htext', listingText]

end Listing

/-- The name of a directory with 488 characters. -/
def longName : CString := .ofMemory (List.replicate 488 97)

/-- The header for it has 1024 characters, and its terminator is stored behind the 1024
bytes of the buffer. -/
theorem listing_overrun :
    (headerText longName).length = 1024 ∧ generateDirListing longName [] = .error .outside ∧
      ¬Written longName [] := by
  have hlength : (headerText longName).length = 1024 := by decide +kernel
  have hneeded : headerFormat.length + longName.length + 1 ≤
      (Capacity.start (by decide) : Capacity 1024).size := by decide +kernel
  have hheader : printHeader longName = .error .outside := by
    unfold printHeader
    rw [Capacity.growTo_of_le hneeded]
    refine dif_neg fun hlt => ?_
    have := length_printed_lt_iff.mp hlt
    rw [formatText_header, hlength] at this
    exact absurd this (by decide)
  have hlisting : generateDirListing longName [] = .error .outside := by
    rw [generateDirListing, hheader]
    rfl
  refine ⟨hlength, hlisting, ?_⟩
  rintro ⟨buffer, hbuffer, -⟩
  cases hlisting.symm.trans hbuffer

end Cs252.Http
