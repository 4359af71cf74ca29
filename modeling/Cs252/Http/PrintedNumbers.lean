import Cs252.Http.DirectoryLinks

/-!
# Cs252.Http.PrintedNumbers

The numbers that the server prints with `sprintf`, each to a buffer of its own.

`Printed` is such a call: the bytes asked of `malloc`, and the text. The five calls
compute their bytes in three ways. For the number in a `Content-Length` header it is
the number itself, which is enough from 2 on (`lengthPrinted_fits_iff`). For a size it
is one more than the bytes of an `int`, which is enough for four digits. For a date it
is always enough.

A buffer that is too small is overrun by what `malloc` rounds up to, and the rest of the
model leaves it at that; here the bytes that are asked for count.
-/

namespace Cs252.Http

/-- A `sprintf` to memory of its own: the bytes asked of `malloc`, and the text. -/
structure Printed where
  room : Nat
  text : CString
  deriving DecidableEq

/-- The text fits, and its terminator. -/
def Printed.Fits (p : Printed) : Prop := p.text.length + 1 ≤ p.room

instance (p : Printed) : Decidable p.Fits := inferInstanceAs (Decidable (_ ≤ _))

/-! ### The calls -/

/-- `sizeof(int)`. -/
def sizeofInt : Nat := 4

/-- The value of a `Content-Length` header, in `parse_respond` and in `handle_directory`. -/
def lengthPrinted (length : Int) : Printed := ⟨asSizeT length, decimal length⟩

/-- `size_str`. -/
def sizePrinted (size : Int) : Printed := ⟨sizeofInt + 1, decimal size⟩

/-- `md_time`. -/
def datePrinted (foo : Tm) : Printed :=
  ⟨sizeofInt + sizeofInt + sizeofInt + sizeofInt + sizeofInt + 6, mdTime foo⟩

/-- What the round for an entry prints. -/
def entryPrinted (ent : Entry) : List Printed :=
  (if ent.isDir then [] else [sizePrinted (asInt ent.size)]) ++ [datePrinted ent.modified]

/-- What the loop over the entries prints, up to the round that fails. -/
def entriesPrinted (dirPath : CString) : List Entry → List Printed
  | [] => []
  | ent :: entries =>
    match fileInfo dirPath ent with
    | .error _ => []
    | .ok _ => entryPrinted ent ++ entriesPrinted dirPath entries

/-- The page of a directory. -/
def pageBuffer (host : Host) (dirPath : CString) (entries : List Entry) : Except Fault Buffer := do
  let infos ← entries.mapM (fileInfo dirPath)
  directoryPage dirPath (shownInfos host infos)

/-- What is printed for the page, once it is made. -/
def pagePrinted (host : Host) (dirPath : CString) (entries : List Entry) : List Printed :=
  match pageBuffer host dirPath entries with
  | .error _ => []
  | .ok messageBody => [lengthPrinted (asInt messageBody.text.length)]

/-- What `handle_directory` prints. -/
def directoryPrinted (host : Host) (dirPath : CString) : List Printed :=
  match host.entries dirPath with
  | none => []
  | some entries => entriesPrinted dirPath entries ++ pagePrinted host dirPath entries

/-- The body that the branch for a file reads. -/
def fileBody (host : Host) (path : CString) (content : List UInt8) : Except Fault (List UInt8) := do
  match ← getContentType host path with
  | none => .error .null
  | some contentType => readBody host contentType content

/-- What the branch for a file prints, once the file is read. -/
def filePrinted (host : Host) (path : CString) (content : List UInt8) : List Printed :=
  match fileBody host path content with
  | .error _ => []
  | .ok _ => [lengthPrinted (asInt content.length)]

/-- What `parse_respond` prints. -/
def respondPrinted (host : Host) (request : HttpRequest) : List Printed :=
  let path := revisedPath request.requestUri
  match host.openUpdate path with
  | none =>
    if host.isDirectory path then directoryPrinted host path
    else [lengthPrinted (CString.lit "404 Not Found").length]
  | some content => filePrinted host path content

/-! ### Which of them fit -/

/-- A date as `gmtime` breaks it down, of a year with four digits. -/
structure Tm.FourDigits (foo : Tm) : Prop where
  year : 1000 ≤ foo.year + 1900 ∧ foo.year + 1900 < 10000
  mon : 0 ≤ foo.mon ∧ foo.mon < 12
  mday : 1 ≤ foo.mday ∧ foo.mday ≤ 31
  hour : 0 ≤ foo.hour ∧ foo.hour < 24
  min : 0 ≤ foo.min ∧ foo.min < 60

/-- An `int` holds the size of every file, and the dates have four-digit years. -/
structure Host.InRange (host : Host) : Prop where
  content : ∀ path content, host.openUpdate path = some content → content.length < 2 ^ 31
  size : ∀ path entries, host.entries path = some entries → ∀ ent ∈ entries,
    ent.isDir = false → ent.size < 2 ^ 31
  date : ∀ path entries, host.entries path = some entries → ∀ ent ∈ entries,
    ent.modified.FourDigits

/-- A number has fewer digits than it says, from 2 on. -/
theorem lengthPrinted_fits_iff {n : Nat} (hlt : n < 2 ^ 31) : (lengthPrinted n).Fits ↔ 2 ≤ n := by
  have hroom : asSizeT n = n := by
    have := asSizeT_of_lt (n := n) (by omega) (by omega)
    omega
  have hfits : (lengthPrinted n).Fits ↔ (decimal n).length + 1 ≤ n := by
    rw [Printed.Fits, lengthPrinted, hroom]
  rw [hfits]
  constructor
  · intro h
    by_contra hsmall
    have hempty : (decimal n).length ≤ 0 := by omega
    have hone : n = 0 ∨ n = 1 := by omega
    rcases hone with rfl | rfl
    · exact absurd hempty (by decide)
    · exact absurd hempty (by decide)
  · intro h
    obtain ⟨k, rfl⟩ : ∃ k, n = k + 1 + 1 := ⟨n - 2, by omega⟩
    have hpow : k + 1 + 1 < 10 ^ (k + 1) := by
      have hlt := Nat.lt_two_pow_self (n := k + 1)
      have hbase := Nat.pow_lt_pow_left (a := 2) (b := 10) (by decide) (Nat.succ_ne_zero k)
      omega
    have hdigits : (decimal (k + 1 + 1 : Nat)).length ≤ k + 1 :=
      (length_decimal_le_iff (Int.natCast_nonneg _) (Nat.succ_pos k)).mpr hpow
    omega

theorem sizePrinted_fits_iff {n : Nat} (hlt : n < 2 ^ 31) :
    (sizePrinted (asInt n)).Fits ↔ n < 10000 := by
  have hint : asInt n = n := asInt_of_lt (Int.natCast_nonneg n) (by omega)
  rw [hint, Printed.Fits, sizePrinted, sizeofInt, Nat.add_le_add_iff_right]
  exact length_decimal_le_iff (Int.natCast_nonneg n) (by decide)

theorem length_decimal_two {n : Int} (hnonneg : 0 ≤ n) (hlt : n < 100) : (decimal n).length ≤ 2 :=
  (length_decimal_le_iff hnonneg (by decide)).mpr (by omega)

/-- A date always fits. -/
theorem datePrinted_fits {foo : Tm} (h : foo.FourDigits) : (datePrinted foo).Fits := by
  obtain ⟨hyear, hmon, hmday, hhour, hmin⟩ := h
  have hyear : (decimal (foo.year + 1900)).length ≤ 4 :=
    (length_decimal_le_iff (by omega) (by decide)).mpr (by omega)
  have hmon := length_decimal_two (n := foo.mon + 1) (by omega) (by omega)
  have hmday := length_decimal_two (n := foo.mday) (by omega) (by omega)
  have hhour := length_decimal_two hhour.1 (by omega)
  have hmin := length_decimal_two hmin.1 (by omega)
  have hdash : (CString.lit "-").length = 1 := rfl
  have hcomma : (CString.lit ", ").length = 2 := rfl
  have hcolon : (CString.lit ":").length = 1 := rfl
  simp only [Printed.Fits, datePrinted, mdTime, sizeofInt, CString.append_length, hdash, hcomma,
    hcolon]
  omega

/-! ### The numbers of a request -/

section Request

variable {host : Host} {request : HttpRequest} {path : CString} {entries : List Entry}
  {content : List UInt8}

/-- The path can be copied to `tmp`, and has a fourth part. -/
def PathUsable (path : CString) : Prop := path.length < 256 ∧ (path.tokens 47)[3]?.isSome

/-- The file at a path is read, and sent. -/
def Host.Sends (host : Host) (path : CString) (content : List UInt8) : Prop :=
  host.openUpdate path = some content ∧
    ∃ contentType, getContentType host path = .ok (some contentType)

/-- The directory at a path is listed. -/
def Host.Lists (host : Host) (path : CString) (entries : List Entry) : Prop :=
  host.openUpdate path = none ∧ host.isDirectory path = true ∧ host.entries path = some entries ∧
    PathUsable path

theorem pathUsable_iff (ent : Entry) : PathUsable path ↔ ∃ info, fileInfo path ent = .ok info := by
  simp only [fileInfo_eq_ok_iff, PathUsable, Option.isSome_iff_exists]
  exact ⟨fun ⟨hshort, sub, hsub⟩ => ⟨_, hshort, sub, hsub, rfl⟩,
    fun ⟨_, hshort, sub, hsub, _⟩ => ⟨hshort, sub, hsub⟩⟩

theorem entryPrinted_fit_iff {ent : Entry} (hsize : ent.isDir = false → ent.size < 2 ^ 31)
    (hdate : ent.modified.FourDigits) :
    (∀ p ∈ entryPrinted ent, p.Fits) ↔ (ent.isDir = false → ent.size < 10000) := by
  have hfits := datePrinted_fits hdate
  cases hdir : ent.isDir with
  | true => simp [entryPrinted, hdir, hfits]
  | false => simp [entryPrinted, hdir, hfits, sizePrinted_fits_iff (hsize hdir)]

/-- Every round prints, or the first one fails already. -/
theorem entriesPrinted_fit_iff (path : CString)
    (hsize : ∀ ent ∈ entries, ent.isDir = false → ent.size < 2 ^ 31)
    (hdate : ∀ ent ∈ entries, ent.modified.FourDigits) :
    (∀ p ∈ entriesPrinted path entries, p.Fits) ↔
      (PathUsable path → ∀ ent ∈ entries, ent.isDir = false → ent.size < 10000) := by
  induction entries with
  | nil => exact iff_of_true nofun fun _ => nofun
  | cons ent entries ih =>
    rw [List.forall_mem_cons] at hsize hdate
    have hent := entryPrinted_fit_iff hsize.1 hdate.1
    have hrest := ih hsize.2 hdate.2
    rw [entriesPrinted]
    split
    · next fault hfault =>
      refine iff_of_true nofun fun husable => ?_
      obtain ⟨info, hinfo⟩ := (pathUsable_iff ent).mp husable
      cases hfault.symm.trans hinfo
    · next info hinfo =>
      have husable : PathUsable path := (pathUsable_iff ent).mpr ⟨info, hinfo⟩
      rw [List.forall_mem_append, hent, hrest, forall_prop_of_true husable,
        forall_prop_of_true husable, List.forall_mem_cons]

/-- The length of a page always fits. -/
theorem pagePrinted_fits : ∀ p ∈ pagePrinted host path entries, p.Fits := by
  unfold pagePrinted
  split
  · exact nofun
  · next messageBody hbody =>
    obtain ⟨infos, -, hpage⟩ := bind_eq_ok.mp hbody
    obtain ⟨hlt, rfl⟩ := directoryPage_eq_ok_iff.mp hpage
    have htitle : 2 ≤ (pageText path (shownInfos host infos)).length := by
      have hend : (CString.lit "</table></body></html>").length = 22 := rfl
      rw [pageText, CString.append_length, hend]
      omega
    rw [List.forall_mem_singleton, strdup_text, asInt_of_lt (Int.natCast_nonneg _) (by omega)]
    exact (lengthPrinted_fits_iff (by omega)).mpr htitle

/-- A file of less than two bytes is read. -/
theorem readBody_of_short (host : Host) (contentType : CString) (h : content.length < 2) :
    ∃ messageBody, readBody host contentType content = .ok messageBody := by
  by_cases himage : isImage contentType
  · rw [readBody, if_pos himage]
    cases content with
    | nil => exact ⟨_, rfl⟩
    | cons c rest =>
      have hrest : rest = [] :=
        List.length_eq_zero_iff.mp (Nat.lt_one_iff.mp (Nat.lt_of_succ_lt_succ h))
      rw [hrest]
      exact ⟨_, rfl⟩
  · exact ⟨_, readBody_eq (by omega) himage⟩

/-- The length of a file fits from two bytes on. -/
theorem filePrinted_fit_iff (host : Host) (path : CString) (hlt : content.length < 2 ^ 31) :
    (∀ p ∈ filePrinted host path content, p.Fits) ↔
      ∀ contentType, getContentType host path = .ok (some contentType) → 2 ≤ content.length := by
  have hint : asInt content.length = content.length :=
    asInt_of_lt (Int.natCast_nonneg _) (by omega)
  unfold filePrinted
  split
  · next fault hfault =>
    refine iff_of_true nofun fun contentType htype => Nat.not_lt.mp fun hshort => ?_
    obtain ⟨messageBody, hread⟩ := readBody_of_short host contentType hshort
    have hbody : fileBody host path content = .ok messageBody :=
      bind_eq_ok.mpr ⟨_, htype, hread⟩
    cases hfault.symm.trans hbody
  · next messageBody hbody =>
    obtain ⟨found, hfound, hread⟩ := bind_eq_ok.mp hbody
    cases found with
    | none => cases hread
    | some contentType =>
      rw [List.forall_mem_singleton, hint, lengthPrinted_fits_iff hlt]
      exact ⟨fun h _ _ => h, fun h => h contentType hfound⟩

theorem directoryPrinted_fit_iff (hrange : host.InRange) :
    (∀ p ∈ directoryPrinted host path, p.Fits) ↔ ∀ entries, host.entries path = some entries →
      PathUsable path → ∀ ent ∈ entries, ent.isDir = false → ent.size < 10000 := by
  unfold directoryPrinted
  cases hentries : host.entries path with
  | none => exact iff_of_true nofun nofun
  | some entries =>
    have hlisted := entriesPrinted_fit_iff path (hrange.size _ _ hentries)
      (hrange.date _ _ hentries)
    rw [List.forall_mem_append, hlisted, and_iff_left pagePrinted_fits]
    exact ⟨fun h _ heq => Option.some.inj heq ▸ h, fun h => h entries rfl⟩

/-- **Numbers fit their buffers** exactly if a file that is sent has at least two bytes,
and a file that is listed less than 10000. -/
theorem respondPrinted_fit_iff (hrange : host.InRange) :
    (∀ p ∈ respondPrinted host request, p.Fits) ↔
      (∀ content, host.Sends (revisedPath request.requestUri) content → 2 ≤ content.length) ∧
      ∀ entries, host.Lists (revisedPath request.requestUri) entries → ∀ ent ∈ entries,
        ent.isDir = false → ent.size < 10000 := by
  simp only [respondPrinted]
  generalize revisedPath request.requestUri = path
  cases hopen : host.openUpdate path with
  | some content =>
    have hfile := filePrinted_fit_iff host path (hrange.content _ _ hopen)
    simp [Host.Sends, Host.Lists, hopen, hfile]
  | none =>
    cases hdir : host.isDirectory path with
    | false =>
      have hmessage : (lengthPrinted (CString.lit "404 Not Found").length).Fits :=
        (lengthPrinted_fits_iff (by decide)).mpr (by decide)
      simp [Host.Sends, Host.Lists, hopen, hdir, hmessage]
    | true => simp [Host.Sends, Host.Lists, hopen, hdir, directoryPrinted_fit_iff hrange]

/-- What is printed for a directory with a file of six bytes. -/
theorem respondPrinted_fit_sample : sampleHost.InRange ∧
    ∀ p ∈ respondPrinted sampleHost { indexRequest with requestUri := .lit "/dir1" }, p.Fits := by
  have hrange : sampleHost.InRange := by
    refine ⟨nofun, ?_, ?_⟩
    · rintro path entries ⟨⟩ ent hent -
      obtain rfl := List.mem_singleton.mp hent
      decide
    · rintro path entries ⟨⟩ ent hent
      obtain rfl := List.mem_singleton.mp hent
      exact ⟨by decide, by decide, by decide, by decide, by decide⟩
  refine ⟨hrange, (respondPrinted_fit_iff hrange).mpr ⟨nofun, ?_⟩⟩
  rintro entries ⟨-, -, ⟨⟩, -⟩ ent hent -
  obtain rfl := List.mem_singleton.mp hent
  decide

/-- A host on which every directory has a file of so many bytes in it. -/
def hostOfSize (size : Nat) : Host :=
  { sampleHost with entries := fun _ => some [{ sampleEntry with size := size }] }

/-- The lengths of an empty file and of one with a single byte, and the size of a file of
10000 bytes in a directory, do not fit. -/
theorem printed_overrun :
    respondPrinted (.single ⟨[], true⟩ (ascii "text/html\n") [] (by decide)) indexRequest =
        [⟨0, .lit "0"⟩] ∧
      respondPrinted (.single ⟨ascii "a", true⟩ (ascii "text/html\n") [] (by decide)) indexRequest =
        [⟨1, .lit "1"⟩] ∧
      ⟨5, .lit "10000"⟩ ∈
        respondPrinted (hostOfSize 10000) { indexRequest with requestUri := .lit "/dir1" } ∧
      ¬Printed.Fits ⟨0, .lit "0"⟩ ∧ ¬Printed.Fits ⟨1, .lit "1"⟩ ∧ ¬Printed.Fits ⟨5, .lit "10000"⟩ := by
  decide +kernel

end Request

end Cs252.Http
