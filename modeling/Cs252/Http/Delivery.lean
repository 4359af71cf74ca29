import Cs252.Http.Server

/-!
# Cs252.Http.Delivery

What a client gets of a file.

`parse_respond` sends as many bytes as `strlen` finds in the response, less what
it finds in the body, plus the length of the file and one more. For a body with
a zero byte in it, both calls stop there, and one byte too many is sent. For an
image without one, three are. Any other file is read into a buffer without a
terminator, and the second call runs on into the memory behind it: the client
gets the file if and only if just three bytes are found there.
-/

namespace Cs252.Http

variable {host : Host} {request : HttpRequest} {contentType : CString} {content : List UInt8}

/-- The response to a request of a file of some length, up to the body. -/
def fileHead (request : HttpRequest) (contentType : CString) (length : Nat) : List UInt8 :=
  request.httpVersion.bytes ++ ascii " 200 OK\r\nContent-Type: " ++ contentType.bytes ++
    ascii "\r\nConnection: close\r\nContent-Length: " ++ (decimal length).bytes ++
    ascii "\r\n\r\n"

/-! ### The response -/

theorem fileHead_eq_head (messageBody : List UInt8) (length : Nat) :
    (fileResponse request contentType length messageBody).head.bytes =
      fileHead request contentType length := by
  have hstatus : ascii " 200 OK\r\nContent-Type: " = (CString.lit " ").bytes ++
      (decimal 200).bytes ++ (CString.lit " ").bytes ++ (statusReason 200).bytes ++ crlf.bytes ++
      (CString.lit "Content-Type").bytes ++ (CString.lit ": ").bytes := by decide
  have hclose : ascii "\r\nConnection: close\r\nContent-Length: " = crlf.bytes ++
      (CString.lit "Connection").bytes ++ (CString.lit ": ").bytes ++ (CString.lit "close").bytes ++
      crlf.bytes ++ (CString.lit "Content-Length").bytes ++ (CString.lit ": ").bytes := by decide
  have hend : ascii "\r\n\r\n" = crlf.bytes ++ crlf.bytes := by decide
  simp only [fileHead, hstatus, hclose, hend, HttpResponse.head, HttpResponse.statusLine, addLines,
    fileResponse, responseHeaders, List.foldl_cons, List.foldl_nil, Header.line,
    CString.append_bytes, List.append_assoc]

theorem zero_notMem_fileHead (length : Nat) : 0 ∉ fileHead request contentType length :=
  fileHead_eq_head [] length ▸ CString.noNul _

theorem contentLength_fileResponse (request : HttpRequest) (contentType : CString)
    {messageLength : Int} (hnonneg : 0 ≤ messageLength)
    (hlt : messageLength < 2 ^ 31) (messageBody : List UInt8) :
    (fileResponse request contentType messageLength messageBody).contentLength =
      messageLength := by
  have htype : CString.lit "Content-Type" ≠ .lit "Content-Length" := by decide
  have hclose : CString.lit "Connection" ≠ .lit "Content-Length" := by decide
  simp only [HttpResponse.contentLength, fileResponse, responseHeaders, List.foldl_cons,
    List.foldl_nil, Header.contentLength, if_neg htype, if_neg hclose, if_pos,
    atoi_decimal hnonneg hlt]

/-- Two lengths with the same text are the same. -/
theorem fileHead_inj {m n : Nat} {xs ys : List UInt8}
    (h : fileHead request contentType m ++ xs = fileHead request contentType n ++ ys) : m = n := by
  have hend : ascii "\r\n\r\n" = 13 :: [10, 13, 10] := by decide
  have hdigits : ∀ k : Nat, 13 ∉ (decimal k).bytes := fun k hk =>
    absurd (isDigit_of_mem_decimal (Int.natCast_nonneg k) hk) (by decide)
  simp only [fileHead, hend, List.append_assoc, List.cons_append, List.append_cancel_left_eq] at h
  have hcut : ∀ (k : Nat) (zs : List UInt8),
      ((decimal k).bytes ++ 13 :: zs).takeWhile (· ≠ 13) = (decimal k).bytes :=
    fun k zs => takeWhile_ne_append (hdigits k) zs
  have hdecimal := congrArg (List.takeWhile (· ≠ 13)) h
  rw [hcut, hcut] at hdecimal
  exact Int.ofNat.inj
    (decimal_inj (Int.natCast_nonneg m) (Int.natCast_nonneg n) (CString.ext hdecimal))

/-! ### Reading a file -/

/-- An image that is read is no longer than its buffer, and is terminated. -/
theorem readImage_eq_ok {maxChar num : Nat} {messageBody : List UInt8}
    (h : readImage maxChar num content = .ok messageBody) (hnum : num < maxChar)
    (hmax : maxChar < 2 ^ 31) :
    messageBody = content ++ [0] ∧ num + content.length < 2 ^ 31 := by
  induction content generalizing maxChar num messageBody with
  | nil =>
    cases h
    exact ⟨rfl, by simp only [List.length_nil]; omega⟩
  | cons ch rest ih =>
    obtain ⟨maxChar', hgrow, h⟩ := bind_eq_ok.mp h
    obtain ⟨body, hbody, h⟩ := bind_eq_ok.mp h
    cases h
    have hroom : num + 1 < maxChar' ∧ maxChar' < 2 ^ 31 := by
      unfold roomFor at hgrow
      split at hgrow
      · split at hgrow <;> cases hgrow
        next hnonneg => exact ⟨by omega, by have := lt_of_le_asInt (by omega) hnonneg; omega⟩
      · cases hgrow
        omega
    obtain ⟨rfl, hlt⟩ := ih hbody hroom.1 hroom.2
    exact ⟨rfl, by rw [List.length_cons]; omega⟩

/-- What follows the content of a file in memory. -/
def afterContent (host : Host) (contentType : CString) : List UInt8 :=
  if isImage contentType then [0] else host.afterBody

theorem readBody_eq (hlt : content.length < 2 ^ 31) (htext : ¬isImage contentType) :
    readBody host contentType content = .ok (content ++ host.afterBody) := by
  have hnum := asInt_of_lt (Int.natCast_nonneg content.length) (by omega)
  rw [readBody, if_neg htext, readText, hnum, if_neg (by omega), Int.toNat_natCast,
    List.take_length]

theorem readBody_eq_ok {messageBody : List UInt8}
    (h : readBody host contentType content = .ok messageBody) :
    0 ≤ asInt content.length ∧
      messageBody = content.take (asInt content.length).toNat ++ afterContent host contentType := by
  unfold readBody at h
  unfold afterContent
  split at h
  · obtain ⟨rfl, hlt⟩ := readImage_eq_ok h (by decide) (by decide)
    rw [Nat.zero_add] at hlt
    rw [asInt_of_lt (Int.natCast_nonneg _) (by omega), Int.toNat_natCast, List.take_length,
      if_pos ‹_›]
    exact ⟨Int.natCast_nonneg _, rfl⟩
  · unfold readText at h
    split at h
    · cases h
    · rw [if_neg ‹_›]
      exact ⟨Int.not_lt.mp ‹_›, (Except.ok.inj h).symm⟩

/-! ### What is sent -/

/-- What is sent is as long as it should be, or nothing is. -/
theorem socketWrite_eq_ok {memory sent : List UInt8} {length : Nat}
    (h : socketWrite memory length = .ok sent) : sent <+: memory ∧ sent.length = length := by
  simp only [socketWrite] at h
  split at h
  · next hlength =>
    cases h
    exact ⟨List.take_prefix _ _, hlength⟩
  · cases h

theorem socketWrite_append (xs ys : List UInt8) :
    socketWrite (xs ++ ys) xs.length = .ok xs := by
  simp only [socketWrite, List.take_left, if_true]

theorem Host.afterBody_lt (host : Host) : host.afterBody.length < 2 ^ 64 :=
  Nat.lt_of_le_of_lt (Nat.le_add_right _ _) host.addressable

variable (host request contentType content)

/-- The response to a request of a file, and the memory after it. -/
def stringMemory : List UInt8 :=
  fileHead request contentType content.length ++ content ++ (crlf.memory ++ host.afterString)

/-- The number of bytes that are sent, where `strlen` finds `found` bytes after
the content. -/
def sentLength (found : Nat) : Nat :=
  if 0 ∈ content then (fileHead request contentType content.length).length + content.length + 1
  else asSizeT ((fileHead request contentType content.length).length + content.length + 3 - found)

/-- The length that `response_string` has to fit in an `int`. An empty body is
measured. -/
def spaceNeeded (found : Nat) : Nat :=
  (fileHead request contentType content.length).length + 3 +
    if content.length = 0 then found else content.length

variable {host request contentType content}

/-- What is counted of the body is what the response needs besides its head. -/
theorem bodyLength_content (request : HttpRequest) (contentType : CString)
    {rest : List UInt8} {found : Nat}
    (hrest : 0 ∉ content → strlen rest = some found) :
    ∃ counted, bodyLength content.length (content ++ rest) = .ok counted ∧
      content.length ≤ counted ∧
      (spaceNeeded request contentType content found : Int) =
        (fileHead request contentType content.length).length + 3 + counted := by
  unfold bodyLength spaceNeeded
  split
  · next hzero =>
    have hnil : content = [] := List.length_eq_zero_iff.mp (by omega)
    have hfound : strlen rest = some found := hrest (by rw [hnil]; exact List.not_mem_nil)
    refine ⟨found, by rw [hnil, List.nil_append, hfound], by omega, ?_⟩
    rw [if_pos (by omega)]
    omega
  · refine ⟨content.length, rfl, Int.le_refl _, ?_⟩
    rw [if_neg (by omega)]
    omega

/-- The text of a file is spelled out, where an `int` can count the response. -/
theorem responseString_fileResponse {rest : List UInt8} {found : Nat}
    (hrest : 0 ∉ content → strlen rest = some found) (hlt : content.length < 2 ^ 31)
    (hfits : spaceNeeded request contentType content found < 2 ^ 31) :
    responseString (fileResponse request contentType content.length (content ++ rest)) =
      .ok (fileHead request contentType content.length ++ content ++ crlf.memory) := by
  have hstatus : (decimal 200).length = 3 := by decide
  have hcontent := contentLength_fileResponse request contentType
    (Int.natCast_nonneg content.length) (by omega) (content ++ rest)
  have htake : (fileResponse request contentType content.length
      (content ++ rest)).messageBody.take content.length = content := List.take_left
  obtain ⟨counted, hcounted, hle, hspace⟩ := bodyLength_content request contentType hrest
  rw [← hcontent] at hcounted
  rw [responseString_eq hstatus hcounted, fileHead_eq_head, hcontent, Int.toNat_natCast, htake]
  · rw [hcontent, Int.toNat_natCast]
    exact List.length_append ▸ Nat.le_add_right _ _
  · rw [hcontent, Int.toNat_natCast]
    exact hle
  · rw [CString.length, fileHead_eq_head]
    omega

/-- The two calls of `strlen` differ by what is sent less the length of the file. -/
theorem strlen_difference {rest : List UInt8} {m n found : Nat}
    (hfits : (fileHead request contentType content.length).length + content.length < 2 ^ 31)
    (hstring : strlen (stringMemory host request contentType content) = some m)
    (hbody : strlen (content ++ rest) = some n) (hrest : 0 ∉ content → strlen rest = some found) :
    asSizeT (m - n + content.length + 1) = sentLength request contentType content found := by
  have hhead : 0 ∉ fileHead request contentType content.length := zero_notMem_fileHead _
  rw [stringMemory, List.append_assoc, strlen_append hhead] at hstring
  unfold sentLength
  split
  · next hnul =>
    rw [strlen_append_of_mem hnul] at hbody hstring
    rw [hbody, Option.map_some, Option.some.injEq] at hstring
    have hsent := asSizeT_of_lt (n := m - n + content.length + 1) (by omega) (by omega)
    omega
  · next hnul =>
    have hcrlf : strlen (crlf.memory ++ host.afterString) = some 2 := rfl
    rw [strlen_append hnul, hrest hnul, Option.map_some, Option.some.injEq] at hbody
    rw [strlen_append hnul, hcrlf, Option.map_some, Option.map_some, Option.some.injEq] at hstring
    congr 1
    omega

/-- The response is spelled out, and its text fits the `int` that counts it. -/
theorem respondFile_fits {messageBody bytes : List UInt8} {length : Nat} (hlt : length < 2 ^ 31)
    (h : responseString (fileResponse request contentType length messageBody) = .ok bytes) :
    bytes = fileHead request contentType length ++ messageBody.take length ++ crlf.memory ∧
    ∃ counted, bodyLength length messageBody = .ok counted ∧
      (fileHead request contentType length).length + length + 3 ≤
        asInt ((fileHead request contentType length).length + 3 + counted) := by
  have hcontent := contentLength_fileResponse request contentType
    (Int.natCast_nonneg length) (by omega) messageBody
  obtain ⟨hbytes, -, counted, hcounted, hle⟩ := responseString_eq_ok h
  rw [CString.length, fileHead_eq_head, hcontent] at hle
  rw [fileHead_eq_head, hcontent] at hbytes
  rw [hcontent] at hcounted
  exact ⟨hbytes, counted, hcounted, hle⟩

/-- What `strlenOf` returns. -/
theorem strlenOf_eq_ok {memory : List UInt8} {n : Nat} (h : strlenOf memory = .ok n) :
    strlen memory = some n := by
  unfold strlenOf at h
  split at h <;> cases h
  assumption

theorem respondFile_eq_ok {bytes : List UInt8} (hlt : content.length < 2 ^ 31)
    (h : respondFile host request contentType content = .ok bytes) :
    ∃ found, (0 ∉ content → strlen (afterContent host contentType) = some found) ∧
      socketWrite (stringMemory host request contentType content)
        (sentLength request contentType content found) = .ok bytes ∧
      (fileHead request contentType content.length).length + content.length + 3 ≤
        asInt (spaceNeeded request contentType content found) := by
  obtain ⟨body, hbody, h⟩ := bind_eq_ok.mp h
  obtain ⟨string, hstring, h⟩ := bind_eq_ok.mp h
  obtain ⟨m, hm, h⟩ := bind_eq_ok.mp h
  obtain ⟨n, hn, h⟩ := bind_eq_ok.mp h
  have hbytes := h
  have hbody := (readBody_eq_ok hbody).2
  rw [asInt_of_lt (Int.natCast_nonneg _) (by omega)] at hstring hbytes hbody
  rw [Int.toNat_natCast, List.take_length] at hbody
  obtain ⟨hspelled, length, hlength, hle⟩ := respondFile_fits hlt hstring
  rw [hbody, List.take_left] at hspelled
  have hsize := asInt_lt ((fileHead request contentType content.length).length + 3 + length)
  have hn := strlenOf_eq_ok hn
  obtain ⟨found, hfound⟩ : ∃ found,
      0 ∉ content → strlen (afterContent host contentType) = some found := by
    by_cases hnul : 0 ∈ content
    · exact ⟨0, fun h => absurd hnul h⟩
    · rw [hbody, strlen_append hnul] at hn
      obtain ⟨found, hfound, -⟩ := Option.map_eq_some_iff.mp hn
      exact ⟨found, fun _ => hfound⟩
  have hm : strlen (stringMemory host request contentType content) = some m := by
    rw [stringMemory, ← List.append_assoc, ← hspelled]
    exact strlenOf_eq_ok hm
  refine ⟨found, hfound, ?_, ?_⟩
  · have hmemory : stringMemory host request contentType content = string ++ host.afterString := by
      rw [stringMemory, hspelled, List.append_assoc _ crlf.memory]
    rw [← strlen_difference (by omega) hm (hbody ▸ hn) hfound, hmemory]
    exact hbytes
  · obtain ⟨counted, hcounted, -, hspace⟩ := bodyLength_content request contentType hfound
    rw [hbody, hcounted] at hlength
    cases hlength
    rw [hspace]
    exact hle

/-- A text that is followed by three bytes and a zero is sent as it is. -/
theorem respondFile_exact (htext : ¬isImage contentType) (hnul : 0 ∉ content)
    (hfound : strlen host.afterBody = some 3) (hlt : content.length < 2 ^ 31)
    (hfits : spaceNeeded request contentType content 3 < 2 ^ 31) :
    respondFile host request contentType content =
      .ok (fileHead request contentType content.length ++ content) := by
  have hnum := asInt_of_lt (Int.natCast_nonneg content.length) (by omega)
  have hshort : (fileHead request contentType content.length).length + content.length < 2 ^ 31 := by
    unfold spaceNeeded at hfits
    split at hfits <;> omega
  have hstring := responseString_fileResponse (fun _ => hfound) hlt hfits
  have hbody : readBody host contentType content = .ok (content ++ host.afterBody) :=
    readBody_eq hlt htext
  have hm : strlen (stringMemory host request contentType content) =
      some ((fileHead request contentType content.length).length + (content.length + 2)) := by
    rw [stringMemory, List.append_assoc, strlen_append (zero_notMem_fileHead _),
      strlen_append hnul]
    rfl
  have hn : strlen (content ++ host.afterBody) = some (content.length + 3) := by
    rw [strlen_append hnul, hfound]
    rfl
  have hsent : sentLength request contentType content 3 =
      (fileHead request contentType content.length ++ content).length := by
    have hsize := asSizeT_of_lt (n := (fileHead request contentType content.length).length +
      content.length + 3 - (3 : Nat)) (by omega) (by omega)
    rw [sentLength, if_neg hnul, List.length_append]
    omega
  have hdifference := strlen_difference hshort hm hn fun _ => hfound
  refine bind_eq_ok.mpr ⟨_, hbody, ?_⟩
  rw [hnum]
  refine bind_eq_ok.mpr ⟨_, hstring, ?_⟩
  rw [List.append_assoc _ crlf.memory, ← stringMemory]
  refine bind_eq_ok.mpr ⟨_, by rw [strlenOf, hm], ?_⟩
  refine bind_eq_ok.mpr ⟨_, by rw [strlenOf, hn], ?_⟩
  change socketWrite (stringMemory host request contentType content) (asSizeT _) = _
  rw [hdifference, hsent, stringMemory, socketWrite_append]

/-- A length that is sent right. -/
theorem length_of_delivered {bytes : List UInt8}
    (h : respondFile host request contentType content = .ok bytes)
    (hbytes : bytes = fileHead request contentType content.length ++ content) :
    content.length < 2 ^ 31 := by
  obtain ⟨body, hbody, h⟩ := bind_eq_ok.mp h
  obtain ⟨string, hstring, h⟩ := bind_eq_ok.mp h
  obtain ⟨m, -, h⟩ := bind_eq_ok.mp h
  obtain ⟨n, -, h⟩ := bind_eq_ok.mp h
  have hnonneg := (readBody_eq_ok hbody).1
  have hlt := asInt_lt content.length
  obtain ⟨num, hnum⟩ := Int.eq_ofNat_of_zero_le hnonneg
  rw [hnum] at hstring
  obtain ⟨hspelled, -⟩ := respondFile_fits (by omega) hstring
  have hsent : bytes <+: string ++ host.afterString := (socketWrite_eq_ok h).1
  obtain ⟨rest, hrest⟩ := hsent
  rw [hbytes, hspelled] at hrest
  simp only [List.append_assoc] at hrest
  have := fileHead_inj hrest
  omega

theorem respondNotFound_eq : respondNotFound = .ok
    (ascii "HTTP/1.1 404 Not Found\r\nContent-Type: text/plain\r\nConnection: close\r\n" ++
      ascii "Content-Length: 13\r\n\r\n404 Not Found\r\n") := by
  decide

/-- **A file is delivered byte by byte** exactly if it can be written as well, is
not an image, has no zero byte, and is followed in memory by three bytes that
are not zero and one that is; and if an `int` can count the response. -/
theorem delivered_iff {file : File}
    (hfile : host.file (revisedPath request.requestUri) = some file)
    (htype : getContentType host (revisedPath request.requestUri) = .ok (some contentType)) :
    parseRespond host request =
        .ok (fileHead request contentType file.content.length ++ file.content) ↔
      file.writable ∧ ¬isImage contentType ∧ 0 ∉ file.content ∧
        strlen host.afterBody = some 3 ∧
        spaceNeeded request contentType file.content 3 < 2 ^ 31 := by
  have hdir := host.notDirectory _ (by rw [hfile]; rfl)
  have hopen := Host.openUpdate_eq hfile
  cases hwritable : file.writable with
  | false =>
    -- 404 is sent, and there is no 2 in it
    rw [hwritable, if_neg Bool.false_ne_true] at hopen
    simp only [parseRespond, hopen, hdir, respondNotFound_eq]
    refine iff_of_false (fun h => ?_) (fun h => nomatch h.1)
    have hmem : 50 ∈ fileHead request contentType file.content.length ++ file.content := by
      have htwo : 50 ∈ ascii " 200 OK\r\nContent-Type: " := by decide
      simp [fileHead, htwo]
    exact absurd (Except.ok.inj h ▸ hmem) (by decide)
  | true =>
    rw [hwritable, if_pos rfl] at hopen
    simp only [parseRespond, hopen, htype]
    constructor
    · intro h
      have hlt := length_of_delivered h rfl
      obtain ⟨found, hfound, hbytes, hspace⟩ := respondFile_eq_ok hlt h
      have hsent := (socketWrite_eq_ok hbytes).2
      rw [List.length_append] at hsent
      have hint := asInt_lt (spaceNeeded request contentType file.content found)
      have hnul : 0 ∉ file.content := fun hnul => by
        rw [sentLength, if_pos hnul] at hsent
        omega
      rw [sentLength, if_neg hnul, asSizeT] at hsent
      have hfound := hfound hnul
      have htext : ¬isImage contentType := fun himage => by
        rw [afterContent, if_pos himage] at hfound
        cases hfound
        omega
      rw [afterContent, if_neg htext] at hfound
      have haddressable := Nat.lt_trans (strlen_lt hfound) host.afterBody_lt
      obtain rfl : found = 3 := by omega
      refine ⟨trivial, htext, hnul, hfound, ?_⟩
      have := lt_of_le_asInt (by unfold spaceNeeded; split <;> omega) hspace
      omega
    · rintro ⟨-, htext, hnul, hfound, hfits⟩
      refine respondFile_exact htext hnul hfound ?_ hfits
      unfold spaceNeeded at hfits
      split at hfits <;> omega

/-- A host with one file, `index.html`. -/
def Host.single (file : File) (type : List UInt8) (afterBody : List UInt8)
    (h : afterBody.length < 2 ^ 64) : Host where
  file path := if path = .lit "./http-root-dir/htdocs/index.html" then some file else none
  isDirectory _ := false
  entries _ := none
  fileCommand _ := some (0, type)
  qsort _ infos := infos
  afterBody := afterBody
  afterString := []
  addressable := h
  notDirectory _ _ := rfl

/-- A request of `index.html`. -/
def indexRequest : HttpRequest where
  method := .lit "GET"
  requestUri := .lit "/index.html"
  httpVersion := .lit "HTTP/1.1"
  headers := []
  messageBody := .lit ""
  query := .lit ""

/-- Two bytes of text, with just the right bytes behind them. -/
theorem delivered_hi :
    parseRespond (.single ⟨ascii "hi", true⟩ (ascii "text/html\n") [1, 1, 1, 0] (by decide))
        indexRequest =
      .ok (fileHead indexRequest (.lit "text/html") 2 ++ ascii "hi") :=
  have hfile : (Host.single ⟨ascii "hi", true⟩ (ascii "text/html\n") [1, 1, 1, 0] (by decide)).file
      (revisedPath indexRequest.requestUri) = some ⟨ascii "hi", true⟩ := rfl
  (delivered_iff hfile rfl).mpr ⟨rfl, by decide, by decide, by decide, by decide⟩

/-- An image is sent with three bytes more, its `"\r\n"` and the terminator. -/
theorem image_overrun :
    let host := Host.single ⟨ascii "GIF89a", true⟩ (ascii "image/gif\n") [] (by decide)
    let head := fileHead indexRequest (.lit "image/gif") 6
    parseRespond host indexRequest = .ok (head ++ ascii "GIF89a" ++ [13, 10, 0]) ∧
      parseRespond host indexRequest ≠ .ok (head ++ ascii "GIF89a") := by
  decide

end Cs252.Http
