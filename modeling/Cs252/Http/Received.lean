import Cs252.Lib.MessageFormat
import Cs252.Http.DirectoryLinks
import Cs252.Http.Survival

/-!
# Cs252.Http.Received

What a client reads of the answer that `handle` sends.

A client does not look at all that is sent: it takes as many bytes for the body
as the response announces. So the bytes that are sent after a body do no harm.
The error page and the page of a directory always arrive. A file arrives if as
many bytes are sent as it has, which is decided by the memory behind the buffer
it was read to, where that is searched for a terminator (`BodySent`).
-/

namespace Cs252.Http

open TextMessage

/-! ### The messages -/

/-- A response with the headers that the server gives it. -/
def serverMessage (start contentType : List UInt8) (body : List UInt8) : TextMessage where
  startLine := start
  fields := [(ascii "Content-Type", contentType), (ascii "Connection", ascii "close"),
    (ascii "Content-Length", (decimal body.length).bytes)]
  body := body

/-- The response to a request of something that is there. -/
def okMessage (request : HttpRequest) (contentType : CString) (body : List UInt8) : TextMessage :=
  serverMessage (request.httpVersion.bytes ++ ascii " 200 OK") contentType.bytes body

/-- The error page. -/
def notFoundMessage : TextMessage :=
  serverMessage (ascii "HTTP/1.1 404 Not Found") (ascii "text/plain") (ascii "404 Not Found")

/-- A client finds the message at the beginning of what is sent. -/
def Receives (sent : List UInt8) (m : TextMessage) : Prop := ∃ rest, read sent = some (m, rest)

/-! ### They can be written -/

/-- What has no `"\n"` in it does not end a line. -/
theorem not_lineEnd_append {xs ys : List UInt8} (hxs : ¬lineEnd <:+: xs) (hys : 10 ∉ ys) :
    ¬lineEnd <:+: xs ++ ys := by
  rintro ⟨before, after, h⟩
  have hpre : before ++ lineEnd <+: xs ++ ys := ⟨after, h⟩
  rcases List.prefix_or_prefix_of_prefix hpre (List.prefix_append xs ys) with hle | ⟨t, ht⟩
  · exact hxs ((List.suffix_append before lineEnd).isInfix.trans hle.isInfix)
  · rcases List.eq_nil_or_concat t with rfl | ⟨t', c, rfl⟩
    · rw [List.append_nil] at ht
      exact hxs (ht ▸ (List.suffix_append before lineEnd).isInfix)
    · rw [← ht, List.prefix_append_right_inj] at hpre
      have hlast : before ++ [13] ++ [10] = xs ++ t' ++ [c] := by
        simpa [lineEnd] using ht.symm
      obtain rfl : 10 = c := (List.append_inj' hlast rfl).2 |> List.singleton_inj.mp
      exact hys (hpre.subset (by simp))

theorem not_lineEnd_of_notMem {xs : List UInt8} (h : 10 ∉ xs) : ¬lineEnd <:+: xs :=
  fun hin => h (hin.subset (by decide))

theorem parseNumber_decimal (n : Nat) : parseNumber (decimal n).bytes = some n := by
  have hbytes := decimal_bytes_of_nonneg (Int.natCast_nonneg n)
  have hne : (decimal n).bytes ≠ [] := by
    rw [hbytes]
    simp [Nat.toDigits_ne_nil]
  have hdigits : (decimal n).bytes.all isDigit = true :=
    List.all_eq_true.mpr fun c hc => isDigit_of_mem_decimal (Int.natCast_nonneg n) hc
  rw [parseNumber, if_pos ⟨hne, hdigits⟩, hbytes, digitsValue_toDigits, Int.natAbs_natCast]

theorem fieldOk_of_value {name value : List UInt8} (hcolon : 58 ∉ name) (hname : 10 ∉ name)
    (hvalue : ∀ c ∈ value, c ≠ 32 ∧ c ≠ 10) : FieldOk (name, value) where
  name := hcolon
  value h := (hvalue 32 (List.mem_of_mem_head? h)).1 rfl
  line := by
    refine not_lineEnd_of_notMem fun hmem => ?_
    have hvalue' : 10 ∉ value := fun h => (hvalue 10 h).2 rfl
    simp [fieldLine, hname, hvalue'] at hmem

theorem serverMessage_wellFormed {start contentType : List UInt8}
    (hstart : ¬lineEnd <:+: start) (htype : ∀ c ∈ contentType, c ≠ 32 ∧ c ≠ 10)
    (body : List UInt8) : (serverMessage start contentType body).WellFormed where
  startLine := not_lineEnd_append hstart (by decide)
  fields := by
    have hdigits : ∀ c ∈ (decimal body.length).bytes, c ≠ 32 ∧ c ≠ 10 := by
      intro c hc
      have := isDigit_of_mem_decimal (Int.natCast_nonneg _) hc
      constructor <;> rintro rfl <;> exact absurd this (by decide)
    simp only [serverMessage, List.forall_mem_cons]
    exact ⟨fieldOk_of_value (by decide) (by decide) htype,
      fieldOk_of_value (by decide) (by decide) (by decide +kernel),
      fieldOk_of_value (by decide) (by decide) hdigits, List.forall_mem_nil _⟩
  length := by
    have hfind : announcedLength (serverMessage start contentType body).fields =
        parseNumber (decimal body.length).bytes := by
      have htype : (ascii "Content-Type").map lower ≠ ascii "content-length" := by decide
      have hclose : (ascii "Connection").map lower ≠ ascii "content-length" := by decide
      have hlength : (ascii "Content-Length").map lower = ascii "content-length" := by decide
      simp only [announcedLength, serverMessage]
      rw [List.find?_cons_of_neg (by simpa using htype),
        List.find?_cons_of_neg (by simpa using hclose),
        List.find?_cons_of_pos (by simpa using hlength), Option.bind_some]
    rw [hfind]
    exact parseNumber_decimal body.length

theorem okMessage_write (request : HttpRequest) (contentType : CString) (body : List UInt8) :
    (okMessage request contentType body).write =
      fileHead request contentType body.length ++ body := by
  have hstatus : ascii " 200 OK\r\nContent-Type: " =
      ascii " 200 OK" ++ lineEnd ++ ascii "Content-Type" ++ [58, 32] := by decide
  have hclose : ascii "\r\nConnection: close\r\nContent-Length: " = lineEnd ++
      ascii "Connection" ++ [58, 32] ++ ascii "close" ++ lineEnd ++ ascii "Content-Length" ++
        [58, 32] := by decide
  have hend : ascii "\r\n\r\n" = lineEnd ++ lineEnd := by decide
  simp only [write, okMessage, serverMessage, fieldLine, fileHead, hstatus, hclose, hend,
    List.flatMap_cons, List.flatMap_nil, List.append_assoc, List.append_nil]

theorem notFoundMessage_write : respondNotFound = .ok (notFoundMessage.write ++ lineEnd) := by
  rw [respondNotFound_eq]
  decide

/-! ### The version of the request -/

/-- There is no line end in a line of the head. -/
theorem not_lineEnd_chop {line input rest : List UInt8} (h : WireLine line input rest) :
    ¬lineEnd <:+: (chop (.ofMemory line)).bytes := by
  have hpre : (chop (.ofMemory line)).bytes <+: line :=
    (List.take_prefix _ _).trans (List.takeWhile_prefix _)
  have hlength : (chop (.ofMemory line)).bytes.length ≤ line.length - 2 := by
    have hle : (CString.ofMemory line).bytes.length ≤ line.length :=
      (List.takeWhile_prefix _).length_le
    rw [chop, List.length_take, CString.length]
    omega
  cases h with
  | crlf hplain =>
    rw [List.length_append, List.length_cons, List.length_singleton, Nat.add_sub_cancel] at hlength
    have htext := List.prefix_of_prefix_length_le hpre (List.prefix_append _ _) hlength
    exact fun hin => hplain.2 ((hin.trans htext.isInfix).trans (List.prefix_append _ _).isInfix)
  | eof hplain => exact fun hin => hplain.2 (hin.trans hpre.isInfix)
  | closed hplain => exact fun hin => hplain.2 (hin.trans hpre.isInfix)

theorem httpVersion_line {input : List UInt8} {request : HttpRequest} (h : Denotes input request) :
    ¬lineEnd <:+: request.httpVersion.bytes := by
  cases h with
  | @request firstLine lines method rawPath httpVersion words headers hhead _ hwords _ =>
    have hmem : httpVersion ∈ firstLine.tokens 32 := by
      rw [hwords]
      simp
    cases hhead with
    | line hwire _ _ _ =>
      exact fun hin => not_lineEnd_chop hwire (hin.trans (CString.infix_of_mem_tokens hmem))

/-! ### Files -/

/-- All of a file is sent: it is an image or has a zero byte in it, or the next one is
three bytes behind the buffer or closer. -/
def BodySent (host : Host) (contentType : CString) (content : List UInt8) : Prop :=
  content.length < 2 ^ 31 ∧ (isImage contentType ∨ 0 ∈ content ∨
    ∀ found, strlen host.afterBody = some found → found ≤ 3)

section Files

variable {host : Host} {request : HttpRequest} {contentType : CString} {content sent : List UInt8}

/-- A type is printed without blanks and line ends. -/
theorem contentType_visible {path : CString}
    (h : getContentType host path = .ok (some contentType)) :
    ∀ c ∈ contentType.bytes, c ≠ 32 ∧ c ≠ 10 := by
  unfold getContentType at h
  split at h
  · cases h
  · next status output _ =>
    split at h
    · cases h
      intro c hc
      have hspace := List.of_mem_filter ((List.takeWhile_sublist _).subset hc)
      constructor <;> rintro rfl <;> exact absurd hspace (by decide)
    · cases h

theorem okMessage_wellFormed (hversion : ¬lineEnd <:+: request.httpVersion.bytes)
    (htype : ∀ c ∈ contentType.bytes, c ≠ 32 ∧ c ≠ 10) (body : List UInt8) :
    (okMessage request contentType body).WellFormed :=
  serverMessage_wellFormed (not_lineEnd_append hversion (by decide)) htype body

/-- Where the number of bytes to be sent has not wrapped, `strlen` decides. -/
theorem sentLength_iff {found : Nat} (hfits : (fileHead request contentType content.length).length +
      content.length + 3 < 2 ^ 31)
    (hfound : 0 ∉ content → strlen (afterContent host contentType) = some found)
    (hnear : 0 ∉ content →
      found ≤ (fileHead request contentType content.length).length + content.length + 3)
    (hlt : content.length < 2 ^ 31) :
    (fileHead request contentType content.length).length + content.length ≤
        sentLength request contentType content found ↔ BodySent host contentType content := by
  unfold sentLength BodySent
  split
  · next hnul => exact iff_of_true (Nat.le_succ _) ⟨hlt, .inr (.inl hnul)⟩
  · next hnul =>
    have hfound := hfound hnul
    have hnear := hnear hnul
    have hsent := @asSizeT_of_lt ((fileHead request contentType content.length).length +
      content.length + 3 - found) (by omega) (by omega)
    by_cases himage : isImage contentType = true
    · rw [afterContent, if_pos himage] at hfound
      cases hfound
      exact iff_of_true (by omega) ⟨hlt, .inl himage⟩
    · rw [afterContent, if_neg himage] at hfound
      simp only [hfound, Option.some.injEq, forall_eq', hlt, himage, hnul, true_and,
        Bool.false_eq_true, false_or]
      omega

/-- A file that arrives is counted by an `int`: of a longer one, less is announced. -/
theorem length_lt_of_receives (hversion : ¬lineEnd <:+: request.httpVersion.bytes)
    (htype : ∀ c ∈ contentType.bytes, c ≠ 32 ∧ c ≠ 10)
    (h : respondFile host request contentType content = .ok sent)
    (hreads : Receives sent (okMessage request contentType content)) : content.length < 2 ^ 31 := by
  obtain ⟨body, hbody, h⟩ := bind_eq_ok.mp h
  obtain ⟨string, hstring, h⟩ := bind_eq_ok.mp h
  obtain ⟨m, -, h⟩ := bind_eq_ok.mp h
  obtain ⟨n, -, h⟩ := bind_eq_ok.mp h
  obtain ⟨hnonneg, hbody⟩ := readBody_eq_ok hbody
  have hint := asInt_lt content.length
  obtain ⟨num, hnum⟩ := Int.eq_ofNat_of_zero_le hnonneg
  rw [hnum] at hstring hint hbody h
  by_contra hlong
  have hstring := (respondFile_fits (by omega) hstring).1
  -- only `num` bytes are announced
  have hshort : (content.take num).length = num := List.length_take_of_le (by omega)
  rw [hbody, Int.toNat_natCast, List.take_append_of_le_length (Nat.le_of_eq hshort.symm),
    List.take_of_length_le (Nat.le_of_eq hshort)] at hstring
  have hpre : sent <+: (okMessage request contentType (content.take num)).write ++
      (crlf.memory ++ host.afterString) := by
    rw [okMessage_write, hshort, ← List.append_assoc _ crlf.memory, ← hstring]
    exact (socketWrite_eq_ok h).1
  obtain ⟨hsame, -⟩ := (read_prefix_iff (okMessage_wellFormed hversion htype _) hpre).mp hreads
  have hlength : content.length = (content.take num).length :=
    congrArg (fun m => m.body.length) hsame
  omega

/-- A file arrives exactly if all of it is sent. -/
theorem receives_file_iff (hversion : ¬lineEnd <:+: request.httpVersion.bytes)
    (htype : ∀ c ∈ contentType.bytes, c ≠ 32 ∧ c ≠ 10)
    (h : respondFile host request contentType content = .ok sent) :
    Receives sent (okMessage request contentType content) ↔
      BodySent host contentType content := by
  by_cases hlt : content.length < 2 ^ 31
  · obtain ⟨found, hfound, hsend, hspace⟩ := respondFile_eq_ok hlt h
    obtain ⟨hbytes, hsent⟩ := socketWrite_eq_ok hsend
    have hint := asInt_lt (spaceNeeded request contentType content found)
    have hwrite := okMessage_write request contentType content
    have hlength : (okMessage request contentType content).write.length =
        (fileHead request contentType content.length).length + content.length := by
      rw [hwrite, List.length_append]
    have hstream : stringMemory host request contentType content =
        (okMessage request contentType content).write ++ (crlf.memory ++ host.afterString) := by
      rw [stringMemory, hwrite]
    have hnear := (sentLength_le_iff (by omega) fun hnul => strlen_afterContent_lt (hfound hnul)).mp
      (socketWrite_ok_iff.mp ⟨sent, hsend⟩)
    rw [hstream] at hbytes
    rw [Receives, read_prefix_iff (okMessage_wellFormed hversion htype content) hbytes, hsent,
      hlength, sentLength_iff (by omega) hfound hnear hlt]
    exact and_iff_right rfl
  · exact iff_of_false (fun hreads => hlt (length_lt_of_receives hversion htype h hreads))
      fun hsent => hlt hsent.1

end Files

/-! ### Answers -/

theorem receives_write {m : TextMessage} (h : m.WellFormed) (rest : List UInt8) :
    Receives (m.write ++ rest) m := ⟨rest, read_write h rest⟩

theorem notFoundMessage_wellFormed : notFoundMessage.WellFormed :=
  serverMessage_wellFormed (not_lineEnd_of_notMem (by decide)) (by decide +kernel) _

theorem receives_notFound {sent : List UInt8} (h : respondNotFound = .ok sent) :
    Receives sent notFoundMessage := by
  rw [notFoundMessage_write] at h
  rw [← Except.ok.inj h]
  exact receives_write notFoundMessage_wellFormed lineEnd

/-- What a client gets of the answer to a request: the error page, the page of a
directory, or a file if all of it is sent. -/
inductive Received (host : Host) (request : HttpRequest) (sent : List UInt8) : Prop
  | nothing : host.openUpdate (revisedPath request.requestUri) = none →
      host.isDirectory (revisedPath request.requestUri) = false →
      Receives sent notFoundMessage → Received host request sent
  | directory {entries : List Entry} {infos : List Info} :
      host.openUpdate (revisedPath request.requestUri) = none →
      host.isDirectory (revisedPath request.requestUri) = true →
      host.entries (revisedPath request.requestUri) = some entries →
      entries.mapM (fileInfo (revisedPath request.requestUri)) = .ok infos →
      Receives sent (okMessage request (.lit "text/html")
        (pageText (revisedPath request.requestUri) (shownInfos host infos)).bytes) →
      Received host request sent
  | file {content : List UInt8} {contentType : CString} :
      host.openUpdate (revisedPath request.requestUri) = some content →
      getContentType host (revisedPath request.requestUri) = .ok (some contentType) →
      (Receives sent (okMessage request contentType content) ↔
        BodySent host contentType content) → Received host request sent

theorem received_of_parseRespond {host : Host} {request : HttpRequest} {sent : List UInt8}
    (hversion : ¬lineEnd <:+: request.httpVersion.bytes)
    (h : parseRespond host request = .ok sent) : Received host request sent := by
  unfold parseRespond at h
  cases hopen : host.openUpdate (revisedPath request.requestUri) with
  | none =>
    simp only [hopen] at h
    split at h
    · next hdir =>
      cases hentries : host.entries (revisedPath request.requestUri) with
      | none =>
        rw [handleDirectory] at h
        simp only [hentries] at h
        cases h
      | some entries =>
        obtain ⟨infos, hinfos, -, rfl⟩ := (handleDirectory_eq_ok_iff hentries).mp h
        refine .directory hopen hdir hentries hinfos ?_
        have hwrite := okMessage_write request (.lit "text/html")
          (pageText (revisedPath request.requestUri) (shownInfos host infos)).bytes
        have htype : ∀ c ∈ (CString.lit "text/html").bytes, c ≠ 32 ∧ c ≠ 10 := by decide +kernel
        have hpage := receives_write (okMessage_wellFormed hversion htype
          (pageText (revisedPath request.requestUri) (shownInfos host infos)).bytes) crlf.bytes
        rwa [hwrite] at hpage
    · exact .nothing hopen (Bool.not_eq_true _ ▸ ‹_›) (receives_notFound h)
  | some content =>
    simp only [hopen] at h
    obtain ⟨contentType, htype, h⟩ := bind_eq_ok.mp h
    cases contentType with
    | none => cases h
    | some contentType =>
      exact .file hopen htype (receives_file_iff hversion (contentType_visible htype) h)

/-- **Who gets what**: whatever a client sends, if it is answered at all, it gets the error
page or the page of the directory it asks for, or it gets the file just if all of
it is sent. -/
theorem client_receives {host : Host} {input sent : List UInt8} (h : handle host input = .ok sent) :
    ∃ request, Denotes input request ∧ Received host request sent := by
  obtain ⟨request, hdenotes, hsent⟩ := handle_eq_ok_iff.mp h
  exact ⟨request, hdenotes, received_of_parseRespond (httpVersion_line hdenotes) hsent⟩

/-- A page with three bytes behind its buffer. -/
theorem client_receives_page :
    let host := Host.single ⟨ascii "hi", true⟩ (ascii "text/html\n") [1, 1, 1, 0] (by decide)
    let input := ascii "GET / HTTP/1.1\r\n\r\n"
    let sent := (okMessage indexRequest (.lit "text/html") (ascii "hi")).write
    handle host input = .ok sent ∧
      ∃ request, Denotes input request ∧ Received host request sent := by
  intro host input sent
  have hsent : handle host input = .ok sent := by decide +kernel
  exact ⟨hsent, client_receives hsent⟩

end Cs252.Http
