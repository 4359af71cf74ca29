import Cs252.Lib.CString
import Mathlib.Data.List.Forall2

/-!
# Cs252.Http.Messages

Requests and responses, and how `lab5-src/http_messages.c` spells out a response.

`responseString` builds its result in a buffer that it reallocates before each
group of `strcat`s. The model keeps the size the buffer was last given, so that
a `strcat` or a store past its end is a fault, and computes the new sizes as the
`int`s that the source has. A size that does not fit becomes negative, `realloc`
refuses it, and the next `strcat` is given `NULL`.

The text of a number always fits: its buffer may be asked for with too few
bytes, but no allocation is smaller than 24 bytes.
-/

namespace Cs252.Http

/-- How a request brings the server down. -/
inductive Fault
  /-- The process calls `exit`. -/
  | exits
  /-- A string function is given `NULL`. -/
  | null
  /-- A variable is read before it is set. -/
  | unset
  /-- Memory is accessed outside of what is allocated or mapped. -/
  | outside
  deriving DecidableEq

/-- Two computations in a row succeed if each of them does. -/
theorem bind_eq_ok {α β : Type} {x : Except Fault α} {f : α → Except Fault β} {b : β} :
    (x >>= f) = .ok b ↔ ∃ a, x = .ok a ∧ f a = .ok b := by
  cases x with
  | error e => exact ⟨nofun, fun ⟨_, h, _⟩ => nomatch h⟩
  | ok a => exact ⟨fun h => ⟨a, rfl, h⟩, fun ⟨_, h, hf⟩ => by cases h; exact hf⟩

theorem map_eq_ok {α β : Type} {x : Except Fault α} {f : α → β} {b : β} :
    x.map f = .ok b ↔ ∃ a, x = .ok a ∧ f a = b := by
  cases x with
  | error e => exact ⟨nofun, fun ⟨_, h, _⟩ => nomatch h⟩
  | ok a => exact ⟨fun h => ⟨a, rfl, Except.ok.inj h⟩, fun ⟨_, h, hf⟩ => by cases h; cases hf; rfl⟩

/-- A computation for each element succeeds if each of them does. -/
theorem mapM_eq_ok_iff {α β : Type} {f : α → Except Fault β} {xs : List α} {ys : List β} :
    xs.mapM f = .ok ys ↔ List.Forall₂ (fun x y => f x = .ok y) xs ys := by
  induction xs generalizing ys with
  | nil =>
    rw [List.forall₂_nil_left_iff]
    exact ⟨fun h => (Except.ok.inj h).symm, fun h => h ▸ rfl⟩
  | cons x xs ih =>
    rw [List.mapM_cons, List.forall₂_cons_left_iff, bind_eq_ok]
    constructor
    · intro hxs
      obtain ⟨y, hy, h⟩ := hxs
      obtain ⟨rest, hrest, h⟩ := bind_eq_ok.mp h
      cases h
      exact ⟨y, rest, hy, ih.mp hrest, rfl⟩
    · intro hxs
      obtain ⟨y, rest, hy, hrest, rfl⟩ := hxs
      exact ⟨y, hy, bind_eq_ok.mpr ⟨rest, ih.mpr hrest, rfl⟩⟩

/-! ### Buffers -/

/-- A heap buffer: the string in it and the bytes allocated for it. -/
structure Buffer where
  text : CString
  size : Nat
  deriving DecidableEq

/-- `strdup`. -/
def strdup (s : CString) : Buffer := ⟨s, s.length + 1⟩

namespace Buffer

variable {b b' : Buffer} {s : CString} {newLength : Int}

/-- `realloc` to a length that the source computes as an `int`. -/
def realloc (b : Buffer) (newLength : Int) : Except Fault Buffer :=
  if 0 ≤ asInt newLength then .ok ⟨b.text, (asInt newLength).toNat⟩ else .error .null

/-- `strcat`. -/
def strcat (b : Buffer) (s : CString) : Except Fault Buffer :=
  if b.text.length + s.length < b.size then .ok ⟨b.text ++ s, b.size⟩ else .error .outside

theorem realloc_eq (hnonneg : 0 ≤ newLength) (hlt : newLength < 2 ^ 31) :
    b.realloc newLength = .ok ⟨b.text, newLength.toNat⟩ := by
  rw [realloc, asInt_of_lt hnonneg hlt, if_pos hnonneg]

theorem realloc_eq_ok (h : b.realloc newLength = .ok b') :
    b'.text = b.text ∧ (b'.size : Int) = asInt newLength := by
  unfold realloc at h
  split at h <;> cases h
  exact ⟨rfl, Int.toNat_of_nonneg ‹_›⟩

theorem strcat_eq (h : b.text.length + s.length < b.size) :
    b.strcat s = .ok ⟨b.text ++ s, b.size⟩ := if_pos h

theorem strcat_eq_ok (h : b.strcat s = .ok b') :
    b'.text = b.text ++ s ∧ b'.size = b.size ∧ b.text.length + s.length < b.size := by
  unfold strcat at h
  split at h <;> cases h
  exact ⟨rfl, rfl, ‹_›⟩

end Buffer

/-- A store to allocated memory, of which `none` has not been written. -/
def storeAt (cells : List (Option UInt8)) (i : Nat) (c : UInt8) :
    Except Fault (List (Option UInt8)) :=
  if i < cells.length then .ok (cells.set i (some c)) else .error .outside

/-- A store behind what has been written: the next byte. -/
theorem storeAt_end (done : List UInt8) (rest : List (Option UInt8)) (c : UInt8) :
    storeAt (done.map some ++ rest) done.length c =
      if rest = [] then .error .outside else .ok ((done ++ [c]).map some ++ rest.tail) := by
  cases rest with
  | nil => simp [storeAt]
  | cons x rest => simp [storeAt]

/-! ### Responses -/

/-- `header`; `none` is a `NULL` pointer. -/
structure Header where
  key : Option CString
  value : Option CString
  deriving DecidableEq

/-- `http_request`. -/
structure HttpRequest where
  method : CString
  requestUri : CString
  httpVersion : CString
  headers : List Header
  messageBody : CString
  query : CString
  deriving DecidableEq

/-- `http_response`. The body is the memory that can be read from its pointer on. -/
structure HttpResponse where
  httpVersion : CString
  statusCode : Int
  headers : List Header
  messageBody : List UInt8
  deriving DecidableEq

/-- The cases of `status_reason`. -/
def statusReasons : List (Int × CString) := [
  (100, .lit "Continue"),
  (101, .lit "Switching Protocols"),
  (200, .lit "OK"),
  (201, .lit "Created"),
  (202, .lit "Accepted"),
  (203, .lit "Non-Authoritative Information"),
  (204, .lit "No Content"),
  (205, .lit "Reset Content"),
  (206, .lit "Partial Content"),
  (300, .lit "Multiple Choices"),
  (301, .lit "Moved Permanently"),
  (302, .lit "Found"),
  (303, .lit "See Other"),
  (304, .lit "Not Modified"),
  (305, .lit "Use Proxy"),
  (307, .lit "Temporary Redirect"),
  (400, .lit "Bad Request"),
  (401, .lit "Unauthorized"),
  (402, .lit "Payment Required"),
  (403, .lit "Forbidden"),
  (404, .lit "Not Found"),
  (405, .lit "Method Not Allowed"),
  (406, .lit "Not Acceptable"),
  (407, .lit "Proxy Authentication Required"),
  (408, .lit "Request Time-out"),
  (409, .lit "Conflict"),
  (410, .lit "Gone"),
  (411, .lit "Length Required"),
  (412, .lit "Precondition Failed"),
  (413, .lit "Request Entity Too Large"),
  (414, .lit "Request-URI Too Large"),
  (415, .lit "Unsupported Media Type"),
  (416, .lit "Requested range not satisfiable"),
  (417, .lit "Expectation Failed"),
  (500, .lit "Internal Server Error"),
  (501, .lit "Not Implemented"),
  (502, .lit "Bad Gateway"),
  (503, .lit "Service Unavailable"),
  (504, .lit "Gateway Time-out"),
  (505, .lit "HTTP Version not supported")]

/-- `status_reason`. -/
def statusReason (status : Int) : CString :=
  (statusReasons.lookup status).getD (.lit "Unknown status")

/-- The end of a line. -/
def crlf : CString := .lit "\r\n"

/-- The first line of `response_string`. -/
def startLine (httpVersion : CString) (statusCode : Int) : Except Fault Buffer := do
  let toString := strdup httpVersion
  let toString ← toString.realloc (toString.text.length + 4 + 2)
  let toString ← toString.strcat (.lit " ")
  let toString ← toString.strcat (decimal statusCode)
  let toString ← toString.strcat (.lit " ")
  let reason := statusReason statusCode
  let toString ← toString.realloc (toString.text.length + reason.length + 3)
  let toString ← toString.strcat reason
  toString.strcat crlf

/-- One round of the loop over the headers. -/
def addHeader (state : Buffer × Int) (header : Header) : Except Fault (Buffer × Int) :=
  match header.key, header.value with
  | some key, some value => do
    let (toString, contentLength) := state
    let toString ← toString.realloc (toString.text.length + key.length + value.length + 5)
    let toString ← toString.strcat key
    let toString ← toString.strcat (.lit ": ")
    let toString ← toString.strcat value
    let toString ← toString.strcat crlf
    return (toString, if key = .lit "Content-Length" then atoi value else contentLength)
  | _, _ => .ok state

/-- The length by which `response_string` takes the body into account. -/
def bodyLength (contentLength : Int) (messageBody : List UInt8) : Except Fault Int :=
  if contentLength = 0 then
    match strlen messageBody with
    | none => .error .outside
    | some n => .ok n
  else .ok contentLength

/-- The end of `response_string`: copy `contentLength` bytes of the body after
the text, byte by byte, and then store `"\r\n"`. -/
def copyBody (toString : Buffer) (contentLength : Nat) (messageBody : List UInt8) :
    Except Fault (List UInt8) :=
  if contentLength ≤ messageBody.length ∧
      toString.text.length + contentLength + 3 ≤ toString.size then
    .ok (toString.text.bytes ++ messageBody.take contentLength ++ crlf.memory)
  else .error .outside

/-- `response_string`: the bytes it writes into the buffer it returns. -/
def responseString (response : HttpResponse) : Except Fault (List UInt8) := do
  let toString ← startLine response.httpVersion response.statusCode
  let (toString, contentLength) ← response.headers.foldlM addHeader (toString, 0)
  let length ← bodyLength contentLength response.messageBody
  let toString ← toString.realloc (toString.text.length + 5 + length)
  let toString ← toString.strcat crlf
  copyBody toString contentLength.toNat response.messageBody

/-! ### What is spelled out -/

/-- The line of a header; a header without key or value has none. -/
def Header.line (header : Header) : CString :=
  match header.key, header.value with
  | some key, some value => key ++ .lit ": " ++ value ++ crlf
  | _, _ => .lit ""

/-- The body length that a header announces. -/
def Header.contentLength (header : Header) (before : Int) : Int :=
  match header.key, header.value with
  | some key, some value => if key = .lit "Content-Length" then atoi value else before
  | _, _ => before

/-- The lines of headers after a text. -/
def addLines (s : CString) (headers : List Header) : CString :=
  headers.foldl (fun s header => s ++ header.line) s

theorem length_le_addLines (s : CString) (headers : List Header) :
    s.length ≤ (addLines s headers).length := by
  induction headers generalizing s with
  | nil => exact Nat.le_refl _
  | cons header headers ih =>
    have := ih (s ++ header.line)
    rw [CString.append_length] at this
    exact Nat.le_trans (Nat.le_add_right _ _) this

namespace HttpResponse

variable (response : HttpResponse)

/-- The status line. -/
def statusLine : CString :=
  response.httpVersion ++ .lit " " ++ decimal response.statusCode ++ .lit " " ++
    statusReason response.statusCode ++ crlf

/-- The status line and the headers, and the blank line after them. -/
def head : CString := addLines response.statusLine response.headers ++ crlf

/-- The length of the body, as the last header that announces it has it. -/
def contentLength : Int := response.headers.foldl (fun n header => header.contentLength n) 0

end HttpResponse

variable {response : HttpResponse} {b b' : Buffer} {n n' : Int} {header : Header}

@[simp] theorem length_crlf : crlf.length = 2 := rfl

@[simp] theorem crlf_memory : crlf.memory = [13, 10, 0] := rfl

theorem startLine_eq (hstatus : (decimal response.statusCode).length = 3)
    (hfits : response.statusLine.length + 1 < 2 ^ 31) :
    startLine response.httpVersion response.statusCode =
      .ok ⟨response.statusLine, response.statusLine.length + 1⟩ := by
  have hspace : (CString.lit " ").length = 1 := rfl
  have hlength : response.statusLine.length =
      response.httpVersion.length + 7 + (statusReason response.statusCode).length := by
    simp only [HttpResponse.statusLine, CString.append_length, hspace, hstatus, length_crlf]
    omega
  refine bind_eq_ok.mpr ⟨_, Buffer.realloc_eq ?_ ?_, ?_⟩
  · simp only [strdup]; omega
  · simp only [strdup]; omega
  refine bind_eq_ok.mpr ⟨_, Buffer.strcat_eq ?_, ?_⟩
  · simp only [strdup, hspace]; omega
  refine bind_eq_ok.mpr ⟨_, Buffer.strcat_eq ?_, ?_⟩
  · simp only [strdup, CString.append_length, hspace, hstatus]; omega
  refine bind_eq_ok.mpr ⟨_, Buffer.strcat_eq ?_, ?_⟩
  · simp only [strdup, CString.append_length, hspace, hstatus]; omega
  refine bind_eq_ok.mpr ⟨_, Buffer.realloc_eq ?_ ?_, ?_⟩
  · simp only [strdup, CString.append_length, hspace, hstatus]; omega
  · simp only [strdup, CString.append_length, hspace, hstatus]; omega
  refine bind_eq_ok.mpr ⟨_, Buffer.strcat_eq ?_, ?_⟩
  · simp only [strdup, CString.append_length, hspace, hstatus]; omega
  rw [Buffer.strcat_eq]
  · simp only [strdup, CString.append_length, hspace, hstatus, hlength, Except.ok.injEq,
      Buffer.mk.injEq]
    exact ⟨rfl, by omega⟩
  · simp only [strdup, CString.append_length, hspace, hstatus, length_crlf]; omega

theorem startLine_eq_ok (h : startLine response.httpVersion response.statusCode = .ok b) :
    b.text = response.statusLine := by
  obtain ⟨b₁, h₁, h⟩ := bind_eq_ok.mp h
  obtain ⟨b₂, h₂, h⟩ := bind_eq_ok.mp h
  obtain ⟨b₃, h₃, h⟩ := bind_eq_ok.mp h
  obtain ⟨b₄, h₄, h⟩ := bind_eq_ok.mp h
  obtain ⟨b₅, h₅, h⟩ := bind_eq_ok.mp h
  obtain ⟨b₆, h₆, h⟩ := bind_eq_ok.mp h
  rw [(Buffer.strcat_eq_ok h).1, (Buffer.strcat_eq_ok h₆).1, (Buffer.realloc_eq_ok h₅).1,
    (Buffer.strcat_eq_ok h₄).1, (Buffer.strcat_eq_ok h₃).1, (Buffer.strcat_eq_ok h₂).1,
    (Buffer.realloc_eq_ok h₁).1]
  rfl

theorem addHeader_eq (hfits : (b.text ++ header.line).length + 1 < 2 ^ 31) :
    ∃ size, addHeader (b, n) header =
      .ok (⟨b.text ++ header.line, size⟩, header.contentLength n) := by
  obtain ⟨_ | key, _ | value⟩ := header
  · exact ⟨b.size, by simp [addHeader, Header.line, Header.contentLength]⟩
  · exact ⟨b.size, by simp [addHeader, Header.line, Header.contentLength]⟩
  · exact ⟨b.size, by simp [addHeader, Header.line, Header.contentLength]⟩
  · have hcolon : (CString.lit ": ").length = 2 := rfl
    simp only [Header.line, CString.append_length, hcolon, length_crlf] at hfits
    refine ⟨b.text.length + key.length + value.length + 5, ?_⟩
    refine bind_eq_ok.mpr ⟨_, Buffer.realloc_eq (by omega) (by omega), ?_⟩
    refine bind_eq_ok.mpr ⟨_, Buffer.strcat_eq ?_, ?_⟩
    · simp only; omega
    refine bind_eq_ok.mpr ⟨_, Buffer.strcat_eq ?_, ?_⟩
    · simp only [CString.append_length, hcolon]; omega
    refine bind_eq_ok.mpr ⟨_, Buffer.strcat_eq ?_, ?_⟩
    · simp only [CString.append_length, hcolon]; omega
    refine bind_eq_ok.mpr ⟨_, Buffer.strcat_eq ?_, ?_⟩
    · simp only [CString.append_length, hcolon, length_crlf]; omega
    simp only [Header.line, Header.contentLength, pure, Except.pure, Except.ok.injEq,
      Prod.mk.injEq, Buffer.mk.injEq, and_true, CString.append_assoc, true_and]
    omega

theorem addHeader_eq_ok (h : addHeader (b, n) header = .ok (b', n')) :
    b'.text = b.text ++ header.line ∧ n' = header.contentLength n := by
  obtain ⟨_ | key, _ | value⟩ := header
  · cases h; simp [Header.line, Header.contentLength]
  · cases h; simp [Header.line, Header.contentLength]
  · cases h; simp [Header.line, Header.contentLength]
  · obtain ⟨b₁, h₁, h⟩ := bind_eq_ok.mp h
    obtain ⟨b₂, h₂, h⟩ := bind_eq_ok.mp h
    obtain ⟨b₃, h₃, h⟩ := bind_eq_ok.mp h
    obtain ⟨b₄, h₄, h⟩ := bind_eq_ok.mp h
    obtain ⟨b₅, h₅, h⟩ := bind_eq_ok.mp h
    cases h
    rw [(Buffer.strcat_eq_ok h₅).1, (Buffer.strcat_eq_ok h₄).1, (Buffer.strcat_eq_ok h₃).1,
      (Buffer.strcat_eq_ok h₂).1, (Buffer.realloc_eq_ok h₁).1]
    simp [Header.line, Header.contentLength, CString.append_assoc]

theorem addHeaders_eq {headers : List Header}
    (hfits : (addLines b.text headers).length + 1 < 2 ^ 31) :
    ∃ size, headers.foldlM addHeader (b, n) =
      .ok (⟨addLines b.text headers, size⟩,
        headers.foldl (fun n header => header.contentLength n) n) := by
  induction headers generalizing b n with
  | nil => exact ⟨b.size, rfl⟩
  | cons header headers ih =>
    have hle := length_le_addLines (b.text ++ header.line) headers
    have hfits' : (addLines (b.text ++ header.line) headers).length + 1 < 2 ^ 31 := hfits
    obtain ⟨size, hadd⟩ := addHeader_eq (n := n) (by omega : (b.text ++ header.line).length + 1 < _)
    obtain ⟨size', hrest⟩ := ih (b := ⟨b.text ++ header.line, size⟩)
      (n := header.contentLength n) hfits'
    exact ⟨size', by rw [List.foldlM_cons, hadd]; exact hrest⟩

theorem addHeaders_eq_ok {headers : List Header}
    (h : headers.foldlM addHeader (b, n) = .ok (b', n')) :
    b'.text = addLines b.text headers ∧
      n' = headers.foldl (fun n header => header.contentLength n) n := by
  induction headers generalizing b n with
  | nil => cases h; exact ⟨rfl, rfl⟩
  | cons header headers ih =>
    rw [List.foldlM_cons] at h
    obtain ⟨⟨b₁, n₁⟩, h₁, h⟩ := bind_eq_ok.mp h
    obtain ⟨htext, hn⟩ := addHeader_eq_ok h₁
    obtain ⟨htext', hn'⟩ := ih h
    rw [htext', hn', htext, hn]
    exact ⟨rfl, rfl⟩

/-- A response that fits is the status line, the headers, a blank line and as
many bytes of the body as announced, and `"\r\n"` after these. -/
theorem responseString_eq {length : Int} (hstatus : (decimal response.statusCode).length = 3)
    (hlength : bodyLength response.contentLength response.messageBody = .ok length)
    (hbody : response.contentLength.toNat ≤ response.messageBody.length)
    (hle : response.contentLength.toNat ≤ length)
    (hfits : response.head.length + 3 + length < 2 ^ 31) :
    responseString response = .ok (response.head.bytes ++
      response.messageBody.take response.contentLength.toNat ++ crlf.memory) := by
  have hhead : response.head.length = (addLines response.statusLine response.headers).length + 2 :=
    CString.append_length _ _
  have hstart := length_le_addLines response.statusLine response.headers
  have hlines : (addLines response.statusLine response.headers).length + 1 < 2 ^ 31 := by omega
  obtain ⟨size, hadd⟩ := addHeaders_eq (b := ⟨response.statusLine, response.statusLine.length + 1⟩)
    (n := 0) hlines
  refine bind_eq_ok.mpr ⟨_, startLine_eq hstatus (by omega), ?_⟩
  refine bind_eq_ok.mpr ⟨_, hadd, ?_⟩
  refine bind_eq_ok.mpr ⟨_, hlength, ?_⟩
  refine bind_eq_ok.mpr ⟨_, Buffer.realloc_eq (by omega) (by simp only; omega), ?_⟩
  refine bind_eq_ok.mpr ⟨_, Buffer.strcat_eq (by simp only [length_crlf]; omega), ?_⟩
  refine if_pos ⟨hbody, ?_⟩
  simp only [CString.append_length, length_crlf]
  change _ + 2 + response.contentLength.toNat + 3 ≤ _
  omega

theorem responseString_eq_ok {bytes : List UInt8} (h : responseString response = .ok bytes) :
    bytes = response.head.bytes ++
      response.messageBody.take response.contentLength.toNat ++ crlf.memory ∧
    response.contentLength.toNat ≤ response.messageBody.length ∧
    ∃ length, bodyLength response.contentLength response.messageBody = .ok length ∧
      response.head.length + response.contentLength.toNat + 3 ≤
        asInt (response.head.length + 3 + length) := by
  obtain ⟨b₁, h₁, h⟩ := bind_eq_ok.mp h
  obtain ⟨⟨b₂, n⟩, h₂, h⟩ := bind_eq_ok.mp h
  obtain ⟨length, h₃, h⟩ := bind_eq_ok.mp h
  obtain ⟨b₄, h₄, h⟩ := bind_eq_ok.mp h
  obtain ⟨b₅, h₅, h⟩ := bind_eq_ok.mp h
  obtain ⟨htext, hn⟩ := addHeaders_eq_ok h₂
  obtain ⟨htext', hsize⟩ := Buffer.realloc_eq_ok h₄
  obtain ⟨htext'', hsize', -⟩ := Buffer.strcat_eq_ok h₅
  have hhead : b₅.text = response.head := by
    rw [htext'', htext', htext, startLine_eq_ok h₁]
    rfl
  have hn : n = response.contentLength := hn
  subst hn
  unfold copyBody at h
  split at h
  · next hfits =>
    cases h
    refine ⟨by rw [hhead], hfits.1, length, h₃, ?_⟩
    have hlen : (response.head.length : Int) + 3 + length = b₂.text.length + 5 + length := by
      rw [← hhead, htext'', htext', CString.append_length, length_crlf]
      omega
    rw [hlen, ← hsize, ← hsize', ← hhead]
    omega
  · cases h

end Cs252.Http
