import Cs252.Http.Messages

/-!
# Cs252.Http.ResponseFormat

When `response_string` spells the response, and that it stays inside its buffer.

It takes the length of the body from the last Content-Length header, and none of
the body without such a header or with the length zero. Whatever it copied, it
stores another `"\r\n"` after it.

`responseBuffer` is `response_string` with the stores into the buffer one at a
time: `storeAt` and `loadAt` fault outside of the memory that the pointer has.
The bytes that the stores leave in the buffer are those of `responseString`, and
there is a fault in one exactly if there is one in the other.
-/

namespace Cs252.Http

/-! ### The announced length -/

/-- The value of a Content-Length header. -/
def Header.announced (header : Header) : Option CString :=
  if header.key = some (.lit "Content-Length") then header.value else none

/-- The values of the Content-Length headers. -/
def HttpResponse.announced (response : HttpResponse) : List CString :=
  response.headers.filterMap Header.announced

theorem Header.contentLength_eq (header : Header) (n : Int) :
    header.contentLength n = (header.announced.map atoi).getD n := by
  obtain ⟨_ | key, _ | value⟩ := header
  · rfl
  · simp [contentLength, announced]
  · simp [contentLength, announced]
  · simp only [contentLength, announced, Option.some.injEq]
    split <;> rfl

theorem foldl_contentLength (headers : List Header) (n : Int) :
    headers.foldl (fun n header => header.contentLength n) n =
      ((headers.filterMap Header.announced).getLast?.map atoi).getD n := by
  induction headers generalizing n with
  | nil => rfl
  | cons header headers ih =>
    rw [List.foldl_cons, ih, Header.contentLength_eq, List.filterMap_cons]
    cases header.announced with
    | none => rfl
    | some value =>
      simp only [List.getLast?_cons, Option.map_some, Option.getD_some]
      cases (headers.filterMap Header.announced).getLast? <;> rfl

variable {response : HttpResponse}

/-- The last length that is announced counts. -/
theorem contentLength_eq :
    response.contentLength = (response.announced.getLast?.map atoi).getD 0 :=
  foldl_contentLength response.headers 0

/-- A status code of three digits. -/
theorem length_decimal_status {n : Int} (h : 100 ≤ n ∧ n ≤ 999) : (decimal n).length = 3 := by
  have hnonneg : 0 ≤ n := by omega
  have hle := length_decimal_le_iff (k := 3) hnonneg (by decide)
  have hlt := length_decimal_le_iff (k := 2) hnonneg (by decide)
  omega

/-! ### The message -/

/-- The string that the returned pointer points to. -/
def returned (response : HttpResponse) : Except Fault CString :=
  (responseString response).map CString.ofMemory

/-- The status line, the headers, a blank line, and the body. -/
def HttpResponse.message (response : HttpResponse) (body : CString) : CString :=
  response.head ++ body

/-- A length that is read back into an `int` is never two less than the length itself. -/
theorem toNat_atoi_decimal (n : Nat) :
    (atoi (decimal n)).toNat ≤ n ∧ (atoi (decimal n)).toNat + 2 ≠ n := by
  rw [atoi_decimal_of_nonneg (Int.natCast_nonneg n)]
  unfold asInt clampLong
  rw [Int.bmod_def]
  constructor
  · split <;> omega
  · split <;> omega

section Format

variable {body : CString} {after bytes : List UInt8}

/-- Without a Content-Length header nothing is copied, otherwise not all of the body but
its last two bytes. -/
theorem contentLength_cases (hlength : ∀ value ∈ response.announced, value = decimal body.length) :
    (response.announced = [] ∧ response.contentLength = 0) ∨
      (response.announced ≠ [] ∧ response.contentLength.toNat ≤ body.length ∧
        response.contentLength.toNat + 2 ≠ body.length) := by
  rw [contentLength_eq]
  by_cases hnone : response.announced = []
  · rw [hnone]
    exact Or.inl ⟨rfl, rfl⟩
  · have hlast := hlength _ (List.getLast_mem hnone)
    rw [List.getLast?_eq_some_getLast hnone, hlast, Option.map_some, Option.getD_some]
    exact Or.inr ⟨hnone, toNat_atoi_decimal body.length⟩

/-- The string that is returned ends with `"\r\n"`, whatever part of the body it has. -/
theorem returned_bytes (hbody : response.messageBody = body.memory ++ after)
    (hcopied : response.contentLength.toNat ≤ body.length)
    (h : responseString response = .ok bytes) :
    (CString.ofMemory bytes).bytes =
      response.head.bytes ++ body.bytes.take response.contentLength.toNat ++ crlf.bytes := by
  have htake : response.messageBody.take response.contentLength.toNat =
      body.bytes.take response.contentLength.toNat := by
    rw [hbody, CString.memory, List.append_assoc, List.take_append_of_le_length hcopied]
  have hnul : 0 ∉ response.head.bytes ++ body.bytes.take response.contentLength.toNat ++
      crlf.bytes := by
    rw [List.append_assoc, List.mem_append, List.mem_append]
    rintro (hhead | htaken | hend)
    · exact response.head.noNul hhead
    · exact body.noNul (List.mem_of_mem_take htaken)
    · exact crlf.noNul hend
  have hmemory : bytes = (response.head.bytes ++
      body.bytes.take response.contentLength.toNat ++ crlf.bytes) ++ 0 :: [] := by
    rw [(responseString_eq_ok h).1, htake, CString.memory]
    exact (List.append_assoc _ _ _).symm
  rw [hmemory]
  exact CString.ofMemory_terminated hnul []

theorem strlen_body (hbody : response.messageBody = body.memory ++ after) :
    strlen response.messageBody = some body.length := by
  rw [hbody, CString.memory, List.append_assoc, strlen_append body.noNul]
  rfl

/-- A response that comes out right has copied all of the body but the `"\r\n"` that is
stored anyway. -/
theorem copied_of_returned (hbody : response.messageBody = body.memory ++ after)
    (hcopied : response.contentLength.toNat ≤ body.length)
    (h : returned response = .ok (response.message body)) :
    body.bytes = body.bytes.take response.contentLength.toNat ++ crlf.bytes ∧
      body.length = response.contentLength.toNat + 2 := by
  obtain ⟨bytes, hbytes, hstring⟩ := map_eq_ok.mp h
  have hsame := returned_bytes hbody hcopied hbytes
  rw [hstring, HttpResponse.message, CString.append_bytes, List.append_assoc,
    List.append_cancel_left_eq] at hsame
  refine ⟨hsame, ?_⟩
  have hcrlf : crlf.bytes.length = 2 := rfl
  have hlength := congrArg List.length hsame
  rwa [List.length_append, List.length_take_of_le hcopied, hcrlf] at hlength

/-- A response without an announced length has to fit an `int` with all of its body. -/
theorem length_lt_of_returned (hbody : response.messageBody = body.memory ++ after)
    (hzero : response.contentLength = 0) (h : returned response = .ok (response.message body)) :
    response.head.length + 3 + body.length < 2 ^ 31 := by
  obtain ⟨bytes, hbytes, -⟩ := map_eq_ok.mp h
  obtain ⟨-, -, length, hlength, hfits⟩ := responseString_eq_ok hbytes
  rw [hzero, bodyLength, if_pos rfl, strlen_body hbody] at hlength
  obtain rfl := Except.ok.inj hlength
  have htwo := (copied_of_returned hbody (by rw [hzero]; exact Nat.zero_le _) h).2
  rw [hzero] at hfits htwo
  have hlt := lt_of_le_asInt (by omega) hfits
  omega

/-- The end of a line as the body, with no announced length. -/
theorem returned_crlf (hstatus : 100 ≤ response.statusCode ∧ response.statusCode ≤ 999)
    (hbody : response.messageBody = crlf.memory ++ after) (hzero : response.contentLength = 0)
    (hfits : response.head.length + 5 < 2 ^ 31) :
    returned response = .ok (response.message crlf) := by
  have hlength : bodyLength response.contentLength response.messageBody = .ok (2 : Nat) := by
    rw [hzero, bodyLength, if_pos rfl, strlen_body hbody]
    rfl
  have hbytes := responseString_eq (length_decimal_status hstatus) hlength
    (by rw [hzero]; exact Nat.zero_le _) (by rw [hzero]; decide) (by omega)
  refine map_eq_ok.mpr ⟨_, hbytes, CString.ext ?_⟩
  rw [returned_bytes hbody (by rw [hzero]; exact Nat.zero_le _) hbytes, hzero, Int.toNat_zero,
    List.take_zero, List.append_nil, HttpResponse.message, CString.append_bytes]

/-- **The format of a response** is right exactly if no header announces a length, the
body is the `"\r\n"` that is stored anyway, and an `int` can count it all. -/
theorem returned_message_iff (hstatus : 100 ≤ response.statusCode ∧ response.statusCode ≤ 999)
    (hbody : response.messageBody = body.memory ++ after)
    (hlength : ∀ value ∈ response.announced, value = decimal body.length) :
    returned response = .ok (response.message body) ↔
      response.announced = [] ∧ body = crlf ∧ response.head.length + 5 < 2 ^ 31 := by
  constructor
  · intro h
    rcases contentLength_cases hlength with ⟨hnone, hzero⟩ | ⟨-, hle, hne⟩
    · obtain ⟨hbytes, htwo⟩ := copied_of_returned hbody (by rw [hzero]; exact Nat.zero_le _) h
      have hfits := length_lt_of_returned hbody hzero h
      rw [hzero, Int.toNat_zero] at hbytes htwo
      rw [htwo] at hfits
      exact ⟨hnone, CString.ext hbytes, hfits⟩
    · exact absurd (copied_of_returned hbody hle h).2.symm hne
  · rintro ⟨hnone, rfl, hfits⟩
    have hzero : response.contentLength = 0 := by
      rw [contentLength_eq, hnone]
      rfl
    exact returned_crlf hstatus hbody hzero hfits

/-- A response without headers whose body is the end of a line. -/
theorem returned_message_crlf :
    returned ⟨.lit "HTTP/1.0", 200, [], crlf.memory⟩ =
      .ok (HttpResponse.message ⟨.lit "HTTP/1.0", 200, [], crlf.memory⟩ crlf) := by
  have hbody : crlf.memory = crlf.memory ++ [] := (List.append_nil _).symm
  have hnone : ∀ value ∈ HttpResponse.announced ⟨.lit "HTTP/1.0", 200, [], crlf.memory⟩,
      value = decimal crlf.length := fun _ h => by cases h
  exact (returned_message_iff (by decide) hbody hnone).mpr ⟨rfl, rfl, by decide⟩

/-- A response with the body `hi`. -/
def hiResponse (headers : List Header) : HttpResponse where
  httpVersion := .lit "HTTP/1.0"
  statusCode := 200
  headers := headers
  messageBody := (CString.lit "hi").memory

/-- The body is followed by `"\r\n"` where its length is announced, and is left out for it
where the length is not. -/
theorem returned_hi :
    returned (hiResponse [⟨some (.lit "Content-Length"), some (.lit "2")⟩]) =
        .ok (.lit "HTTP/1.0 200 OK\r\nContent-Length: 2\r\n\r\nhi\r\n") ∧
    returned (hiResponse [⟨some (.lit "Content-Length"), some (.lit "2")⟩]) ≠
        .ok ((hiResponse [⟨some (.lit "Content-Length"), some (.lit "2")⟩]).message (.lit "hi")) ∧
    returned (hiResponse []) = .ok (.lit "HTTP/1.0 200 OK\r\n\r\n\r\n") ∧
    returned (hiResponse []) ≠ .ok ((hiResponse []).message (.lit "hi")) := by
  refine ⟨by decide +kernel, by decide +kernel, by decide +kernel, by decide +kernel⟩

end Format

/-! ### The stores into the buffer -/

/-- `message_body[i]`. -/
def loadAt (messageBody : List UInt8) (i : Nat) : Except Fault UInt8 :=
  match messageBody[i]? with
  | some c => .ok c
  | none => .error .outside

/-- The memory of a buffer: its string, and behind the terminator what is not set. -/
def Buffer.cells (b : Buffer) : List (Option UInt8) :=
  b.text.memory.map some ++ List.replicate (b.size - (b.text.length + 1)) none

/-- The loop over the body from index `i` on, with `count` rounds to go. -/
def copyLoop (messageBody : List UInt8) (myLength : Nat) :
    Nat → Nat → List (Option UInt8) → Except Fault (List (Option UInt8))
  | 0, _, cells => .ok cells
  | count + 1, i, cells => do
    let c ← loadAt messageBody i
    let cells ← storeAt cells (myLength + i) c
    copyLoop messageBody myLength count (i + 1) cells

/-- The end of `response_string`: the loop, and the three stores behind it. -/
def storeBody (toString : Buffer) (contentLength : Nat) (messageBody : List UInt8) :
    Except Fault (List (Option UInt8)) := do
  let myLength := toString.text.length
  let cells ← copyLoop messageBody myLength contentLength 0 toString.cells
  let curIndex := myLength + contentLength
  let cells ← storeAt cells curIndex 13
  let cells ← storeAt cells (curIndex + 1) 10
  storeAt cells (curIndex + 2) 0

/-- `response_string`: the memory of the buffer it returns. -/
def responseBuffer (response : HttpResponse) : Except Fault (List (Option UInt8)) := do
  let toString ← startLine response.httpVersion response.statusCode
  let (toString, contentLength) ← response.headers.foldlM addHeader (toString, 0)
  let length ← bodyLength contentLength response.messageBody
  let toString ← toString.realloc (toString.text.length + 5 + length)
  let toString ← toString.strcat crlf
  storeBody toString contentLength.toNat response.messageBody

section Stores

variable {body : List UInt8} {b : Buffer}

/-- The loop writes the bytes of the body behind those it has written, until one of the
two runs out of memory. -/
theorem copyLoop_eq (count : Nat) {myLength i : Nat} (hi : i ≤ body.length)
    (done : List UInt8) (rest : List (Option UInt8)) (hdone : done.length = myLength + i) :
    copyLoop body myLength count i (done.map some ++ rest) =
      if i + count ≤ body.length ∧ count ≤ rest.length then
        .ok ((done ++ (body.drop i).take count).map some ++ rest.drop count)
      else .error .outside := by
  induction count generalizing i done rest with
  | zero => simp [copyLoop, hi]
  | succ count ih =>
    rw [copyLoop]
    cases hc : body[i]? with
    | none =>
      have hle : body.length ≤ i := List.getElem?_eq_none_iff.mp hc
      rw [loadAt, hc, if_neg (by omega)]
      rfl
    | some c =>
      obtain ⟨hlt, hget⟩ := List.getElem?_eq_some_iff.mp hc
      have hdrop : body.drop i = c :: body.drop (i + 1) := by
        rw [List.drop_eq_getElem_cons hlt, hget]
      rw [loadAt, hc, ← hdone]
      refine (congrArg (· >>= _) (storeAt_end done rest c)).trans ?_
      cases rest with
      | nil =>
        rw [if_pos rfl, List.length_nil, if_neg (fun h => Nat.not_succ_le_zero _ h.2)]
        rfl
      | cons x rest =>
        have hlength : (done ++ [c]).length = myLength + (i + 1) := by
          rw [List.length_append, hdone]
          rfl
        refine Eq.trans (ih hlt (done ++ [c]) rest hlength) ?_
        rw [hdrop, List.take_succ_cons, List.append_assoc, List.singleton_append,
          List.drop_succ_cons, List.length_cons]
        have hcount : i + 1 + count = i + (count + 1) := by omega
        simp only [Nat.succ_eq_add_one, Nat.add_le_add_iff_right, hcount]

/-- The three stores behind the loop are three more rounds, over the end of a line. -/
theorem storeEnd_eq (cells : List (Option UInt8)) (curIndex : Nat) :
    (do
      let cells ← storeAt cells curIndex 13
      let cells ← storeAt cells (curIndex + 1) 10
      storeAt cells (curIndex + 2) 0) = copyLoop crlf.memory curIndex 3 0 cells := by
  have hlast (x : Except Fault (List (Option UInt8))) : (x >>= fun cells => .ok cells) = x := by
    cases x <;> rfl
  refine congrArg (storeAt cells curIndex 13 >>= ·) (funext fun cells => ?_)
  refine congrArg (storeAt cells (curIndex + 1) 10 >>= ·) (funext fun cells => ?_)
  exact (hlast (storeAt cells (curIndex + 2) 0)).symm

/-- The memory of a buffer: its text, and as much as was allocated. -/
theorem Buffer.cells_eq (hfits : b.text.length < b.size) :
    ∃ cells, b.cells = b.text.bytes.map some ++ cells ∧ cells.length = b.size - b.text.length := by
  refine ⟨some 0 :: List.replicate (b.size - (b.text.length + 1)) none, ?_, ?_⟩
  · simp [Buffer.cells, CString.memory]
  · rw [List.length_cons, List.length_replicate]
    omega

/-- The stores leave in the buffer what `copyBody` says, and fault exactly where it does. -/
theorem storeBody_eq (hfits : b.text.length < b.size) (body : List UInt8) (contentLength : Nat) :
    ∃ rest, storeBody b contentLength body =
      (copyBody b contentLength body).map fun bytes => bytes.map some ++ rest := by
  obtain ⟨cells, hmemory, hlength⟩ := Buffer.cells_eq hfits
  have hstart : b.text.bytes.length = b.text.length + 0 := rfl
  have hloop := copyLoop_eq contentLength (Nat.zero_le body.length) b.text.bytes cells hstart
  rw [← hmemory, Nat.zero_add, List.drop_zero] at hloop
  refine ⟨(cells.drop contentLength).drop 3, ?_⟩
  rw [storeBody, hloop, copyBody]
  by_cases hcopied : contentLength ≤ body.length ∧ contentLength ≤ cells.length
  · -- the three bytes go behind those of the body
    have hdone : (b.text.bytes ++ body.take contentLength).length =
        b.text.length + contentLength + 0 := by
      rw [List.length_append, List.length_take_of_le hcopied.1]
      rfl
    have hend := copyLoop_eq 3 (Nat.zero_le crlf.memory.length) _ (cells.drop contentLength) hdone
    rw [if_pos hcopied]
    refine (storeEnd_eq _ _).trans (hend.trans ?_)
    have hthree : (0 + 3 ≤ crlf.memory.length ∧ 3 ≤ (cells.drop contentLength).length) ↔
        contentLength ≤ body.length ∧ b.text.length + contentLength + 3 ≤ b.size := by
      rw [List.length_drop, hlength, crlf_memory]
      simp only [List.length_cons, List.length_nil]
      omega
    simp only [hthree]
    split
    · rfl
    · rfl
  · rw [if_neg hcopied, if_neg (by omega)]
    rfl

/-- The memory of the returned buffer begins with the bytes of the response. -/
theorem responseBuffer_eq (response : HttpResponse) :
    ∃ rest, responseBuffer response =
      (responseString response).map fun bytes => bytes.map some ++ rest := by
  have hbind {α : Type} {x : Except Fault α} {f : α → Except Fault (List (Option UInt8))}
      {g : α → Except Fault (List UInt8)}
      (h : ∀ a, x = .ok a → ∃ rest, f a = (g a).map fun bytes => bytes.map some ++ rest) :
      ∃ rest, (x >>= f) = (x >>= g).map fun bytes => bytes.map some ++ rest := by
    cases x with
    | error fault => exact ⟨[], rfl⟩
    | ok a => exact h a rfl
  refine hbind fun b₁ _ => hbind fun b₂ _ => hbind fun length _ => hbind fun b₄ _ => ?_
  refine hbind fun b₅ h₅ => storeBody_eq ?_ _ _
  obtain ⟨htext, hsize, hlt⟩ := Buffer.strcat_eq_ok h₅
  rw [htext, hsize, CString.append_length]
  exact hlt

/-- The number that the last of the headers announces, or zero. -/
theorem contentLength_of_lengths {lengths : List Nat}
    (hlengths : response.announced = lengths.map fun length : Nat => decimal length)
    (hlt : lengths.getLast?.getD 0 < 2 ^ 31) :
    response.contentLength = (lengths.getLast?.getD 0 : Nat) := by
  rw [contentLength_eq, hlengths, List.getLast?_map, Option.map_map]
  cases hlast : lengths.getLast? with
  | none => rfl
  | some length =>
    rw [hlast, Option.getD_some] at hlt
    exact atoi_decimal (Int.natCast_nonneg length) (by omega)

theorem bodyLength_eq {n : Nat} (hbody : strlen body = some n) (announced : Nat) :
    bodyLength announced body = .ok ((if announced = 0 then n else announced : Nat) : Int) := by
  cases announced with
  | zero =>
    rw [Nat.cast_zero, bodyLength, if_pos rfl, hbody]
    rfl
  | succ announced =>
    rw [bodyLength, if_neg (by omega), if_neg (by omega)]

/-- **`response_string` stays inside its buffer** and inside the memory of the body: no
`strcat`, store or load faults, if each length that is announced is a number of readable
bytes and an `int` can count the response. -/
theorem responseBuffer_ok {lengths : List Nat} {n : Nat}
    (hstatus : 100 ≤ response.statusCode ∧ response.statusCode ≤ 999)
    (hbody : strlen response.messageBody = some n)
    (hlengths : response.announced = lengths.map fun length : Nat => decimal length)
    (hreadable : ∀ length ∈ lengths, length ≤ response.messageBody.length)
    (hsize : response.head.length + 3 +
      (if lengths.getLast?.getD 0 = 0 then n else lengths.getLast?.getD 0) < 2 ^ 31) :
    ∃ cells, responseBuffer response = .ok cells := by
  have hle : lengths.getLast?.getD 0 ≤ response.messageBody.length := by
    cases hlast : lengths.getLast? with
    | none => exact Nat.zero_le _
    | some length => exact hreadable length (List.mem_of_getLast? hlast)
  have hlt : lengths.getLast?.getD 0 < 2 ^ 31 := by
    split at hsize <;> omega
  have hcontent := contentLength_of_lengths hlengths hlt
  generalize lengths.getLast?.getD 0 = announced at hle hcontent hsize
  have hlen : bodyLength response.contentLength response.messageBody =
      .ok ((if announced = 0 then n else announced : Nat) : Int) := by
    rw [hcontent]
    exact bodyLength_eq hbody announced
  obtain ⟨rest, hcells⟩ := responseBuffer_eq response
  rw [hcells, responseString_eq (length_decimal_status hstatus) hlen]
  · exact ⟨_, rfl⟩
  · rw [hcontent]
    exact hle
  · -- a length of zero is that of the text before the terminator
    rw [hcontent, Int.toNat_natCast]
    split <;> omega
  · omega

/-- Two announced lengths, the last one with the bytes behind the terminator, and a header
without a value. -/
theorem responseBuffer_ok_twice :
    ∃ cells, responseBuffer ⟨.lit "HTTP/1.1", 404, [⟨some (.lit "Content-Length"), some (.lit "7")⟩,
      ⟨some (.lit "Content-Type"), none⟩, ⟨some (.lit "Content-Length"), some (.lit "5")⟩],
      ascii "hi" ++ 0 :: ascii "more"⟩ = .ok cells := by
  refine @responseBuffer_ok _ [7, 5] 2 (by decide) (by decide) (by decide)
    (by decide) ?_
  decide +kernel

end Stores

end Cs252.Http
