import Cs252.Http.Server

/-!
# Cs252.Http.Connection

`handle` of `lab5-src/server.c`: from the bytes that a client sends to those
that it gets, with `socket_read_line` of `lab5-src/socket.c`.

A byte of the client is a signed `char`. The byte 255 is read as `EOF` and ends a
line, although more may follow; any other byte from 128 on is an error, and the
line is `NULL`. Once the client has closed its side, every line is empty.

The lines before the first one of at most two characters are the head of the
request. Variables are declared without a value: a variable that is read before
it is set is a fault.
-/

namespace Cs252.Http

/-! ### Lines -/

/-- The end of a line has been read. -/
def endsLine (line : List UInt8) : Bool := [13, 10].isSuffixOf line

/-- The size of the buffer for a line of `i` characters: a buffer that is full is
doubled. `realloc` refuses a size that is negative as an `int`, and the next
store goes to `NULL`. -/
def lineRoom (maxLength i : Nat) : Except Fault Nat :=
  if maxLength ≤ i then
    if 0 ≤ asInt (2 * maxLength) then .ok (2 * maxLength) else .error .null
  else .ok maxLength

/-- The loop of `socket_read_line`: the line, and the bytes that are left. -/
def readLine (maxLength : Nat) (line : List UInt8) :
    List UInt8 → Except Fault (Option (List UInt8) × List UInt8)
  | [] => .ok (some line, [])
  | c :: rest =>
    if endsLine line then .ok (some line, c :: rest)
    -- `c == EOF`
    else if c = 255 then .ok (some line, rest)
    -- `c < 0`
    else if 128 ≤ c then .ok (none, rest)
    else do
      let maxLength ← lineRoom maxLength line.length
      readLine maxLength (line ++ [c]) rest

/-- `INIT_LINE_SIZE`. -/
def initLineSize : Nat := 16

/-- `socket_read_line`. -/
def socketReadLine (input : List UInt8) : Except Fault (Option (List UInt8) × List UInt8) :=
  readLine initLineSize [] input

theorem readLine_length {maxLength : Nat} {line line' input rest : List UInt8}
    (h : readLine maxLength line input = .ok (some line', rest)) :
    line'.length + rest.length ≤ line.length + input.length := by
  induction input generalizing maxLength line with
  | nil => cases h; exact Nat.le_refl _
  | cons c input ih =>
    rw [readLine] at h
    split at h
    · cases h; exact Nat.le_refl _
    · split at h
      · cases h; rw [List.length_cons]; omega
      · split at h
        · cases h
        · obtain ⟨maxLength', -, h⟩ := bind_eq_ok.mp h
          have := ih h
          rw [List.length_append, List.length_singleton] at this
          rw [List.length_cons]
          omega

/-- A line of the head is taken from the input. -/
theorem socketReadLine_length {input buffer rest : List UInt8}
    (h : socketReadLine input = .ok (some buffer, rest))
    (hlong : 2 < (CString.ofMemory buffer).length) : rest.length < input.length := by
  have hread := readLine_length h
  have hprefix : (CString.ofMemory buffer).length ≤ buffer.length :=
    (List.takeWhile_prefix _).length_le
  rw [List.length_nil] at hread
  omega

/-- `buffer[strlen(buffer) - 2] = 0`. -/
def chop (s : CString) : CString where
  bytes := s.bytes.take (s.length - 2)
  noNul h := s.noNul (List.mem_of_mem_take h)

/-- `general_lines` has room for one line more than `numLines`. `realloc` refuses
a size that is negative as an `int`. -/
def linesRoom (numLines : Nat) : Except Fault Unit :=
  if 0 ≤ asInt (numLines + 1) then .ok () else .error .null

/-- The loop over the lines of the head, with `numLines` of them read: the lines
that are still to come. -/
def readHead (numLines : Nat) (input : List UInt8) : Except Fault (List CString) :=
  match h : socketReadLine input with
  | .error e => .error e
  | .ok (none, _) => .error .null
  | .ok (some buffer, rest) =>
    if hlong : 2 < (CString.ofMemory buffer).length then do
      linesRoom numLines
      let generalLines ← readHead (numLines + 1) rest
      return chop (.ofMemory buffer) :: generalLines
    else .ok []
termination_by input.length
decreasing_by exact socketReadLine_length h hlong

/-! ### Requests -/

/-- The words of the request line: `method`, `raw_path` and `http_version`. -/
def requestWords (firstLine : CString) : Except Fault (CString × CString × CString) :=
  match firstLine.tokens 32 with
  | method :: rawPath :: httpVersion :: _ => .ok (method, rawPath, httpVersion)
  | _ => .error .unset

/-- The path `/` names the file `index.html`. -/
def requestPath (rawPath : CString) : CString :=
  if rawPath = .lit "/" then rawPath ++ .lit "index.html" else rawPath

/-- `key[strlen(key) - 1] = 0`. -/
def dropColon (key : CString) : CString where
  bytes := key.bytes.dropLast
  noNul h := key.noNul (List.dropLast_subset _ h)

/-- One round of the loop over the header lines. The value is the first word
after the key that is not `Basic`. -/
def readHeader (line : CString) : Except Fault Header :=
  match line.tokens 32 with
  | [] => .error .unset
  | key :: words =>
    match words.find? (· ≠ .lit "Basic") with
    | none => .error .unset
    | some value => .ok ⟨some (dropColon key), some value⟩

/-- The request that a head spells. -/
def readRequest (input : List UInt8) : Except Fault HttpRequest := do
  let generalLines ← readHead 0 input
  match generalLines with
  -- `general_lines[0]`
  | [] => .error .unset
  | firstLine :: lines => do
    let (method, rawPath, httpVersion) ← requestWords firstLine
    let headers ← lines.mapM readHeader
    return {
      method
      requestUri := requestPath rawPath
      httpVersion
      headers
      messageBody := .lit ""
      query := .lit "" }

/-- `handle`: the bytes that are sent. -/
def handle (host : Host) (input : List UInt8) : Except Fault (List UInt8) := do
  let request ← readRequest input
  parseRespond host request

end Cs252.Http
