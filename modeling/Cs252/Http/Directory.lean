import Cs252.Http.Messages

/-!
# Cs252.Http.Directory

What a request meets outside of the code of the server, and the page that
`lab5-src/handle_dir.c` makes of a directory.

`Host` is a parameter of everything that follows: the files and directories, the
order in which `qsort` leaves an array, and the bytes that happen to follow the
heap buffers in memory.
-/

namespace Cs252.Http

/-- The fields of `struct tm` that are printed. -/
structure Tm where
  year : Int
  mon : Int
  mday : Int
  hour : Int
  min : Int

/-- An entry of a directory, as `readdir` and `stat` describe it. -/
structure Entry where
  name : CString
  isDir : Bool
  size : Nat
  modified : Tm

/-- A file that can be opened for reading. -/
structure File where
  content : List UInt8
  /-- It can be opened for writing as well. -/
  writable : Bool

/-- `struct info`. -/
structure Info where
  name : CString
  date : CString
  size : CString
  isDir : Bool
  deriving DecidableEq

/-- What a request meets outside of the server. -/
structure Host where
  /-- The file at a path. -/
  file : CString → Option File
  /-- What the `stat` of a path says, or of what it leaves behind where it fails. -/
  isDirectory : CString → Bool
  /-- The entries of a directory that can be opened. -/
  entries : CString → Option (List Entry)
  /-- The exit status and the output of `file -biE`, if it can be run. -/
  fileCommand : CString → Option (Int × List UInt8)
  qsort : (Info → Info → Int) → List Info → List Info
  /-- The memory after the buffer that a file is read into. -/
  afterBody : List UInt8
  /-- The memory after the string that `response_string` returns. -/
  afterString : List UInt8
  addressable : afterBody.length + afterString.length < 2 ^ 64
  /-- The `stat` of a file succeeds. -/
  notDirectory : ∀ path, (file path).isSome → isDirectory path = false

/-! ### The entries -/

/-- `strcmp`. -/
def strcmp (s t : CString) : Int :=
  if s.bytes < t.bytes then -1 else if s.bytes = t.bytes then 0 else 1

/-- `compare_name_ascending`. -/
def compareNameAscending (a b : Info) : Int := if 0 < strcmp a.name b.name then 1 else 0

/-- `md_time`, as it is printed. -/
def mdTime (foo : Tm) : CString :=
  decimal (foo.mon + 1) ++ .lit "-" ++ decimal foo.mday ++ .lit "-" ++ decimal (foo.year + 1900) ++
    .lit ", " ++ decimal foo.hour ++ .lit ":" ++ decimal foo.min

/-- One round of the loop over the entries. The path is copied into 256 bytes,
and its fourth part is the name of the directory in the links. -/
def fileInfo (dirPath : CString) (ent : Entry) : Except Fault Info :=
  if 256 ≤ dirPath.length then .error .outside
  else
    match (dirPath.tokens 47)[3]? with
    | none => .error .null
    | some sub => .ok {
        name := sub ++ .lit "/" ++ ent.name
        date := mdTime ent.modified
        size := if ent.isDir then .lit "-" else decimal (asInt ent.size)
        isDir := ent.isDir }

/-! ### The page -/

/-- Several `strcat`s in a row. -/
def strcats (messageBody : Buffer) (tags : List CString) : Except Fault Buffer :=
  tags.foldlM Buffer.strcat messageBody

/-- One round of the loop that makes the page. -/
def addRow (messageBody : Buffer) (info : Info) : Except Fault Buffer := do
  -- the constants are the lengths of the tags, and the terminator
  let messageBody ← messageBody.realloc
    (messageBody.text.length + 4 + 4 + 9 + 2 * info.name.length + 2 + 4 + 5 + 1)
  let messageBody ← strcats messageBody [.lit "<tr>", .lit "<td>", .lit "<A HREF=\"", info.name,
    .lit "\">", info.name, .lit "</A>", .lit "</td>"]
  let messageBody ← messageBody.realloc (messageBody.text.length + 4 + info.date.length + 5 + 1)
  let messageBody ← strcats messageBody [.lit "<td>", info.date, .lit "</td>"]
  let messageBody ← messageBody.realloc (messageBody.text.length + 4 + info.size.length + 5 + 5 + 1)
  strcats messageBody [.lit "<td>", info.size, .lit "</td>", .lit "</tr>"]

/-- The page of a directory. -/
def directoryPage (dirPath : CString) (infos : List Info) : Except Fault Buffer := do
  let messageBody := strdup (.lit "<html><head><title>")
  let part := .lit "Index of Directory</title></head><body><h1>Index of"
  let messageBody ← messageBody.realloc (messageBody.text.length + part.length + 1)
  let messageBody ← messageBody.strcat part
  let messageBody ← messageBody.realloc (messageBody.text.length + dirPath.length + 1)
  let messageBody ← messageBody.strcat dirPath
  let tagHdEnd := .lit "</h1>"
  let tagTitle := .lit "<table><th>Name</th><th>Date</th><th>Size</th>"
  let messageBody ← messageBody.realloc
    (messageBody.text.length + tagHdEnd.length + tagTitle.length + 1)
  let messageBody ← strcats messageBody [tagHdEnd, tagTitle]
  let messageBody ← infos.foldlM addRow messageBody
  let restTags := .lit "</table></body></html>"
  let messageBody ← messageBody.realloc (messageBody.text.length + restTags.length + 1)
  messageBody.strcat restTags

/-- The three headers of every response. -/
def responseHeaders (contentType : CString) (messageLength : Int) : List Header := [
  ⟨some (.lit "Content-Type"), some contentType⟩,
  ⟨some (.lit "Connection"), some (.lit "close")⟩,
  ⟨some (.lit "Content-Length"), some (decimal messageLength)⟩]

/-- `socket_write_string`: the bytes that are sent. -/
def socketWriteString (string : List UInt8) : List UInt8 := (CString.ofMemory string).bytes

/-- `handle_directory`, for the path in `request_uri`: the bytes that are sent. -/
def handleDirectory (host : Host) (request : HttpRequest) : Except Fault (List UInt8) :=
  match host.entries request.requestUri with
  | none => .error .exits
  | some entries => do
    let infos ← entries.mapM (fileInfo request.requestUri)
    let infos :=
      if 1 < infos.length then host.qsort compareNameAscending infos else infos
    let messageBody ← directoryPage request.requestUri infos
    let toString ← responseString {
      httpVersion := request.httpVersion
      statusCode := 200
      headers := responseHeaders (.lit "text/html") messageBody.text.length
      messageBody := messageBody.text.memory }
    return socketWriteString toString

end Cs252.Http
