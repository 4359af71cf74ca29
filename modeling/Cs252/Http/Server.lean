import Cs252.Http.Directory

/-!
# Cs252.Http.Server

`parse_respond` of `lab5-src/server.c`: from a request to the bytes that are
written to the socket.

The path of a file is the request URI below the document root. A file is opened
for reading and writing; where that fails, the path is taken for a directory or
answered with status 404. A file that is not an image is read at once, into a
buffer of just its size. An image is read byte by byte into a buffer that is
doubled whenever it is full, and a terminator is stored after it.
-/

namespace Cs252.Http

/-- `strncmp` with the length of the prefix gives 0. -/
def hasPrefix (s start : CString) : Bool := start.bytes.isPrefixOf s.bytes

/-- The document root, as `parse_respond` begins `revised_path`. -/
def documentRoot : CString := .lit "./http-root-dir"

/-- The URI is looked up from the document root itself. -/
def fromRoot (uri : CString) : Bool :=
  hasPrefix uri (.lit "/icons") || hasPrefix uri (.lit "/htdocs")

/-- `revised_path`. -/
def revisedPath (uri : CString) : CString :=
  if fromRoot uri then documentRoot ++ uri
  else if hasPrefix uri (.lit "/") then documentRoot ++ .lit "/htdocs" ++ uri
  else documentRoot ++ .lit "/htdocs/" ++ uri

/-- `fopen` in mode `"r+"`: the content of the file. -/
def Host.openUpdate (host : Host) (path : CString) : Option (List UInt8) :=
  ((host.file path).filter File.writable).map File.content

theorem Host.openUpdate_eq {host : Host} {path : CString} {file : File}
    (h : host.file path = some file) :
    host.openUpdate path = if file.writable then some file.content else none := by
  rw [openUpdate, h, Option.filter]
  split <;> rfl

/-- `get_content_type`: the output of `file` without its spaces. -/
def getContentType (host : Host) (filename : CString) : Except Fault (Option CString) :=
  match host.fileCommand filename with
  | none => .error .exits
  | some (status, output) =>
    .ok (if status = 0 then some (.ofMemory (output.filter (!isSpace ·))) else none)

/-- The type is that of an image. -/
def isImage (contentType : CString) : Bool := hasPrefix contentType (.lit "image")

/-- The first size of the buffer for an image. -/
def firstMaxChar : Nat := 10240

/-- The size of the buffer for an image with `num` bytes in it: a buffer that is
full is doubled. `realloc` refuses a size that is negative as an `int`, and the
next store goes to `NULL`. -/
def roomFor (maxChar num : Nat) : Except Fault Nat :=
  if num = maxChar then
    if 0 ≤ asInt (2 * maxChar) then .ok (2 * maxChar) else .error .null
  else .ok maxChar

/-- The loop that reads an image, with `num` bytes in the buffer: the memory of
the bytes that are still to come. -/
def readImage (maxChar num : Nat) : List UInt8 → Except Fault (List UInt8)
  | [] => .ok [0]
  | ch :: rest => do
    let maxChar ← roomFor maxChar (num + 1)
    let messageBody ← readImage maxChar (num + 1) rest
    return ch :: messageBody

/-- The other way to read a file, all `num` bytes of it at once. Where `num` is
negative, no buffer is allocated, and `sprintf` gets none for the number either. -/
def readText (content afterBody : List UInt8) : Except Fault (List UInt8) :=
  if asInt content.length < 0 then .error .null
  else .ok (content.take (asInt content.length).toNat ++ afterBody)

/-- `message_body`, as the memory from its pointer on. -/
def readBody (host : Host) (contentType : CString) (content : List UInt8) :
    Except Fault (List UInt8) :=
  if isImage contentType then readImage firstMaxChar 0 content
  else readText content host.afterBody

/-- `strlen`, of memory that has to end somewhere. -/
def strlenOf (memory : List UInt8) : Except Fault Nat :=
  match strlen memory with
  | none => .error .outside
  | some n => .ok n

/-- `socket_write`: the bytes that are sent, as far as they can be read. Where they are
fewer than `length`, `tcp_write` goes on to print all `length` of them. -/
def socketWrite (memory : List UInt8) (length : Nat) : Except Fault (List UInt8) :=
  let sent := memory.take length
  if sent.length = length then .ok sent else .error .outside

/-- The response to a request of a file. -/
def fileResponse (request : HttpRequest) (contentType : CString) (messageLength : Int)
    (messageBody : List UInt8) : HttpResponse where
  httpVersion := request.httpVersion
  statusCode := 200
  headers := responseHeaders contentType messageLength
  messageBody := messageBody

/-- The branch for a file. -/
def respondFile (host : Host) (request : HttpRequest) (contentType : CString)
    (content : List UInt8) : Except Fault (List UInt8) := do
  let messageLength := asInt content.length
  let messageBody ← readBody host contentType content
  let toString ← responseString (fileResponse request contentType messageLength messageBody)
  let stringLength ← strlenOf (toString ++ host.afterString)
  let bodyLength ← strlenOf messageBody
  let myLength := asSizeT (stringLength - bodyLength + messageLength + 1)
  socketWrite (toString ++ host.afterString) myLength

/-- The response for a path that names nothing. -/
def notFoundResponse : HttpResponse where
  httpVersion := .lit "HTTP/1.1"
  statusCode := 404
  headers := responseHeaders (.lit "text/plain") (CString.lit "404 Not Found").length
  messageBody := (CString.lit "404 Not Found").memory

/-- The branch for a path that names nothing. -/
def respondNotFound : Except Fault (List UInt8) := do
  let toString ← responseString notFoundResponse
  return socketWriteString toString

/-- `parse_respond`: the bytes that are sent. -/
def parseRespond (host : Host) (request : HttpRequest) : Except Fault (List UInt8) :=
  let path := revisedPath request.requestUri
  match host.openUpdate path with
  | none =>
    if host.isDirectory path then handleDirectory host { request with requestUri := path }
    else respondNotFound
  | some content => do
    match ← getContentType host path with
    | none => .error .null
    | some contentType => respondFile host request contentType content

end Cs252.Http
