import Cs252.Lib.Descriptors
import Cs252.Http.Connection

/-!
# Cs252.Http.OpenFiles

The descriptors that `handle` of `lab5-src/server.c` uses on its way, and the
loop of `get_content_type` in `lab5-src/misc.c` that reads a pipe.

`parseRespond` looks the answer up in a `Host` as if files could always be
opened. A process may have `limit` descriptors only: here every call that opens
one takes the lowest that is free, and fails where there is none. `room` such
descriptors make a host of their own, `Host.within`: without any, a file that
exists is answered with status 404, and fewer than three end the process, for
the type of a file is read from a pipe while the file is open.

`handleOn_eq` puts the two together: on a table without a gap, `handle` does what
it does on that host, and every descriptor but that of the connection, which it
closes, is as it was.
-/

namespace Cs252.Http

/-- What a descriptor of the server refers to. -/
inductive OpenFile
  /-- Standard input, output and error. -/
  | standard
  /-- `master_socket`. -/
  | master
  /-- The connection of the `number`th call of `accept`. -/
  | connection (number : Nat)
  | file (path : CString)
  | directory (path : CString)
  | pipe
  deriving DecidableEq

/-! ### The pipe -/

/-- `INIT_BUF_SIZE`. -/
def initBufSize : Nat := 16

/-- What the reads of a pipe return, for all that is written to it. -/
structure Reads where
  pieces : List UInt8 → List (List UInt8)
  flatten_pieces : ∀ output, (pieces output).flatten = output
  /-- A read is for `INIT_BUF_SIZE` bytes at most. -/
  length_le : ∀ output, ∀ piece ∈ pieces output, piece.length ≤ initBufSize

/-- The loop of `get_content_type` that reads, for the pieces that are still to
come. `realloc` refuses a size that is negative as an `int`, and the buffer is
read at `NULL` in the end. -/
def readPipe (bufSize : Nat) (buf : List UInt8) : List (List UInt8) → Except Fault (List UInt8)
  | [] => .ok buf
  | piece :: pieces =>
    -- `read` may store `INIT_BUF_SIZE` bytes from `buf_end` on
    if bufSize < buf.length + initBufSize then .error .outside
    else if asInt ↑(bufSize + piece.length) < 0 then .error .null
    else readPipe (bufSize + piece.length) (buf ++ piece) pieces

/-- However the output is cut up, the buffer has room for every read. -/
theorem readPipe_eq {pieces : List (List UInt8)}
    (hle : ∀ piece ∈ pieces, piece.length ≤ initBufSize) (buf : List UInt8)
    (hbuf : buf.length + initBufSize < 2 ^ 31) :
    readPipe (buf.length + initBufSize) buf pieces =
      if (buf ++ pieces.flatten).length + initBufSize < 2 ^ 31 then .ok (buf ++ pieces.flatten)
      else .error .null := by
  induction pieces generalizing buf with
  | nil =>
    rw [List.flatten_nil, List.append_nil, if_pos hbuf]
    rfl
  | cons piece pieces ih =>
    have hpiece : piece.length ≤ 16 := hle piece List.mem_cons_self
    have hgrown : buf.length + initBufSize + piece.length =
        (buf ++ piece).length + initBufSize := by
      rw [List.length_append]
      omega
    rw [readPipe, if_neg (Nat.lt_irrefl _), hgrown, List.flatten_cons, ← List.append_assoc]
    by_cases hlt : (buf ++ piece).length + initBufSize < 2 ^ 31
    · rw [asInt_of_lt (Int.natCast_nonneg _) (by exact_mod_cast hlt),
        if_neg (Int.not_lt.mpr (Int.natCast_nonneg _))]
      exact ih (fun p hp => hle p (List.mem_cons_of_mem _ hp)) _ hlt
    · have hneg : asInt ↑((buf ++ piece).length + initBufSize) < 0 := by
        by_contra hnonneg
        rw [← hgrown] at hnonneg hlt
        have := lt_of_le_asInt (show (_ : Int) - 2 ^ 32 < 0 by omega) (Int.not_lt.mp hnonneg)
        omega
      rw [if_pos hneg, if_neg]
      rw [List.length_append]
      omega

/-- What `file` prints fits a buffer whose size is an `int`. -/
def Host.PrintsLittle (host : Host) : Prop :=
  ∀ path status output, host.fileCommand path = some (status, output) →
    output.length + initBufSize < 2 ^ 31

/-! ### The code, with its descriptors -/

section Code

variable (host : Host) (reads : Reads) (limit : Nat) (t : Descriptors OpenFile)

/-- `get_content_type`. -/
def getContentTypeOn (filename : CString) :
    Except Fault (Option CString × Descriptors OpenFile) :=
  -- `pipe` opens two descriptors, or none
  match t.openBelow limit (some .pipe) with
  | (none, _) => .error .exits
  | (some readEnd, t) =>
    match t.openBelow limit (some .pipe) with
    | (none, _) => .error .exits
    | (some writeEnd, t) =>
      match host.fileCommand filename with
      | none => .error .exits
      | some (status, output) => do
        let t := t.close (some writeEnd)
        let buf ← readPipe initBufSize [] (reads.pieces output)
        let t := t.close (some readEnd)
        return (if status = 0 then some (.ofMemory (buf.filter (!isSpace ·))) else none, t)

/-- `handle_directory`. -/
def handleDirectoryOn (request : HttpRequest) :
    Except Fault (List UInt8 × Descriptors OpenFile) :=
  let dir := (host.entries request.requestUri).map fun _ => OpenFile.directory request.requestUri
  match t.openBelow limit dir with
  | (none, _) => .error .exits
  | (some dir, t) => do
    let sent ← handleDirectory host request
    return (sent, t.close (some dir))

/-- An image is closed, and opened in mode `"rb"`. -/
def reopen (contentType path : CString) (f : Nat) : Option Nat × Descriptors OpenFile :=
  if isImage contentType then (t.close (some f)).openBelow limit (some (.file path))
  else (some f, t)

/-- The branch of `parse_respond` for a file that is open as `f`. -/
def respondFileOn (request : HttpRequest) (path : CString) (content : List UInt8) (f : Nat) :
    Except Fault (List UInt8 × Descriptors OpenFile) := do
  let (contentType, t) ← getContentTypeOn host reads limit t path
  match contentType with
  | none => .error .null
  | some contentType =>
    match reopen limit t contentType path f with
    | (none, _) => .error .null
    | (some f, t) => do
      let sent ← respondFile host request contentType content
      return (sent, t.close (some f))

/-- `parse_respond`. -/
def parseRespondOn (request : HttpRequest) : Except Fault (List UInt8 × Descriptors OpenFile) :=
  let path := revisedPath request.requestUri
  match t.openBelow limit ((host.openUpdate path).map fun _ => OpenFile.file path),
    host.openUpdate path with
  | (some f, t), some content => respondFileOn host reads limit t request path content f
  | _, _ =>
    if host.isDirectory path then
      handleDirectoryOn host limit t { request with requestUri := path }
    else do
      let sent ← respondNotFound
      return (sent, t)

end Code

/-- Someone who connects: the bytes to be sent, and the host as it is then. -/
structure Client where
  host : Host
  input : List UInt8

/-- `socket_t`. -/
structure Socket where
  socketFd : Nat
  client : Client

/-- `handle`. A socket that is `NULL` has no descriptor to read from. -/
def handleOn (reads : Reads) (limit : Nat) (t : Descriptors OpenFile) :
    Option Socket → Except Fault (List UInt8 × Descriptors OpenFile)
  | none => .error .null
  | some sock => do
    let request ← readRequest sock.client.input
    let (sent, t) ← parseRespondOn sock.client.host reads limit t request
    return (sent, t.close (some sock.socketFd))

/-! ### A host for a process with room for some descriptors -/

/-- What is left of a host for a process that can open `room` descriptors. -/
def Host.within (host : Host) (room : Nat) : Host where
  file path := if 0 < room then host.file path else none
  isDirectory := host.isDirectory
  entries path := if 0 < room then host.entries path else none
  fileCommand path := if 3 ≤ room then host.fileCommand path else none
  qsort := host.qsort
  afterBody := host.afterBody
  afterString := host.afterString
  addressable := host.addressable
  notDirectory path h := by
    refine host.notDirectory path ?_
    split at h
    · exact h
    · cases h

/-- Three descriptors are enough. -/
theorem Host.within_of_le (host : Host) {room : Nat} (h : 3 ≤ room) : host.within room = host := by
  have hpos : 0 < room := Nat.lt_of_lt_of_le (by decide) h
  simp only [within, hpos, h, if_true]

/-- `x` comes to what `y` comes to, with the descriptors as in `t`. -/
structure Restores {α : Type} (t : Descriptors OpenFile)
    (x : Except Fault (α × Descriptors OpenFile)) (y : Except Fault α) : Prop where
  result : x.map Prod.fst = y
  table : ∀ {a : α} {t' : Descriptors OpenFile}, x = .ok (a, t') → t'.Same t

namespace Restores

variable {α β : Type} {t t' : Descriptors OpenFile}

theorem error (t : Descriptors OpenFile) (fault : Fault) :
    Restores t (.error fault : Except Fault (α × Descriptors OpenFile)) (.error fault) :=
  ⟨rfl, nofun⟩

theorem ok (a : α) (h : t'.Same t) : Restores t (.ok (a, t')) (.ok a) :=
  ⟨rfl, fun hok => by cases hok; exact h⟩

/-- Two calls in a row; the first one may start with more descriptors. -/
theorem bind {x : Except Fault (α × Descriptors OpenFile)} {y : Except Fault α}
    {f : α × Descriptors OpenFile → Except Fault (β × Descriptors OpenFile)}
    {g : α → Except Fault β} (hx : Restores t' x y)
    (hf : ∀ a u, u.Same t' → Restores t (f (a, u)) (g a)) : Restores t (x >>= f) (y >>= g) := by
  cases x with
  | error fault =>
    obtain rfl := hx.result
    exact error t fault
  | ok r =>
    obtain rfl := hx.result
    exact hf r.1 r.2 (hx.table rfl)

/-- A call that opens nothing. -/
theorem andThen (y : Except Fault α) (h : t'.Same t) :
    Restores t (y >>= fun a => .ok (a, t')) y := by
  cases y with
  | error fault => exact error t fault
  | ok a => exact ok a h

end Restores

section

variable {host : Host} {reads : Reads} {limit n : Nat} {t : Descriptors OpenFile}

theorem getContentTypeOn_eq (h : t.Below n) (hprint : host.PrintsLittle) (path : CString) :
    Restores t (getContentTypeOn host reads limit t path)
      (if n + 1 < limit then getContentType host path else .error .exits) := by
  unfold getContentTypeOn
  by_cases hwrite : n + 1 < limit
  · rw [h.openBelow_of_lt (Nat.lt_of_succ_lt hwrite), if_pos hwrite]
    simp only [(h.put _).openBelow_of_lt hwrite]
    cases hfile : host.fileCommand path with
    | none =>
      rw [getContentType, hfile]
      exact .error t .exits
    | some printed =>
      obtain ⟨status, output⟩ := printed
      have hbuf := readPipe_eq (reads.length_le output) [] (by decide)
      rw [List.nil_append, reads.flatten_pieces, if_pos (hprint _ _ _ hfile),
        List.length_nil, Nat.zero_add] at hbuf
      rw [getContentType, hfile]
      simp only [hbuf]
      exact .ok _ (((Descriptors.close_put (h.put _).get_eq_none _).close n).trans
        (Descriptors.close_put h.get_eq_none _))
  · rw [if_neg hwrite]
    by_cases hread : n < limit
    · rw [h.openBelow_of_lt hread]
      simp only [(h.put _).openBelow_of_le (Nat.not_lt.mp hwrite)]
      exact .error t .exits
    · rw [h.openBelow_of_le (Nat.not_lt.mp hread)]
      exact .error t .exits

theorem handleDirectoryOn_eq (h : t.Below n) (request : HttpRequest) :
    Restores t (handleDirectoryOn host limit t request)
      (handleDirectory (host.within (limit - n)) request) := by
  by_cases hlt : n < limit
  · cases hdir : host.entries request.requestUri with
    | none =>
      simp only [handleDirectoryOn, handleDirectory, Host.within, hdir, Option.map_none,
        Descriptors.openBelow_none, ite_self]
      exact .error t .exits
    | some entries =>
      have hsame : handleDirectory (host.within (limit - n)) request =
          handleDirectory host request := by
        simp only [handleDirectory, Host.within, Nat.sub_pos_of_lt hlt, if_true]
      rw [hsame, handleDirectoryOn, hdir]
      simp only [Option.map_some, h.openBelow_of_lt hlt]
      exact .andThen _ (Descriptors.close_put h.get_eq_none _)
  · rw [handleDirectoryOn]
    simp only [h.openBelow_of_le (Nat.not_lt.mp hlt), handleDirectory, Host.within,
      Nat.sub_eq_zero_of_le (Nat.not_lt.mp hlt), Nat.lt_irrefl, if_false]
    exact .error t .exits

theorem reopen_eq (h : t.Below n) (hlt : n < limit) (contentType path : CString)
    {u : Descriptors OpenFile} (hu : u.Same (t.put n (.file path))) :
    ∃ v, reopen limit u contentType path n = (some n, v) ∧ v.Same (t.put n (.file path)) := by
  unfold reopen
  split
  · have hclosed : (u.close (some n)).Same t :=
      (hu.close n).trans (Descriptors.close_put h.get_eq_none _)
    exact ⟨_, (hclosed.below h).openBelow_of_lt hlt _, hclosed.put n _⟩
  · exact ⟨u, rfl, hu⟩

theorem respondFileOn_eq (h : t.Below n) (hlt : n < limit) (hprint : host.PrintsLittle)
    (request : HttpRequest) (path : CString) (content : List UInt8) :
    Restores t (respondFileOn host reads limit (t.put n (.file path)) request path content n)
      ((if n + 2 < limit then getContentType host path else .error .exits) >>= fun contentType =>
        match contentType with
        | none => .error .null
        | some contentType => respondFile host request contentType content) := by
  refine (getContentTypeOn_eq (h.put _) hprint path).bind fun contentType u hu => ?_
  cases contentType with
  | none => exact .error t .null
  | some contentType =>
    obtain ⟨v, hreopen, hv⟩ := reopen_eq h hlt contentType path hu
    simp only [hreopen]
    exact .andThen _ ((hv.close n).trans (Descriptors.close_put h.get_eq_none _))

theorem openUpdate_within (host : Host) (room : Nat) (path : CString) :
    (host.within room).openUpdate path = if 0 < room then host.openUpdate path else none := by
  show (Option.filter _ (if 0 < room then host.file path else none)).map _ = _
  split <;> rfl

theorem getContentType_within (host : Host) (room : Nat) (path : CString) :
    getContentType (host.within room) path =
      if 3 ≤ room then getContentType host path else .error .exits := by
  by_cases h : 3 ≤ room
  · simp only [getContentType, Host.within, h, if_true]
  · simp only [getContentType, Host.within, h, if_false]

/-- No file to be opened, whatever the reason. -/
theorem parseRespondOn_closed (h : t.Below n) (request : HttpRequest)
    (hclosed : host.openUpdate (revisedPath request.requestUri) = none ∨ limit ≤ n) :
    Restores t (parseRespondOn host reads limit t request)
      (parseRespond (host.within (limit - n)) request) := by
  have hopen : (t.openBelow limit ((host.openUpdate (revisedPath request.requestUri)).map
      fun _ => OpenFile.file (revisedPath request.requestUri))) = (none, t) := by
    rcases hclosed with hnone | hle
    · rw [hnone, Option.map_none, Descriptors.openBelow_none]
    · exact h.openBelow_of_le hle _
  have hwithin : (host.within (limit - n)).openUpdate (revisedPath request.requestUri) = none := by
    rw [openUpdate_within]
    rcases hclosed with hnone | hle
    · rw [hnone, ite_self]
    · rw [Nat.sub_eq_zero_of_le hle, if_neg (Nat.lt_irrefl 0)]
  unfold parseRespondOn parseRespond
  simp only [hopen, hwithin]
  show Restores t (if host.isDirectory _ then _ else _) (if host.isDirectory _ then _ else _)
  split
  · exact handleDirectoryOn_eq h _
  · exact .andThen _ (.refl t)

/-- **The descriptors of a request.** All those that `parse_respond` opens are
closed, and all that their number decides is how much of the host is left. -/
theorem parseRespondOn_eq (h : t.Below n) (hprint : host.PrintsLittle) (request : HttpRequest) :
    Restores t (parseRespondOn host reads limit t request)
      (parseRespond (host.within (limit - n)) request) := by
  by_cases hlt : n < limit
  · cases hopen : host.openUpdate (revisedPath request.requestUri) with
    | none => exact parseRespondOn_closed h request (.inl hopen)
    | some content =>
      have hroom : 3 ≤ limit - n ↔ n + 2 < limit := by omega
      have hwithin := openUpdate_within host (limit - n) (revisedPath request.requestUri)
      rw [if_pos (Nat.sub_pos_of_lt hlt), hopen] at hwithin
      unfold parseRespondOn parseRespond
      simp only [hopen, hwithin, Option.map_some, h.openBelow_of_lt hlt, getContentType_within,
        hroom]
      exact respondFileOn_eq h hlt hprint request _ content
  · exact parseRespondOn_closed h request (.inr (Nat.not_lt.mp hlt))

/-- `handle` closes its socket, and nothing else. -/
theorem handleOn_eq (h : t.Below n) {client : Client} (hprint : client.host.PrintsLittle)
    (number : Nat) :
    Restores t (handleOn reads limit (t.put n (.connection number)) (some ⟨n, client⟩))
      (handle (client.host.within (limit - (n + 1))) client.input) := by
  show Restores t (readRequest client.input >>= fun request =>
      parseRespondOn client.host reads limit (t.put n (.connection number)) request >>= fun r =>
        .ok (r.1, r.2.close (some n)))
    (readRequest client.input >>= fun request =>
      parseRespond (client.host.within (limit - (n + 1))) request)
  cases readRequest client.input with
  | error fault => exact .error t fault
  | ok request =>
    have hclosed := @parseRespondOn_eq client.host reads limit _ _ (h.put (.connection number))
      hprint request
    show Restores t (_ >>= _) (parseRespond _ request)
    rw [← bind_pure (parseRespond _ request)]
    exact hclosed.bind fun sent u hu =>
      .ok sent ((hu.close n).trans (Descriptors.close_put h.get_eq_none (.connection number)))

end

end Cs252.Http
