import BackendLab.Proactor.Connection.Parser
import BackendLab.Support.HeadLines

/-!
# Answering a request

`do_request`, the functions that fill the write buffer, and `write`.  The file
system and the kernel are parameters: a map from paths to files, and the list
of what the `writev` calls report.
-/

namespace BackendLab.Proactor

open Support

/-- A file: its mode bits, its bytes, and whether the server may open it. -/
structure File where
  mode : ℕ
  content : Bytes
  readable : Bool
  deriving DecidableEq, Repr

/-- The file that a path names, if any. -/
abbrev FileSystem := Bytes → Option File

/-- What an epoll registration waits for. -/
inductive Interest where
  | input | output
  deriving DecidableEq, Repr

def ok200Title : Bytes := ascii "OK"
def error400Title : Bytes := ascii "Bad Request"
def error400Form : Bytes := ascii
  "Your request has bad syntax or is inherently impossible to satisfy.\n"
def error403Title : Bytes := ascii "Forbidden"
def error403Form : Bytes := ascii
  "You do not have permission to get file from this server.\n"
def error404Title : Bytes := ascii "Not Found"
def error404Form : Bytes := ascii
  "The requested file was not found on this server.\n"
def error500Title : Bytes := ascii "Internal Error"
def error500Form : Bytes := ascii
  "There was an unusual problem serving the requested file.\n"

def docRoot : Bytes := ascii "./resources"

/-- `S_IROTH`. -/
def othersMayRead (mode : ℕ) : Bool :=
  mode &&& 0o4 ≠ 0

/-- `S_ISDIR`. -/
def isDirectory (mode : ℕ) : Bool :=
  mode &&& 0o170000 = 0o040000

namespace HttpConn

/-! ## The requested file -/

/-- The bytes that `strncpy(_, s, n)` writes. -/
def strncpyBytes (s : Bytes) (n : ℕ) : Bytes :=
  s.take n ++ List.replicate (n - s.length) 0

/-- `m_url` as a string. -/
def urlText (c : HttpConn) : Bytes :=
  match c.parser.url with
  | none => []
  | some p => cstr c.parser.mem p

/-- `m_real_file` after the `strcpy` and `strncpy` of `do_request`. -/
def joinPath (c : HttpConn) : Vector UInt8 filenameLen :=
  let path := store c.realFile 0 (docRoot ++ [0])
  store path docRoot.length
    (strncpyBytes c.urlText (filenameLen - docRoot.length - 1))

/-- The path handed to `stat` and `open`. -/
def path (c : HttpConn) : Bytes :=
  cstr c.realFile.toList 0

/-- `open` and `mmap`: an empty mapping is refused. -/
def mapFile (file : File) : FileAddress :=
  if file.readable ∧ file.content ≠ [] then .mapped file.content else .failed

def doRequest (fs : FileSystem) (c : HttpConn) : HttpCode × HttpConn :=
  let c := { c with realFile := c.joinPath }
  match fs c.path with
  | none => (.noResource, c)
  | some file =>
      let c := { c with fileStat := ⟨file.mode, file.content.length⟩ }
      if othersMayRead file.mode then
        if isDirectory file.mode then (.badRequest, c)
        else (.fileRequest, { c with fileAddress := mapFile file })
      else (.forbiddenRequest, c)

def withParser (c : HttpConn) (p : Parser) : HttpConn :=
  { c with parser := p }

def processRead (fs : FileSystem) (c : HttpConn) : HttpCode × HttpConn :=
  match c.parser.readRequest with
  | (.noRequest, p) => (.noRequest, c.withParser p)
  | (.badRequest, p) => (.badRequest, c.withParser p)
  | (.doRequest _, p) => doRequest fs (c.withParser p)

def unmap (c : HttpConn) : HttpConn :=
  { c with fileAddress := .null }

/-! ## The write buffer -/

/-- `add_response`, given the text that the format produces.  `vsnprintf`
stores at most the given size, its NUL included, and returns the length that
the whole text would have had. -/
def addResponse (c : HttpConn) (text : Bytes) : Bool × HttpConn :=
  if writeBufferSize ≤ c.writeIdx then (false, c)
  else
    let room := writeBufferSize - 1 - c.writeIdx
    let stored := if room = 0 then [] else text.take (room - 1) ++ [0]
    let c := { c with writeBuf := store c.writeBuf c.writeIdx stored }
    if room ≤ text.length then (false, c)
    else (true, { c with writeIdx := c.writeIdx + text.length })

def addStatusLine (c : HttpConn) (status : ℕ) (title : Bytes) :
    Bool × HttpConn :=
  c.addResponse (ascii "HTTP/1.1 " ++ intText status ++ ascii " " ++ title ++
    ascii "\r\n")

def addContentLength (c : HttpConn) (contentLen : ℤ) : Bool × HttpConn :=
  c.addResponse (ascii "Content-Length: " ++ intText contentLen ++
    ascii "\r\n")

def addContentType (c : HttpConn) : Bool × HttpConn :=
  c.addResponse (ascii "Content-Type:" ++ ascii "text/html" ++ ascii "\r\n")

def addLinger (c : HttpConn) : Bool × HttpConn :=
  c.addResponse (ascii "Connection: " ++
    (if c.parser.linger then ascii "keep-alive" else ascii "close") ++
    ascii "\r\n")

def addBlankLine (c : HttpConn) : Bool × HttpConn :=
  c.addResponse (ascii "\r\n")

def addContent (c : HttpConn) (content : Bytes) : Bool × HttpConn :=
  c.addResponse content

/-- The four calls of `add_headers`, which looks at none of their results.  Behind
them the function flows off its end: it is declared `bool` and has no `return`
statement, and its behaviour is undefined.  Every case of `process_write` that
answers calls it. -/
def addHeaders (c : HttpConn) (contentLen : ℤ) : HttpConn :=
  ((((c.addContentLength contentLen).2.addContentType).2.addLinger).2
    ).addBlankLine.2

/-- What an implementation makes of the end of `add_headers`, with the object as the
four calls leave it.  C++ allows any function here; `none` if control does not come
back to `process_write`. -/
abbrev FlowOff := HttpConn → Option HttpConn

/-- Control comes back, and nothing else happens. -/
def FlowOff.returns : FlowOff := some

/-- The cases of `process_write` that answer with a fixed text. -/
def addErrorPage (c : HttpConn) (status : ℕ) (title form : Bytes) :
    Bool × HttpConn :=
  let c := (c.addStatusLine status title).2
  match (c.addHeaders form.length).addContent form with
  | (false, c) => (false, c)
  | (true, c) =>
      (true, { c with iv := (⟨.writeBuf, c.writeIdx⟩, c.iv.2), ivCount := 1 })

/-- `process_write` where control comes back from `add_headers`.  The length of a file
is narrowed to the `int` parameter of `add_headers`. -/
def processWrite (c : HttpConn) : HttpCode → Bool × HttpConn
  | .internalError => c.addErrorPage 500 error500Title error500Form
  | .badRequest => c.addErrorPage 400 error400Title error400Form
  | .noResource => c.addErrorPage 404 error404Title error404Form
  | .forbiddenRequest => c.addErrorPage 403 error403Title error403Form
  | .fileRequest =>
      let c := (c.addStatusLine 200 ok200Title).2
      let c := c.addHeaders (toInt32 c.fileStat.size)
      (true, { c with
        iv := (⟨.writeBuf, c.writeIdx⟩, ⟨.file c.fileAddress, c.fileStat.size⟩)
        ivCount := 2 })
  | .noRequest | .getRequest | .closedConnection => (false, c)

/-- The cases of `process_write` that answer with a fixed text, on any
implementation. -/
def addErrorPageOn (f : FlowOff) (c : HttpConn) (status : ℕ) (title form : Bytes) :
    Option (Bool × HttpConn) :=
  let c := (c.addStatusLine status title).2
  (f (c.addHeaders form.length)).map fun c =>
    match c.addContent form with
    | (false, c) => (false, c)
    | (true, c) =>
        (true, { c with iv := (⟨.writeBuf, c.writeIdx⟩, c.iv.2), ivCount := 1 })

/-- `process_write` on any implementation. -/
def processWriteOn (f : FlowOff) (c : HttpConn) :
    HttpCode → Option (Bool × HttpConn)
  | .internalError => c.addErrorPageOn f 500 error500Title error500Form
  | .badRequest => c.addErrorPageOn f 400 error400Title error400Form
  | .noResource => c.addErrorPageOn f 404 error404Title error404Form
  | .forbiddenRequest => c.addErrorPageOn f 403 error403Title error403Form
  | .fileRequest =>
      let c := (c.addStatusLine 200 ok200Title).2
      (f (c.addHeaders (toInt32 c.fileStat.size))).map fun c =>
        (true, { c with
          iv := (⟨.writeBuf, c.writeIdx⟩, ⟨.file c.fileAddress, c.fileStat.size⟩)
          ivCount := 2 })
  | .noRequest | .getRequest | .closedConnection => some (false, c)

theorem processWriteOn_returns (c : HttpConn) (ret : HttpCode) :
    c.processWriteOn .returns ret = some (c.processWrite ret) := by
  cases ret <;> rfl

/-! ## Processing a request -/

/-- How `process()` ends: it asks for more input with `modifyfd(EPOLLIN)`, it
asks for room to send with `modifyfd(EPOLLOUT)`, or it calls `closeconn()`
first. -/
inductive ProcessExit where
  | waiting
  | responding
  | closing
  deriving DecidableEq, Repr

/-- `process()` where control comes back from `add_headers`. -/
def process (fs : FileSystem) (c : HttpConn) : ProcessExit × HttpConn :=
  match c.processRead fs with
  | (.noRequest, d) => (.waiting, d)
  | (code, d) =>
      match d.processWrite code with
      | (true, e) => (.responding, e)
      | (false, e) => (.closing, { e with sockfd := -1 })

/-- `process()` on any implementation. -/
def processOn (f : FlowOff) (fs : FileSystem) (c : HttpConn) :
    Option (ProcessExit × HttpConn) :=
  match c.processRead fs with
  | (.noRequest, d) => some (.waiting, d)
  | (code, d) =>
      (d.processWriteOn f code).map fun r =>
        if r.1 then (.responding, r.2) else (.closing, { r.2 with sockfd := -1 })

theorem processOn_returns (fs : FileSystem) (c : HttpConn) :
    c.processOn .returns fs = some (c.process fs) := by
  rcases hread : c.processRead fs with ⟨code, d⟩
  rcases hwrite : d.processWrite code with ⟨ok, e⟩
  unfold processOn process
  cases code with
  | noRequest => simp only [hread]
  | _ => cases ok <;> simp [hread, processWriteOn_returns, hwrite]

/-! ## Sending -/

/-- What one `writev` reports.  It takes any part of the bytes it is offered,
from the first on. -/
inductive WritevOutcome where
  | accepted (n : ℕ)
  | eagain
  | error
  deriving DecidableEq, Repr

/-- The kernel transfers no more than this in one call. -/
def maxRwCount : ℕ := 0x7ffff000

/-- The bytes of the mapped file. -/
def fileBytes (c : HttpConn) : Bytes :=
  match c.fileAddress with
  | .mapped content => content
  | .null | .failed => []

/-- The bytes that an `iovec` stands for, if they can be read.  `MAP_FAILED` cannot,
whatever the length. -/
def iovecBytes (c : HttpConn) (v : Iovec) : Option Bytes :=
  match v.base with
  | .writeBuf => some (c.writeBuf.toList.take v.len)
  | .file (.mapped content) => some (content.take v.len)
  | .null | .file .null => if v.len = 0 then some [] else none
  | .file .failed => none

/-- The second `iovec` is at `MAP_FAILED`, which is no address of the process: every
`writev` fails with `EFAULT` before it sends anything. -/
def faults (c : HttpConn) : Bool :=
  c.ivCount = 2 ∧ c.iv.2.base = .file .failed

/-- The bytes that `writev(m_sockfd, m_iv, m_iv_count)` offers to the kernel,
which stops at memory it cannot read. -/
def offered (c : HttpConn) : Bytes :=
  if c.faults then []
  else
    match c.iovecBytes c.iv.1 with
    | none => []
    | some header =>
        if c.ivCount = 2 then header ++ (c.iovecBytes c.iv.2).getD []
        else header

/-- The bytes that a `writev` takes which would accept `n`. -/
def taken (c : HttpConn) (n : ℕ) : Bytes :=
  c.offered.take (min n maxRwCount)

/-- The ways to leave `write()`. -/
inductive WriteExit where
  | nothing
  | again
  | failed
  | completed
  deriving DecidableEq, Repr

/-- How a call of `write()` ends: the exit taken, the connection it leaves, and
the bytes it has put on the socket. -/
structure WriteResult where
  exit : WriteExit
  conn : HttpConn
  sent : Bytes

/-- The value that `write()` returns at an exit. -/
def WriteExit.returns (linger : Bool) : WriteExit → Bool
  | .nothing | .again => true
  | .failed => false
  | .completed => linger

/-- The event that `write()` asks for with `modifyfd` at an exit. -/
def WriteExit.rearms : WriteExit → Option Interest
  | .nothing | .completed => some .input
  | .again => some .output
  | .failed => none

/-- The completion branch: `init()` only when the connection is kept. -/
def finish (c : HttpConn) : HttpConn :=
  if c.parser.linger then c.unmap.init else c.unmap

/-- The loop of `write()` against the outcomes of its `writev` calls; `none`
when they are not those of one pass through the loop.  The `iovec`s stay as
they are between two `writev` calls. -/
def writeLoop (c : HttpConn) :
    ℤ → ℤ → List WritevOutcome → Option WriteResult
  | _, _, [.eagain] => some ⟨.again, c, []⟩
  | _, _, [.error] => some ⟨.failed, c.unmap, []⟩
  | bytesToSend, bytesHaveSend, .accepted n :: rest =>
      let temp := c.taken n
      let bytesToSend := bytesToSend - temp.length
      let bytesHaveSend := bytesHaveSend + temp.length
      if bytesToSend ≤ bytesHaveSend then
        if rest = [] then some ⟨.completed, c.finish, temp⟩ else none
      else
        (c.writeLoop bytesToSend bytesHaveSend rest).map fun r =>
          { r with sent := temp ++ r.sent }
  | _, _, _ => none

/-- `write()` against the outcomes of its `writev` calls. -/
def write (c : HttpConn) (outcomes : List WritevOutcome) :
    Option WriteResult :=
  if c.writeIdx = 0 then
    if outcomes = [] then some ⟨.nothing, c.init, []⟩ else none
  else if c.faults ∧ outcomes ≠ [.error] then none
  else c.writeLoop c.writeIdx 0 outcomes

theorem writeLoop_of_write {c : HttpConn} {outcomes : List WritevOutcome}
    {r : WriteResult} (h : c.write outcomes = some r) (hidx : c.writeIdx ≠ 0) :
    c.writeLoop c.writeIdx 0 outcomes = some r := by
  rw [write, if_neg hidx] at h
  split_ifs at h
  exact h

theorem write_eq_writeLoop {c : HttpConn} (hidx : c.writeIdx ≠ 0)
    (hfaults : c.faults = false) (outcomes : List WritevOutcome) :
    c.write outcomes = c.writeLoop c.writeIdx 0 outcomes := by
  rw [write, if_neg hidx, if_neg (by simp [hfaults])]

/-- A response whose file could not be mapped is not sent. -/
theorem write_of_faults {c : HttpConn} (hidx : c.writeIdx ≠ 0)
    (hfaults : c.faults = true) {outcomes : List WritevOutcome} {r : WriteResult}
    (h : c.write outcomes = some r) :
    outcomes = [.error] ∧ r = ⟨.failed, c.unmap, []⟩ := by
  rw [write, if_neg hidx] at h
  split_ifs at h with hother
  obtain rfl : outcomes = [.error] := by
    by_contra hne
    exact hother ⟨hfaults, hne⟩
  exact ⟨rfl, (Option.some.inj h).symm⟩

end HttpConn

end BackendLab.Proactor
