import BackendLab.Support.CString
import Mathlib.Algebra.Order.Group.Nat

/-!
# The connection object of the Proactor server

`HttpConn` is the class `http_conn`: the members that its methods read or
write, one field for each.  The members that reading and parsing a request
work on are grouped in `Parser`, so that the types say what the parser leaves
alone.  Pointers into `m_read_buf` are indices, and the buffers and the path
have their declared sizes in their types.

`m_address` is written by `init(int, sockaddr_in)` and read by no method, so
it has no field here; it does have its place in the memory layout.
-/

namespace BackendLab.Proactor

open Support

def readBufferSize : ℕ := 2048
def writeBufferSize : ℕ := 1024
def filenameLen : ℕ := 200

def carriageReturn : UInt8 := 13
def lineFeed : UInt8 := 10

inductive Method where
  | get | post | head | put | delete | trace | options | connect
  deriving DecidableEq, Repr

/-- States of the main parser machine. -/
inductive CheckState where
  | requestLine | header | content
  deriving DecidableEq, Repr

/-- Results of handling a request. -/
inductive HttpCode where
  | noRequest | getRequest | badRequest | noResource | forbiddenRequest
  | fileRequest | internalError | closedConnection
  deriving DecidableEq, Repr

/-- States of the line scanner. -/
inductive LineStatus where
  | ok | bad | openLine
  deriving DecidableEq, Repr

/-- The members of `struct stat` that the server looks at. -/
structure FileStat where
  mode : ℕ
  size : ℕ
  deriving DecidableEq, Repr

/-- `m_file_address`: null, `MAP_FAILED`, or a mapping with its bytes. -/
inductive FileAddress where
  | null
  | failed
  | mapped (content : Bytes)
  deriving DecidableEq, Repr

/-- What `iov_base` of an `iovec` points to. -/
inductive IovBase where
  | null
  | writeBuf
  | file (address : FileAddress)
  deriving DecidableEq, Repr

structure Iovec where
  base : IovBase
  len : ℕ
  deriving DecidableEq, Repr

/-- The members of `http_conn` that hold the request being read. -/
structure Parser where
  readBuf : Vector UInt8 readBufferSize
  readIdx : ℕ
  checkedIndex : ℕ
  startLine : ℕ
  checkState : CheckState
  url : Option ℕ
  version : Option ℕ
  method : Method
  host : Option ℕ
  linger : Bool
  contentLength : ℤ

structure HttpConn where
  sockfd : ℤ
  parser : Parser
  realFile : Vector UInt8 filenameLen
  writeBuf : Vector UInt8 writeBufferSize
  writeIdx : ℕ
  fileAddress : FileAddress
  fileStat : FileStat
  iv : Iovec × Iovec
  ivCount : ℕ

/-- The parser members as `init()` leaves them. -/
def Parser.fresh : Parser where
  readBuf := Vector.replicate readBufferSize 0
  readIdx := 0
  checkedIndex := 0
  startLine := 0
  checkState := .requestLine
  url := none
  version := none
  method := .get
  host := none
  linger := false
  contentLength := 0

/-- A connection whose members are all zero. -/
def HttpConn.blank : HttpConn where
  sockfd := 0
  parser := Parser.fresh
  realFile := Vector.replicate filenameLen 0
  writeBuf := Vector.replicate writeBufferSize 0
  writeIdx := 0
  fileAddress := .null
  fileStat := ⟨0, 0⟩
  iv := (⟨.null, 0⟩, ⟨.null, 0⟩)
  ivCount := 0

/-- `init()`.  The second `bzero` clears `READ_BUFFER_SIZE` bytes from the
start of the shorter `m_write_buf` and so also the members declared behind it;
how far it reaches is worked out with the memory layout of the class. -/
def HttpConn.init (c : HttpConn) : HttpConn :=
  { HttpConn.blank with sockfd := c.sockfd }

/-! ## Reading from the socket -/

/-- What one `recv` reports. -/
inductive RecvOutcome where
  | data (bytes : Bytes)
  | closed
  | eagain
  | error
  deriving DecidableEq, Repr

namespace Parser

/-- The bytes `bs` are received behind those already in the read buffer. -/
def receive (c : Parser) (bs : Bytes) : Parser :=
  { c with
    readBuf := store c.readBuf c.readIdx bs
    readIdx := c.readIdx + bs.length }

/-- The loop of `read()` against the outcomes of its `recv` calls; `none` when
the loop has not been left at the end of the list.  A `recv` never returns
more than the room it is offered, and a count of zero closes the connection. -/
def readLoop (c : Parser) : List RecvOutcome → Option (Bool × Parser)
  | [] => none
  | .eagain :: _ => some (true, c)
  | .error :: _ => some (false, c)
  | .closed :: _ => some (false, c)
  | .data bs :: rest =>
      let got := bs.take (readBufferSize - c.readIdx)
      if got = [] then some (false, c) else (c.receive got).readLoop rest

def read (c : Parser) (outcomes : List RecvOutcome) :
    Option (Bool × Parser) :=
  if readBufferSize ≤ c.readIdx then some (false, c) else c.readLoop outcomes

theorem receive_receive (c : Parser) (xs ys : Bytes) :
    (c.receive xs).receive ys = c.receive (xs ++ ys) := by
  simp [receive, store_append, Nat.add_assoc]

/-- The bytes that the `recv` calls of one `read()` put into the read buffer, with
`m_read_idx = idx` at first. -/
def recvBytes (idx : ℕ) : List RecvOutcome → Bytes
  | .data bs :: rest =>
      let got := bs.take (readBufferSize - idx)
      if got = [] then [] else got ++ recvBytes (idx + got.length) rest
  | .closed :: _ | .eagain :: _ | .error :: _ | [] => []

def readBytes (c : Parser) (outcomes : List RecvOutcome) : Bytes :=
  if readBufferSize ≤ c.readIdx then [] else recvBytes c.readIdx outcomes

theorem readLoop_eq_receive {c c' : Parser} {outcomes : List RecvOutcome}
    {ok : Bool} (h : c.readLoop outcomes = some (ok, c'))
    (hc : c.readIdx ≤ readBufferSize) :
    c' = c.receive (recvBytes c.readIdx outcomes) ∧
      c.readIdx + (recvBytes c.readIdx outcomes).length ≤ readBufferSize := by
  induction outcomes generalizing c with
  | nil => simp [readLoop] at h
  | cons o rest ih =>
      cases o with
      | data bs =>
          simp only [readLoop] at h
          simp only [recvBytes]
          split at h
          next hnil =>
            obtain ⟨-, rfl⟩ := by simpa using h
            rw [if_pos hnil]
            exact ⟨rfl, by simpa using hc⟩
          next hne =>
            have hroom : (bs.take (readBufferSize - c.readIdx)).length ≤
                readBufferSize - c.readIdx := List.length_take_le _ _
            obtain ⟨rfl, hfit⟩ := ih h (by simp only [receive]; omega)
            rw [if_neg hne, receive_receive]
            refine ⟨rfl, ?_⟩
            simp only [receive] at hfit
            rw [List.length_append]
            omega
      | closed | eagain | error =>
          obtain ⟨-, rfl⟩ := by simpa [readLoop] using h
          exact ⟨rfl, by simpa [recvBytes] using hc⟩

/-- Whatever `recv` reports, `read()` appends some bytes that fit. -/
theorem read_eq_receive {c c' : Parser} {outcomes : List RecvOutcome}
    {ok : Bool} (h : c.read outcomes = some (ok, c'))
    (hc : c.readIdx ≤ readBufferSize) :
    c' = c.receive (c.readBytes outcomes) ∧
      c.readIdx + (c.readBytes outcomes).length ≤ readBufferSize := by
  unfold read at h
  unfold readBytes
  split at h
  next hfull =>
    obtain ⟨-, rfl⟩ := by simpa using h
    rw [if_pos hfull]
    exact ⟨rfl, by simpa using hc⟩
  next hroom =>
    rw [if_neg hroom]
    exact readLoop_eq_receive h hc

/-- Conversely every nonempty piece that fits can be delivered by one `read()`. -/
theorem read_data_eagain {c : Parser} {bs : Bytes} (hne : bs ≠ [])
    (hfit : c.readIdx + bs.length ≤ readBufferSize) :
    c.read [.data bs, .eagain] = some (true, c.receive bs) := by
  have hpos : 0 < bs.length := List.length_pos_iff.mpr hne
  have htake : bs.take (readBufferSize - c.readIdx) = bs :=
    List.take_of_length_le (by omega)
  rw [read, if_neg (by omega), readLoop, htake]
  simp [hne, readLoop]

end Parser

end BackendLab.Proactor
