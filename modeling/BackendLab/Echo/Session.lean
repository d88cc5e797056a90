import BackendLab.Support.ByteOrder
import BackendLab.Support.Framing
import BackendLab.Support.WriteQueue
import Mathlib.Tactic.Common

/-!
# A session of the echo server

The class `Session` of the asynchronous echo server.  A message is a header of
two bytes with its length in network order, and a body.  Each message that has
been read is sent back.
-/

namespace BackendLab.Echo

open Support

/-- `HEAD_SIZE`, `MAX_SENDQUEUE_SIZE` and `max_length`. -/
def headSize : ℕ := 2
def maxSendQueueSize : ℕ := 1000
def maxLength : ℕ := 1024 * 2

theorem lt_of_le_maxLength {n : ℕ} (h : n ≤ maxLength) : n < 2 ^ 16 :=
  h.trans_lt (by decide)

structure MsgNode where
  totalLen : ℕ
  curLen : ℕ
  data : Bytes
  deriving DecidableEq, Repr

/-- The constructor for a message to be sent. -/
def MsgNode.forSending (msg : Bytes) (maxLen : ℕ) : MsgNode :=
  ⟨maxLen + headSize, 0,
    wordBytes (swapBytes (toUInt16 maxLen)) ++ msg.take maxLen ++ [0]⟩

/-- The constructor for a message to be received. -/
def MsgNode.forReceiving (maxLen : ℕ) : MsgNode :=
  ⟨maxLen, 0, List.replicate (maxLen + 1) 0⟩

/-- The bytes that `async_write` is given for a node. -/
def MsgNode.bytes (node : MsgNode) : Bytes :=
  node.data.take node.totalLen

/-- The read that is outstanding.  `cleared` is a session that has called
`ClearSession` for what it has read, `failed` one that has called it because a
read has failed. -/
inductive Reading where
  | head
  | body (node : MsgNode)
  | cleared
  | failed
  deriving DecidableEq, Repr

def Reading.inBody : Reading → Bool
  | .body _ => true
  | .head | .cleared | .failed => false

structure Session where
  reading : Reading
  sendQue : WriteQueue MsgNode
  deriving DecidableEq, Repr

namespace Session

/-- `Start`. -/
def start : Session := ⟨.head, .empty⟩

/-- `Send`: a message that finds the queue full is dropped. -/
def send (s : Session) (msg : Bytes) (maxLen : ℕ) : Session :=
  if maxSendQueueSize < s.sendQue.queue.length then s
  else { s with sendQue := s.sendQue.push (.forSending msg maxLen) }

def handleReadHead (s : Session) : Completion → Session
  | .failed => { s with reading := .failed }
  | .transferred bytes =>
      if bytes.length ≠ headSize then { s with reading := .cleared }
      else if swapBytes (wordOf bytes) ≤ 0 ∨
          maxLength < swapBytes (wordOf bytes) then
        { s with reading := .cleared }
      else
        { s with reading := .body (.forReceiving (swapBytes (wordOf bytes))) }

def handleReadBody (s : Session) (node : MsgNode) : Completion → Session
  | .failed => { s with reading := .failed }
  | .transferred bytes =>
      if bytes.length ≠ node.totalLen then { s with reading := .cleared }
      else { s.send (bytes ++ [0]) node.totalLen with reading := .head }

/-- `handle_write` for the write of `node`, without an error. -/
def handleWrite (s : Session) (node : MsgNode) : Session :=
  { s with sendQue := s.sendQue.complete node }

/-- The number of bytes that the outstanding `async_read` asks for. -/
def request (s : Session) : Option ℕ :=
  match s.reading with
  | .head => some headSize
  | .body node => some node.totalLen
  | .cleared | .failed => none

def complete (s : Session) (c : Completion) : Session :=
  match s.reading with
  | .head => s.handleReadHead c
  | .body node => s.handleReadBody node c
  | .cleared | .failed => s

end Session

/-! ## Frames -/

theorem exists_of_length_two {bs : Bytes} (h : bs.length = 2) :
    ∃ b0 b1, bs = [b0, b1] := by
  match bs, h with
  | [b0, b1], _ => exact ⟨b0, b1, rfl⟩

/-- The frames of the echo server: the header holds the length, which is neither
`0` nor larger than `max_length`. -/
def echoFraming : Framing Unit where
  headLen := headSize
  parse := fun bs =>
    if 1 ≤ ofBigEndian bs ∧ ofBigEndian bs ≤ maxLength then
      some ((), ofBigEndian bs)
    else none
  header := fun _ n => bigEndian n
  headLen_pos := by decide
  header_of_parse := by
    intro bs a n hlen h
    split at h
    · obtain ⟨b0, b1, rfl⟩ := exists_of_length_two hlen
      rw [← (Prod.mk.inj (Option.some.inj h)).2]
      exact bigEndian_ofBigEndian b0 b1 []
    · cases h

theorem parse_echoFraming_eq_some {bs : Bytes} {a : Unit} {n : ℕ}
    (h : echoFraming.parse bs = some (a, n)) :
    1 ≤ n ∧ n ≤ maxLength ∧ ofBigEndian bs = n := by
  simp only [echoFraming] at h
  split at h
  · next hok =>
      obtain ⟨-, rfl⟩ := Prod.mk.inj (Option.some.inj h)
      exact ⟨hok.1, hok.2, rfl⟩
  · cases h

theorem parse_echoFraming_eq_none_iff {bs : Bytes} :
    echoFraming.parse bs = none ↔
      ofBigEndian bs = 0 ∨ maxLength < ofBigEndian bs := by
  simp only [echoFraming]
  split
  · next hok =>
      refine iff_of_false (by simp) ?_
      omega
  · next hbad =>
      refine iff_of_true rfl ?_
      omega

theorem valid_echoFraming {body : Bytes} (hpos : 1 ≤ body.length)
    (hle : body.length ≤ maxLength) : echoFraming.Valid ((), body) := by
  have hsmall := lt_of_le_maxLength hle
  have hlength : ofBigEndian (bigEndian body.length) = body.length := by
    have happend := ofBigEndian_bigEndian hsmall []
    rwa [List.append_nil] at happend
  refine ⟨rfl, ?_⟩
  simp only [echoFraming, hlength]
  exact if_pos ⟨hpos, hle⟩

/-- The node that is sent back for a body is its frame. -/
theorem MsgNode.bytes_forSending {body rest : Bytes}
    (hle : body.length ≤ maxLength) :
    (MsgNode.forSending (body ++ rest) body.length).bytes =
      echoFraming.frame ((), body) := by
  have hsmall := lt_of_le_maxLength hle
  have hheader : wordBytes (swapBytes (toUInt16 body.length)) =
      bigEndian body.length := by
    rw [toUInt16_natCast hsmall, wordBytes_swapBytes hsmall]
  have hlength : body.length + headSize =
      (bigEndian body.length ++ body).length := by
    rw [List.length_append, length_bigEndian, headSize, Nat.add_comm]
  simp only [bytes, forSending, hheader, List.take_left]
  rw [hlength, List.take_left]
  rfl

/-! ## Handlers -/

namespace Session

variable {s : Session} {bytes : Bytes}

theorem handleReadHead_of_parse {a : Unit} {n : ℕ}
    (hlen : bytes.length = headSize)
    (h : echoFraming.parse bytes = some (a, n)) :
    s.handleReadHead (.transferred bytes) =
      { s with reading := .body (.forReceiving n) } := by
  obtain ⟨hpos, hle, hn⟩ := parse_echoFraming_eq_some h
  have hlen' : ¬ bytes.length ≠ headSize := not_not.mpr hlen
  have hn' : ¬ (n ≤ 0 ∨ maxLength < n) := by omega
  rw [handleReadHead, if_neg hlen', swapBytes_wordOf, hn, if_neg hn']

theorem handleReadHead_of_refused (h : echoFraming.parse bytes = none) :
    s.handleReadHead (.transferred bytes) = { s with reading := .cleared } := by
  have hbad : ofBigEndian bytes ≤ 0 ∨ maxLength < ofBigEndian bytes := by
    rw [Nat.le_zero]
    exact parse_echoFraming_eq_none_iff.mp h
  rw [handleReadHead, swapBytes_wordOf, if_pos hbad, ite_self]

theorem handleReadBody_eq {n : ℕ} (hlen : bytes.length = n) :
    s.handleReadBody (.forReceiving n) (.transferred bytes) =
      { s.send (bytes ++ [0]) bytes.length with reading := .head } := by
  have hlen' : ¬ bytes.length ≠ (MsgNode.forReceiving n).totalLen :=
    not_not.mpr hlen
  rw [handleReadBody, if_neg hlen']
  simp only [MsgNode.forReceiving, hlen]

/-- A message is queued as long as the queue is not full. -/
theorem send_of_room {msg : Bytes} {maxLen : ℕ}
    (h : s.sendQue.queue.length ≤ maxSendQueueSize) :
    s.send msg maxLen =
      { s with sendQue := s.sendQue.push (.forSending msg maxLen) } := by
  rw [send, if_neg (not_lt.mpr h)]

end Session

end BackendLab.Echo
