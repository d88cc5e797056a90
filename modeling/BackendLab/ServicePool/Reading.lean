import BackendLab.ServicePool.Message

/-!
# Reading messages

The two completion handlers of a session, `HandleReadHead` and
`HandleReadBody`, which take turns in asking for a header and for the body it
announces.  The frames that a `SendNode` makes are read back as the messages
that were sent, and whatever is read as a message is the frame that a
`SendNode` makes of it.
-/

namespace BackendLab.ServicePool

open Support

/-- The read that is outstanding.  `abandoned` is a session that neither reads
nor has been closed, as an exception leaves it. -/
inductive Reading where
  | head
  | body (node : RecvNode)
  | abandoned
  | closed
  deriving DecidableEq, Repr

def Reading.inBody : Reading → Bool
  | .body _ => true
  | .head | .abandoned | .closed => false

/-- The part of a session that reads: the outstanding read, the messages posted
to the logic system, and the number of headers read. -/
structure ReadSession where
  reading : Reading
  posted : List (ℤ × Bytes)
  headers : ℕ
  deriving DecidableEq, Repr

namespace ReadSession

/-- `Start`. -/
def start : ReadSession := ⟨.head, [], 0⟩

/-- `Close` followed by `ClearSession`. -/
def close (s : ReadSession) : ReadSession :=
  { s with reading := .closed }

/-- The body is read into a node, unless its constructor has thrown. -/
def readBody (s : ReadSession) : Except NodeError RecvNode → ReadSession
  | .ok node => { s with reading := .body node }
  | .error _ => { s with reading := .abandoned }

/-- `HandleReadHead`, once the four bytes are there. -/
def checkHead (s : ReadSession) (bytes : Bytes) : ReadSession :=
  if bytes.length ≠ headTotalLen then s.close
  else if headerId bytes ≤ 0 ∨ maxLength < headerId bytes then s.close
  else if headerLength bytes ≤ 0 ∨ maxLength < headerLength bytes then s.close
  else s.readBody (RecvNode.make (headerLength bytes) (headerId bytes))

def handleReadHead (s : ReadSession) : Completion → ReadSession
  | .failed => s.close
  | .transferred bytes =>
      checkHead { s with headers := s.headers + 1 } bytes

/-- The message is passed on as the logic system reads it from the node. -/
def post (s : ReadSession) (node : RecvNode) : ReadSession :=
  { s with posted := s.posted ++ [(node.msgId, node.data.take node.curLen.toNat)] }

def handleReadBody (s : ReadSession) (node : RecvNode) :
    Completion → ReadSession
  | .failed => s.close
  | .transferred bytes =>
      if (bytes.length : ℤ) ≠ node.totalLen then s.close
      else
        { s.post { node with curLen := node.totalLen, data := bytes ++ [0] } with
          reading := .head }

/-- The number of bytes that the outstanding `async_read` asks for. -/
def request (s : ReadSession) : Option ℕ :=
  match s.reading with
  | .head => some headTotalLen
  | .body node => some node.totalLen.toNat
  | .abandoned | .closed => none

def complete (s : ReadSession) (c : Completion) : ReadSession :=
  match s.reading with
  | .head => s.handleReadHead c
  | .body node => s.handleReadBody node c
  | .abandoned | .closed => s

end ReadSession

theorem ReadSession.inBody_handleReadBody (s : ReadSession) (node : RecvNode)
    (bytes : Bytes) :
    (s.handleReadBody node (.transferred bytes)).reading.inBody = false := by
  rw [handleReadBody]
  split <;> rfl

/-- The loop of completions that `Start` sets off. -/
def callbackReader : Reader ReadSession where
  request := ReadSession.request
  deliver := fun s bytes => s.complete (.transferred bytes)
  weight := fun s => s.reading.inBody
  weight_of_request := by
    intro s bs h
    cases hs : s.reading with
    | body node =>
        refine ⟨rfl, ?_⟩
        simp only [ReadSession.complete, hs]
        exact s.inBody_handleReadBody node bs
    | _ => simp [ReadSession.request, hs, headTotalLen] at h

/-- The session after the bytes have arrived. -/
def receive (stream : Bytes) : ReadSession :=
  (callbackReader.read .start stream).1

/-! ## Frames are read back -/

/-- The headers that `HandleReadHead` accepts. -/
abbrev sessionFraming : Framing ℤ :=
  shortFraming fun id => 1 ≤ id ∧ id ≤ maxLength

theorem valid_iff_sendable {m : ℤ × Bytes} :
    sessionFraming.Valid m ↔ Sendable m := by
  rw [valid_shortFraming_iff]
  constructor
  · rintro ⟨⟨hpos, hle⟩, -, hlen, hlen'⟩
    exact ⟨hpos, hle, hlen, hlen'⟩
  · intro h
    have hlow : -2 ^ 15 ≤ m.1 := by
      have hpos := h.id_pos
      omega
    exact ⟨⟨h.id_pos, h.id_le⟩,
      toInt16_eq_self hlow (lt_of_le_maxLength h.id_le),
      h.length_pos, h.length_le⟩

/-- The node into which the body of a message of length `n` is read. -/
def bodyNode (id : ℤ) (n : ℤ) : RecvNode :=
  ⟨⟨n, 0, List.replicate (n.toNat + 1) 0⟩, id⟩

theorem RecvNode.make_eq_ok {n : ℤ} (id : ℤ) (h : 0 ≤ n) (h' : n < 2 ^ 15) :
    RecvNode.make n id = .ok (bodyNode id n) := by
  rw [RecvNode.make, MsgNode.make_eq_ok h h', ok_bind]
  rfl

namespace ReadSession

variable {s : ReadSession} {bytes : Bytes}

/-- `HandleReadHead` on a header that is accepted. -/
theorem handleReadHead_of_parse {a : ℤ} {n : ℕ}
    (hlen : bytes.length = headTotalLen)
    (h : sessionFraming.parse bytes = some (a, n)) :
    s.handleReadHead (.transferred bytes) =
      { s with headers := s.headers + 1, reading := .body (bodyNode a n) } := by
  obtain ⟨hid, hpos, hle, ha, hn⟩ := parse_shortFraming_eq_some h
  rw [ha] at hid
  rw [hn] at hpos hle
  have hsmall := lt_of_le_maxLength hle
  have hlen' : ¬ bytes.length ≠ headTotalLen := not_not.mpr hlen
  have hid' : ¬ (a ≤ 0 ∨ maxLength < a) := by omega
  have hn' : ¬ ((n : ℤ) ≤ 0 ∨ maxLength < n) := by omega
  rw [handleReadHead, checkHead, if_neg hlen', ha, if_neg hid', hn,
    if_neg hn', RecvNode.make_eq_ok a (by omega) hsmall, readBody]

/-- `HandleReadHead` on a header that is refused. -/
theorem handleReadHead_of_refused (h : sessionFraming.parse bytes = none) :
    s.handleReadHead (.transferred bytes) =
      { s with headers := s.headers + 1, reading := .closed } := by
  have hbad := parse_shortFraming_eq_none h
  rw [handleReadHead, checkHead]
  by_cases hid : headerId bytes ≤ 0 ∨ maxLength < headerId bytes
  · rw [if_pos hid, ite_self, close]
  · have hlen : headerLength bytes ≤ 0 ∨ maxLength < headerLength bytes := by
      omega
    rw [if_pos hlen, ite_self, ite_self, close]

theorem handleReadBody_eq {a : ℤ} {n : ℕ} (hlen : bytes.length = n) :
    s.handleReadBody (bodyNode a n) (.transferred bytes) =
      { s with posted := s.posted ++ [(a, bytes)], reading := .head } := by
  have hsame : ¬ ((bytes.length : ℤ) ≠ (bodyNode a n).totalLen) := by
    simp [bodyNode, hlen]
  have htake : (bytes ++ [0]).take n = bytes := by
    rw [← hlen, List.take_left]
  simp only [handleReadBody, if_neg hsame]
  simp only [post, bodyNode, Int.toNat_natCast, htake]

end ReadSession

/-- A message has been read and the next header is asked for. -/
def ReadSession.take (s : ReadSession) (m : ℤ × Bytes) : ReadSession :=
  ⟨.head, s.posted ++ [m], s.headers + 1⟩

theorem ReadSession.foldl_take (s : ReadSession) (hs : s.reading = .head)
    (ms : List (ℤ × Bytes)) :
    ms.foldl ReadSession.take s =
      ⟨.head, s.posted ++ ms, s.headers + ms.length⟩ := by
  induction ms generalizing s with
  | nil =>
      rw [List.foldl_nil, List.append_nil, ← hs]
      rfl
  | cons m ms ih =>
      rw [List.foldl_cons, ih (s.take m) rfl]
      simp only [take, List.append_assoc, List.singleton_append,
        List.length_cons, Nat.add_assoc, Nat.add_comm 1]

theorem reads_sessionFraming :
    Reads callbackReader sessionFraming (fun s => s.reading = .head)
      ReadSession.take where
  request_head := by
    intro s hs
    simp only [callbackReader, ReadSession.request, hs]
    rfl
  request_body := by
    intro s bs a n hs hlen hparse
    simp only [callbackReader, ReadSession.complete, hs]
    rw [ReadSession.handleReadHead_of_parse hlen hparse]
    simp [ReadSession.request, bodyNode]
  deliver_body := by
    intro s bs a body hs hlen hparse
    simp only [callbackReader, ReadSession.complete, hs]
    rw [ReadSession.handleReadHead_of_parse hlen hparse]
    simp only [ReadSession.handleReadBody_eq rfl]
    rfl
  ready_take := by
    intro s m _ _
    rfl

/-- What lies behind the last complete frame of a stream, and the part of it that
no read has asked for. -/
inductive Behind : Reading → Bytes → Bytes → Prop
  | head {rest : Bytes} (h : rest.length < headTotalLen) :
      Behind .head rest rest
  | body {header rest : Bytes} {a : ℤ} {n : ℕ}
      (hlen : header.length = headTotalLen)
      (haccepted : sessionFraming.parse header = some (a, n))
      (h : rest.length < n) :
      Behind (.body (bodyNode a n)) (header ++ rest) rest
  | closed {header rest : Bytes} (hlen : header.length = headTotalLen)
      (hrefused : sessionFraming.parse header = none) :
      Behind .closed (header ++ rest) rest

section Rest

variable {s : ReadSession} {header rest : Bytes}

theorem read_header (hs : s.reading = .head)
    (hlen : header.length = headTotalLen) :
    callbackReader.read s (header ++ rest) =
      callbackReader.read (s.handleReadHead (.transferred header)) rest := by
  have hdeliver : callbackReader.deliver s header =
      s.handleReadHead (.transferred header) := by
    simp only [callbackReader, ReadSession.complete, hs]
  rw [reads_sessionFraming.read_header hs hlen, hdeliver]

theorem read_of_refused (hs : s.reading = .head)
    (hlen : header.length = headTotalLen)
    (hrefused : sessionFraming.parse header = none) :
    callbackReader.read s (header ++ rest) =
      ({ s with headers := s.headers + 1, reading := .closed }, rest) := by
  rw [read_header hs hlen, ReadSession.handleReadHead_of_refused hrefused,
    Reader.read_of_ended rfl]

theorem read_of_partly (hs : s.reading = .head)
    (hlen : header.length = headTotalLen) {a : ℤ} {n : ℕ}
    (haccepted : sessionFraming.parse header = some (a, n))
    (hbody : rest.length < n) :
    callbackReader.read s (header ++ rest) =
      ({ s with headers := s.headers + 1, reading := .body (bodyNode a n) },
        rest) := by
  rw [read_header hs hlen, ReadSession.handleReadHead_of_parse hlen haccepted]
  exact Reader.read_of_waiting rfl hbody

/-- The session when it is left with a rest that does not start with a frame. -/
theorem behind_read (hs : s.reading = .head) (h : sessionFraming.Stuck rest) :
    (callbackReader.read s rest).1.posted = s.posted ∧
      Behind (callbackReader.read s rest).1.reading rest
        (callbackReader.read s rest).2 := by
  cases h with
  | short hshort =>
      rw [Reader.read_of_waiting (reads_sessionFraming.request_head hs) hshort,
        hs]
      exact ⟨rfl, .head hshort⟩
  | refused hlen hrefused =>
      rw [read_of_refused hs hlen hrefused]
      exact ⟨rfl, .closed hlen hrefused⟩
  | partly hlen haccepted hbody =>
      rw [read_of_partly hs hlen haccepted hbody]
      exact ⟨rfl, .body hlen haccepted hbody⟩

end Rest

/-- The reader takes the messages of a sequence of frames. -/
theorem read_flatMap_encode {ms : List (ℤ × Bytes)}
    (h : ∀ m ∈ ms, Sendable m) (rest : Bytes) :
    callbackReader.read .start (ms.flatMap encode ++ rest) =
      callbackReader.read ⟨.head, ms, ms.length⟩ rest := by
  have hvalid (m) (hm : m ∈ ms) : sessionFraming.Valid m :=
    valid_iff_sendable.mpr (h m hm)
  rw [← flatMap_frame hvalid, reads_sessionFraming.read_frames rfl hvalid,
    ReadSession.foldl_take _ rfl]
  simp only [ReadSession.start, List.nil_append, Nat.zero_add]

/-- Behind the frames of messages the session waits for the next header. -/
theorem read_encoded {ms : List (ℤ × Bytes)} (h : ∀ m ∈ ms, Sendable m) :
    callbackReader.read .start (ms.flatMap encode) = (⟨.head, ms, ms.length⟩, []) := by
  have hread := read_flatMap_encode h []
  rw [List.append_nil] at hread
  rw [hread]
  exact Reader.read_of_waiting rfl (by decide)

/-- Reading is the inverse of sending.  The frames of messages are read back as
the messages, and the session waits for the next header.  In any stream, the
complete frames before the first header that is refused are the frames of the
messages posted. -/
theorem read_inverse_encode :
    (∀ msgs : List (ℤ × Bytes), (∀ m ∈ msgs, Sendable m) →
      callbackReader.read .start (msgs.flatMap encode) =
        (⟨.head, msgs, msgs.length⟩, [])) ∧
    (∀ stream : Bytes, ∃ behind : Bytes,
      stream = (receive stream).posted.flatMap encode ++ behind ∧
        (∀ m ∈ (receive stream).posted, Sendable m) ∧
        Behind (receive stream).reading behind
          (callbackReader.read .start stream).2) := by
  constructor
  · intro msgs h
    exact read_encoded h
  · intro stream
    obtain ⟨ms, rest, hstream, hvalid, hstuck⟩ :=
      sessionFraming.exists_frames stream
    rw [flatMap_frame hvalid] at hstream
    have hsendable (m) (hm : m ∈ ms) : Sendable m :=
      valid_iff_sendable.mp (hvalid m hm)
    have hread := read_flatMap_encode hsendable rest
    obtain ⟨hposted, hbehind⟩ :=
      behind_read (s := ⟨.head, ms, ms.length⟩) rfl hstuck
    have hreceive : receive stream =
        (callbackReader.read ⟨.head, ms, ms.length⟩ rest).1 := by
      rw [receive, hstream, hread]
    refine ⟨rest, ?_, ?_, ?_⟩
    · rw [hreceive, hposted]
      exact hstream
    · rw [hreceive, hposted]
      exact hsendable
    · rw [hreceive, hstream, hread]
      exact hbehind

/-- Two messages with different identifiers. -/
theorem read_inverse_encode_hello :
    (∀ m ∈ [((1001 : ℤ), ([104, 105] : Bytes)), (7, [33])], Sendable m) ∧
      encode (1001, [104, 105]) ++ encode (7, [33]) =
        [3, 233, 0, 2, 104, 105, 0, 7, 0, 1, 33] ∧
      callbackReader.read .start [3, 233, 0, 2, 104, 105, 0, 7, 0, 1, 33] =
        (⟨.head, [(1001, [104, 105]), (7, [33])], 2⟩, []) := by
  have h : ∀ m ∈ [((1001 : ℤ), ([104, 105] : Bytes)), (7, [33])], Sendable m := by
    intro m hm
    simp only [List.mem_cons, List.not_mem_nil, or_false] at hm
    rcases hm with rfl | rfl
    · constructor <;> decide
    · constructor <;> decide
  have hframes : encode (1001, [104, 105]) ++ encode (7, [33]) =
      [3, 233, 0, 2, 104, 105, 0, 7, 0, 1, 33] := by
    decide
  refine ⟨h, hframes, ?_⟩
  have hread := read_inverse_encode.1 _ h
  rw [List.flatMap_cons, List.flatMap_singleton, hframes] at hread
  exact hread

end BackendLab.ServicePool
