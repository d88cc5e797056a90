import BackendLab.ServicePool.Reading

/-!
# The reading coroutine

`Session::Start` of the coroutine server reads in one loop what the handlers
`HandleReadHead` and `HandleReadBody` of the same class, which are those of the
server with an `io_context` pool, read in turns.  The loop tests the fields of a
header only from above, so that identifiers and lengths that are not positive
get further than the handlers let them.
-/

namespace BackendLab.Coroutine

open Support ServicePool

/-- Where the coroutine is suspended.  `overrun` is the loop after a store
outside an allocation, of which nothing more is known.  The loop has `ended` without
closing the socket, or has `closed` it. -/
inductive Stage where
  | head
  | body (node : RecvNode)
  | overrun
  | ended
  | closed
  deriving DecidableEq, Repr

def Stage.inBody : Stage → Bool
  | .body _ => true
  | .head | .overrun | .ended | .closed => false

/-- A body read: the number of bytes it asks for, those that the node has
allocated, and the index of the terminator that its constructor stores. -/
structure BodyRead where
  count : ℕ
  allocated : ℕ
  terminator : ℤ
  deriving DecidableEq, Repr

/-- Conversion of a `short` to `size_t`. -/
def toSizeT (x : ℤ) : ℕ :=
  (x % 2 ^ 64).toNat

/-- The read into a node that was made for `msgLen` bytes. -/
def BodyRead.make (msgLen : ℤ) : BodyRead :=
  ⟨toSizeT msgLen, (msgLen + 1).toNat, msgLen⟩

structure Session where
  stage : Stage
  posted : List (ℤ × Bytes)
  headers : ℕ
  bodyReads : List BodyRead
  deriving DecidableEq, Repr

/-- The `short` into which two bytes are copied, after `network_to_host_short`
has been called with it. -/
def swappedShort (bs : Bytes) : ℤ :=
  toInt16 (swapBytes (toUInt16 (toInt16 (wordOf bs))))

namespace Session

def start : Session := ⟨.head, [], 0, []⟩

/-- `ClearSession` and `co_return`. -/
def finish (s : Session) : Session :=
  { s with stage := .ended }

/-- `Close`, `ClearSession` and `co_return`, or the end of the `catch` clause. -/
def close (s : Session) : Session :=
  { s with stage := .closed }

/-- The body read for a length, once the constructor has been called. -/
def readBody (s : Session) (msgLen : ℤ) : Except NodeError RecvNode → Session
  | .ok node =>
      { s with
        stage := .body node, bodyReads := s.bodyReads ++ [BodyRead.make msgLen] }
  | .error .outOfBounds =>
      { s with
        stage := .overrun, bodyReads := s.bodyReads ++ [BodyRead.make msgLen] }
  -- The exception ends the loop.
  | .error .badArrayNewLength => s.close

/-- The tests of the two fields, up to the read of the body. -/
def checkHead (s : Session) (msgId msgLen : ℤ) : Session :=
  if maxLength < msgId then s.finish
  else if maxLength < msgLen then s.finish
  else s.readBody msgLen (RecvNode.make msgLen msgId)

/-- The first half of an iteration, after the header has been read. -/
def headRead (s : Session) (bytes : Bytes) : Session :=
  if bytes.length = 0 then s.close
  else checkHead { s with headers := s.headers + 1 } (swappedShort bytes)
    (swappedShort (bytes.drop headIdLen))

/-- The second half of an iteration, after the body has been read. -/
def bodyRead (s : Session) (node : RecvNode) (bytes : Bytes) : Session :=
  if bytes.length = 0 then s.close
  else
    { s with
      stage := .head,
      posted := s.posted ++
        [(node.msgId, (bytes ++ [0]).take node.totalLen.toNat)] }

/-- The number of bytes for which the loop is suspended. -/
def request (s : Session) : Option ℕ :=
  match s.stage with
  | .head => some headTotalLen
  | .body node => some node.totalLen.toNat
  | .overrun | .ended | .closed => none

def resume (s : Session) (bytes : Bytes) : Session :=
  match s.stage with
  | .head => s.headRead bytes
  | .body node => s.bodyRead node bytes
  | .overrun | .ended | .closed => s

/-- `async_read` has failed: the exception ends the loop. -/
def fail (s : Session) : Session :=
  match s.stage with
  | .head | .body _ => s.close
  | .overrun | .ended | .closed => s

end Session

theorem Session.inBody_bodyRead (s : Session) (node : RecvNode)
    (bytes : Bytes) : (s.bodyRead node bytes).stage.inBody = false := by
  rw [bodyRead]
  split <;> rfl

/-- The loop of the coroutine. -/
def coroutineReader : Reader Session where
  request := Session.request
  deliver := Session.resume
  weight := fun s => s.stage.inBody
  weight_of_request := by
    intro s bs h
    cases hs : s.stage with
    | body node =>
        refine ⟨rfl, ?_⟩
        simp only [Session.resume, hs]
        exact s.inBody_bodyRead node bs
    | _ => simp [Session.request, hs, headTotalLen] at h

/-! ## One iteration -/

theorem swappedShort_eq (bs : Bytes) : swappedShort bs = hostShort bs := by
  rw [swappedShort, toUInt16_toInt16, toUInt16_natCast (wordOf_lt bs), hostShort]

theorem headerLength_range (bytes : Bytes) :
    -2 ^ 15 ≤ headerLength bytes ∧ headerLength bytes < 2 ^ 15 :=
  toInt16_range _

namespace Session

variable {s : Session} {msgId msgLen : ℤ}

theorem headRead_eq {bytes : Bytes} (hlen : bytes.length = headTotalLen) :
    s.headRead bytes = checkHead { s with headers := s.headers + 1 }
      (headerId bytes) (headerLength bytes) := by
  have hne : ¬ bytes.length = 0 := by
    rw [hlen]
    decide
  rw [headRead, if_neg hne, swappedShort_eq, swappedShort_eq, headerId,
    headerLength]

theorem checkHead_of_above (h : maxLength < msgId ∨ maxLength < msgLen) :
    s.checkHead msgId msgLen = s.finish := by
  rw [checkHead]
  by_cases hid : maxLength < msgId
  · rw [if_pos hid]
  · rw [if_neg hid, if_pos (h.resolve_left hid)]

theorem checkHead_of_le (hid : msgId ≤ maxLength) (hlen : msgLen ≤ maxLength) :
    s.checkHead msgId msgLen =
      s.readBody msgLen (RecvNode.make msgLen msgId) := by
  rw [checkHead, if_neg (not_lt.mpr hid), if_neg (not_lt.mpr hlen)]

/-- A length that is not negative is read. -/
theorem checkHead_of_nonneg (hid : msgId ≤ maxLength)
    (hlen : msgLen ≤ maxLength) (hnonneg : 0 ≤ msgLen) :
    s.checkHead msgId msgLen =
      { s with
        stage := .body (bodyNode msgId msgLen),
        bodyReads := s.bodyReads ++ [BodyRead.make msgLen] } := by
  rw [checkHead_of_le hid hlen,
    RecvNode.make_eq_ok msgId hnonneg (lt_of_le_maxLength hlen), readBody]

/-- The length `-1` makes an allocation of no bytes, in front of which the
terminator is stored. -/
theorem checkHead_of_minus_one (hid : msgId ≤ maxLength) :
    s.checkHead msgId (-1) =
      { s with
        stage := .overrun,
        bodyReads := s.bodyReads ++ [BodyRead.make (-1)] } := by
  have hnode : RecvNode.make (-1) msgId = .error .outOfBounds := rfl
  rw [checkHead_of_le hid (by decide), hnode, readBody]

/-- Below, the array has a negative size. -/
theorem checkHead_of_negative (hid : msgId ≤ maxLength) (hlen : msgLen < -1)
    (hlow : -2 ^ 15 ≤ msgLen) : s.checkHead msgId msgLen = s.close := by
  have hself : toInt16 msgLen = msgLen := toInt16_eq_self hlow (by omega)
  have hnode : RecvNode.make msgLen msgId = .error .badArrayNewLength := by
    simp only [RecvNode.make, MsgNode.make, hself]
    rw [if_pos (by omega)]
    rfl
  have hle : msgLen ≤ maxLength := by
    simp only [maxLength]
    omega
  rw [checkHead_of_le hid hle, hnode, readBody]

theorem bodyRead_eq {bytes : Bytes} (hpos : 1 ≤ bytes.length) :
    s.bodyRead (bodyNode msgId bytes.length) bytes =
      { s with stage := .head, posted := s.posted ++ [(msgId, bytes)] } := by
  have htake : (bytes ++ [0]).take bytes.length = bytes := List.take_left
  rw [bodyRead, if_neg (by omega)]
  simp only [bodyNode, Int.toNat_natCast, htake]

/-- A message has been read and the next header is asked for. -/
def take (s : Session) (m : ℤ × Bytes) : Session :=
  ⟨.head, s.posted ++ [m], s.headers + 1,
    s.bodyReads ++ [BodyRead.make m.2.length]⟩

theorem foldl_take (s : Session) (hs : s.stage = .head)
    (ms : List (ℤ × Bytes)) :
    ms.foldl take s =
      ⟨.head, s.posted ++ ms, s.headers + ms.length,
        s.bodyReads ++ ms.map fun m => BodyRead.make m.2.length⟩ := by
  induction ms generalizing s with
  | nil =>
      simp only [List.foldl_nil, List.map_nil, List.append_nil, ← hs]
      rfl
  | cons m ms ih =>
      rw [List.foldl_cons, ih (s.take m) rfl]
      simp only [take, List.append_assoc, List.singleton_append,
        List.map_cons, List.length_cons, Nat.add_assoc, Nat.add_comm 1]

end Session

/-- The headers for which the loop reads a body and posts it. -/
abbrev loopFraming : Framing ℤ :=
  shortFraming fun id => id ≤ maxLength

theorem resume_of_parse {s : Session} {bytes : Bytes} {a : ℤ} {n : ℕ}
    (hs : s.stage = .head) (hlen : bytes.length = headTotalLen)
    (h : loopFraming.parse bytes = some (a, n)) :
    s.resume bytes =
      { s with
        stage := .body (bodyNode a n), headers := s.headers + 1,
        bodyReads := s.bodyReads ++ [BodyRead.make n] } := by
  obtain ⟨hid, hpos, hle, ha, hn⟩ := parse_shortFraming_eq_some h
  rw [ha] at hid
  rw [hn] at hpos hle
  simp only [Session.resume, hs]
  rw [Session.headRead_eq hlen, ha, hn,
    Session.checkHead_of_nonneg hid hle (by omega)]

theorem reads_loopFraming :
    Reads coroutineReader loopFraming (fun s => s.stage = .head)
      Session.take where
  request_head := by
    intro s hs
    simp only [coroutineReader, Session.request, hs]
    rfl
  request_body := by
    intro s bs a n hs hlen hparse
    simp only [coroutineReader, resume_of_parse hs hlen hparse]
    simp [Session.request, bodyNode]
  deliver_body := by
    intro s bs a body hs hlen hparse
    have hpos := (parse_shortFraming_eq_some hparse).2.1
    have hlength := (parse_shortFraming_eq_some hparse).2.2.2.2
    simp only [coroutineReader, resume_of_parse hs hlen hparse]
    simp only [Session.resume]
    rw [Session.bodyRead_eq (by omega)]
    rfl
  ready_take := by
    intro s m _ _
    rfl

/-- The loop takes the messages of a sequence of frames. -/
theorem read_flatMap_encode {ms : List (ℤ × Bytes)}
    (h : ∀ m ∈ ms, loopFraming.Valid m) (rest : Bytes) :
    coroutineReader.read .start (ms.flatMap encode ++ rest) =
      coroutineReader.read ⟨.head, ms, ms.length,
        ms.map fun m => BodyRead.make m.2.length⟩ rest := by
  rw [← flatMap_frame h, reads_loopFraming.read_frames rfl h,
    Session.foldl_take _ rfl]
  simp only [Session.start, List.nil_append, Nat.zero_add]

/-! ## Headers behind the frames -/

section Header

variable {s : Session} {header : Bytes}

theorem read_header (hs : s.stage = .head)
    (hlen : header.length = headTotalLen) (rest : Bytes) :
    coroutineReader.read s (header ++ rest) =
      coroutineReader.read (Session.checkHead
        { s with headers := s.headers + 1 } (headerId header)
          (headerLength header)) rest := by
  have hdeliver : coroutineReader.deliver s header = s.headRead header := by
    simp only [coroutineReader, Session.resume, hs]
  rw [reads_loopFraming.read_header hs hlen, hdeliver, Session.headRead_eq hlen]

/-- A field that is too large, or a length below `-1`, ends the loop. -/
theorem read_header_of_ended (hs : s.stage = .head)
    (hlen : header.length = headTotalLen)
    (h : maxLength < headerId header ∨ maxLength < headerLength header ∨
      headerLength header < -1) (rest : Bytes) :
    ∃ stage, (stage = .ended ∨ stage = .closed) ∧
      (coroutineReader.read s (header ++ rest)).1 =
        { s with headers := s.headers + 1, stage := stage } := by
  rw [read_header hs hlen]
  by_cases habove : maxLength < headerId header ∨ maxLength < headerLength header
  · rw [Session.checkHead_of_above habove, Session.finish, Reader.read_of_ended rfl]
    exact ⟨.ended, .inl rfl, rfl⟩
  · have hle : headerId header ≤ maxLength := by omega
    have hneg : headerLength header < -1 := by omega
    rw [Session.checkHead_of_negative hle hneg (headerLength_range header).1,
      Session.close, Reader.read_of_ended rfl]
    exact ⟨.closed, .inr rfl, rfl⟩

theorem read_header_of_minus_one (hs : s.stage = .head)
    (hlen : header.length = headTotalLen) (hid : headerId header ≤ maxLength)
    (h : headerLength header = -1) (rest : Bytes) :
    (coroutineReader.read s (header ++ rest)).1 =
      { s with
        headers := s.headers + 1, stage := .overrun,
        bodyReads := s.bodyReads ++ [BodyRead.make (-1)] } := by
  rw [read_header hs hlen, h, Session.checkHead_of_minus_one hid,
    Reader.read_of_ended rfl]

/-- A body of no bytes is read at once, and taken for the end of the stream. -/
theorem read_header_of_zero (hs : s.stage = .head)
    (hlen : header.length = headTotalLen) (hid : headerId header ≤ maxLength)
    (h : headerLength header = 0) (rest : Bytes) :
    (coroutineReader.read s (header ++ rest)).1 =
      { s with
        headers := s.headers + 1, stage := .closed,
        bodyReads := s.bodyReads ++ [BodyRead.make 0] } := by
  rw [read_header hs hlen, h,
    Session.checkHead_of_nonneg hid (by decide) le_rfl,
    Reader.read_of_request (n := 0) rfl (Nat.zero_le _)]
  exact congrArg Prod.fst (Reader.read_of_ended rfl _)

theorem read_header_of_parse (hs : s.stage = .head)
    (hlen : header.length = headTotalLen) {a : ℤ} {n : ℕ}
    (h : loopFraming.parse header = some (a, n)) (rest : Bytes) :
    coroutineReader.read s (header ++ rest) =
      coroutineReader.read
        { s with
          stage := .body (bodyNode a n), headers := s.headers + 1,
          bodyReads := s.bodyReads ++ [BodyRead.make n] } rest := by
  have hdeliver := resume_of_parse hs hlen h
  rw [reads_loopFraming.read_header hs hlen, ← hdeliver]
  rfl

/-- The loop waits for the rest of a body. -/
theorem read_header_of_partly (hs : s.stage = .head)
    (hlen : header.length = headTotalLen) {a : ℤ} {n : ℕ}
    (h : loopFraming.parse header = some (a, n)) {rest : Bytes}
    (hbody : rest.length < n) :
    (coroutineReader.read s (header ++ rest)).1 =
      { s with
        stage := .body (bodyNode a n), headers := s.headers + 1,
        bodyReads := s.bodyReads ++ [BodyRead.make n] } := by
  rw [read_header_of_parse hs hlen h]
  exact congrArg Prod.fst (Reader.read_of_waiting rfl hbody)

end Header

end BackendLab.Coroutine
