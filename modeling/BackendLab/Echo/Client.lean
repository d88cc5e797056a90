import BackendLab.Echo.Session

/-!
# The client of the echo server

`syncclient` reads a line, sends it as one message and reads the reply.  The line
may have as many characters as the array `request` holds besides the terminator;
the array `send_data`, which also takes the header, is no larger.
-/

namespace BackendLab.Echo

open Support

/-- The constants `MAX_LENGTH` and `HEAD_LENGTH` of the client. -/
def clientMaxLength : ℕ := 1024
def headLength : ℕ := 2

/-- A line that `cin.getline(request, MAX_LENGTH)` can store, without its
terminator, and that is not empty. -/
structure Line where
  chars : Bytes
  no_newline : 10 ∉ chars
  length_pos : 1 ≤ chars.length
  length_lt : chars.length < clientMaxLength

namespace Line

/-- `strlen(request)`. -/
def requestLength (L : Line) : ℕ :=
  (cstr (L.chars ++ [0]) 0).length

/-- The indices at which the two calls of `memcpy` store into `send_data`. -/
def stores (L : Line) : List ℕ :=
  List.range headLength ++ (List.range L.requestLength).map (2 + ·)

/-- The array `send_data` after the calls of `memcpy`. -/
def sendData (L : Line) : Bytes :=
  (wordBytes (swapBytes (toUInt16 L.requestLength)) ++
    (L.chars.take L.requestLength ++
      List.replicate clientMaxLength 0)).take clientMaxLength

/-- The bytes that the client writes.  A message whose length does not fit the
header is not sent; a buffer has at most the bytes of its array. -/
def written (L : Line) : Bytes :=
  if 65535 < L.requestLength then []
  else L.sendData.take (L.requestLength + 2)

end Line

/-- The message that the client takes from a reply, and what it leaves unread.
The client waits while bytes are missing. -/
def receiveReply (reply : Bytes) : Option (Bytes × Bytes) :=
  if reply.length < headLength then none
  else
    let count := min (swapBytes (wordOf reply)) clientMaxLength
    if reply.length < headLength + count then none
    else some ((reply.drop headLength).take count,
      reply.drop (headLength + count))

/-! ## The server's side -/

theorem Session.inBody_handleReadBody (s : Session) (node : MsgNode)
    (bytes : Bytes) :
    (s.handleReadBody node (.transferred bytes)).reading.inBody = false := by
  rw [handleReadBody]
  split <;> rfl

/-- The loop of completions that `Start` sets off. -/
def echoReader : Reader Session where
  request := Session.request
  deliver := fun s bytes => s.complete (.transferred bytes)
  weight := fun s => s.reading.inBody
  weight_of_request := by
    intro s bs h
    cases hs : s.reading with
    | body node =>
        refine ⟨rfl, ?_⟩
        simp only [Session.complete, hs]
        exact s.inBody_handleReadBody node bs
    | _ => simp [Session.request, hs, headSize] at h

/-- The session when it has read a message, passed it to `Send`, and waits for the
next header. -/
def Session.take (s : Session) (m : Unit × Bytes) : Session :=
  { s.send (m.2 ++ [0]) m.2.length with reading := .head }

theorem Session.sendQue_send (s : Session) (r : Reading) (msg : Bytes)
    (maxLen : ℕ) :
    (Session.send { s with reading := r } msg maxLen).sendQue =
      (s.send msg maxLen).sendQue := by
  rw [send, send]
  split <;> rfl

theorem reads_echoFraming :
    Reads echoReader echoFraming (fun s => s.reading = .head)
      Session.take where
  request_head := by
    intro s hs
    simp only [echoReader, Session.request, hs]
    rfl
  request_body := by
    intro s bs a n hs hlen hparse
    simp only [echoReader, Session.complete, hs]
    rw [Session.handleReadHead_of_parse hlen hparse]
    rfl
  deliver_body := by
    intro s bs a body hs hlen hparse
    simp only [echoReader, Session.complete, hs]
    rw [Session.handleReadHead_of_parse hlen hparse]
    simp only [Session.handleReadBody_eq rfl]
    rw [Session.take, Session.sendQue_send]
  ready_take := by
    intro s m _ _
    rfl

/-- What the server sends back for the bytes of a client. -/
def reply (bytes : Bytes) : Bytes :=
  (echoReader.read .start bytes).1.sendQue.content.flatMap MsgNode.bytes

/-! ## End to end -/

/-- The client stores inside `send_data`; it writes one frame, which the server
decodes to the line, with nothing left to read; and it decodes the reply to the
line, with nothing left to read. -/
structure Agrees (L : Line) : Prop where
  inside : ∀ i ∈ L.stores, i < clientMaxLength
  frame : L.written = echoFraming.frame ((), L.chars)
  received : echoReader.read .start L.written =
    (Session.start.take ((), L.chars), [])
  replied : receiveReply (reply L.written) = some (L.chars, [])

namespace Line

variable {L : Line}

theorem requestLength_eq (L : Line) :
    L.requestLength = (L.chars.takeWhile (· != 0)).length := by
  have hstring : StringAt (L.chars ++ [0]) 0 (L.chars.takeWhile (· != 0)) :=
    .of_drop rfl
  rw [requestLength, hstring.cstr_eq]

theorem requestLength_le (L : Line) : L.requestLength ≤ L.chars.length := by
  rw [requestLength_eq]
  exact (List.takeWhile_prefix _).length_le

/-- The whole line is sent exactly if it has no NUL. -/
theorem requestLength_eq_length_iff :
    L.requestLength = L.chars.length ↔ 0 ∉ L.chars := by
  rw [requestLength_eq]
  constructor
  · intro hlen hzero
    have hall := (List.takeWhile_prefix (· != 0)).eq_of_length hlen
    have hne := List.takeWhile_eq_self_iff.mp hall 0 hzero
    simp at hne
  · intro hzero
    have hall : L.chars.takeWhile (· != 0) = L.chars := by
      apply List.takeWhile_eq_self_iff.mpr
      intro b hb
      simpa using fun h0 : b = 0 => hzero (h0 ▸ hb)
    rw [hall]

theorem length_written_le (L : Line) :
    L.written.length ≤ L.requestLength + 2 ∧
      L.written.length ≤ clientMaxLength := by
  rw [written]
  split
  · exact ⟨Nat.zero_le _, Nat.zero_le _⟩
  · exact ⟨List.length_take_le _ _,
      (List.length_take_le' _ _).trans (List.length_take_le _ _)⟩

theorem length_frame (L : Line) :
    (echoFraming.frame ((), L.chars)).length = L.chars.length + 2 := by
  rw [Framing.frame, List.length_append, Nat.add_comm]
  rfl

theorem frame_eq (L : Line) :
    echoFraming.frame ((), L.chars) = bigEndian L.chars.length ++ L.chars := rfl

theorem valid (L : Line) : echoFraming.Valid ((), L.chars) := by
  have hlt := L.length_lt
  refine valid_echoFraming L.length_pos ?_
  simp only [clientMaxLength] at hlt
  simp only [maxLength]
  omega

/-- A line that has no NUL and fits is written as one frame. -/
theorem written_eq (hlen : L.requestLength = L.chars.length)
    (hfits : L.chars.length + 2 ≤ clientMaxLength) :
    L.written = echoFraming.frame ((), L.chars) := by
  have hsmall : L.chars.length < 2 ^ 16 := by
    have hlt := L.length_lt
    simp only [clientMaxLength] at hlt
    omega
  have hheader : wordBytes (swapBytes (toUInt16 L.chars.length)) =
      bigEndian L.chars.length := by
    rw [toUInt16_natCast hsmall, wordBytes_swapBytes hsmall]
  have hlength : L.chars.length + 2 =
      (bigEndian L.chars.length ++ L.chars).length := by
    rw [List.length_append, length_bigEndian, Nat.add_comm]
  rw [written, sendData, hlen, if_neg (by omega), hheader, List.take_length,
    List.take_take,
    min_eq_left hfits, ← List.append_assoc, hlength, List.take_left, frame_eq]

end Line

/-- The server reads the frame of a line and waits for the next header. -/
theorem read_frame_line (L : Line) :
    echoReader.read .start (echoFraming.frame ((), L.chars)) =
      (Session.start.take ((), L.chars), []) := by
  have hread := reads_echoFraming.read_frame (s := .start) rfl L.valid []
  rw [List.append_nil] at hread
  rw [hread]
  exact Reader.read_of_waiting rfl (by decide)

/-- The server sends the frame of the line back. -/
theorem reply_frame_line (L : Line) :
    reply (echoFraming.frame ((), L.chars)) =
      echoFraming.frame ((), L.chars) := by
  have hle : L.chars.length ≤ maxLength := by
    have hlt := L.length_lt
    simp only [clientMaxLength] at hlt
    simp only [maxLength]
    omega
  rw [reply, read_frame_line, Session.take,
    Session.send_of_room (Nat.zero_le _)]
  simp only [WriteQueue.content_push, List.flatMap_append,
    List.flatMap_singleton, MsgNode.bytes_forSending hle]
  rfl

theorem receiveReply_frame_line (L : Line) :
    receiveReply (echoFraming.frame ((), L.chars)) = some (L.chars, []) := by
  have hlt := L.length_lt
  have hsmall : L.chars.length < 2 ^ 16 := by
    simp only [clientMaxLength] at hlt
    omega
  have hlength := L.length_frame
  have hcount : min (swapBytes (wordOf (echoFraming.frame ((), L.chars))))
      clientMaxLength = L.chars.length := by
    rw [swapBytes_wordOf, L.frame_eq, ofBigEndian_bigEndian hsmall,
      min_eq_left (Nat.le_of_lt hlt)]
  have hhead : ¬ (echoFraming.frame ((), L.chars)).length < headLength := by
    rw [hlength, headLength]
    omega
  have hbody : ¬ (echoFraming.frame ((), L.chars)).length <
      headLength + L.chars.length := by
    rw [hlength, headLength]
    omega
  have hdrop : (echoFraming.frame ((), L.chars)).drop headLength = L.chars := by
    rw [L.frame_eq, headLength, ← length_bigEndian L.chars.length,
      List.drop_left]
  simp only [receiveReply, hcount, if_neg hhead, if_neg hbody]
  rw [← List.drop_drop, hdrop, List.take_length, List.drop_length]

/-- Client and server agree on a line exactly if it leaves room for the header in
`send_data` and has no NUL. -/
theorem agrees_iff (L : Line) :
    Agrees L ↔ L.chars.length + 2 ≤ clientMaxLength ∧ 0 ∉ L.chars := by
  constructor
  · intro h
    have hlength : L.written.length = L.chars.length + 2 := by
      rw [h.frame, L.length_frame]
    obtain ⟨hle, hfits⟩ := L.length_written_le
    have hrequest := L.requestLength_le
    refine ⟨hlength ▸ hfits, ?_⟩
    exact Line.requestLength_eq_length_iff.mp (by omega)
  · intro h
    obtain ⟨hfits, hzero⟩ := h
    have hlen := Line.requestLength_eq_length_iff.mpr hzero
    have hwritten := Line.written_eq hlen hfits
    constructor
    · intro i hi
      rw [Line.stores, hlen, List.mem_append, List.mem_map] at hi
      rcases hi with hi | ⟨j, hj, rfl⟩
      · rw [List.mem_range, headLength] at hi
        omega
      · rw [List.mem_range] at hj
        omega
    · exact hwritten
    · rw [hwritten, read_frame_line]
    · rw [hwritten, reply_frame_line, receiveReply_frame_line]

/-- The longest line: `1023` characters are stored behind the header, the last of
them outside the array. -/
def longestLine : Line where
  chars := List.replicate 1023 97
  no_newline := fun h => absurd (List.eq_of_mem_replicate h) (by decide)
  length_pos := by
    rw [List.length_replicate]
    decide
  length_lt := by
    rw [List.length_replicate]
    decide

theorem not_agrees_longestLine :
    1024 ∈ longestLine.stores ∧ ¬ Agrees longestLine := by
  have hlen : longestLine.requestLength = 1023 := by
    have hzero : 0 ∉ longestLine.chars :=
      fun h => absurd (List.eq_of_mem_replicate h) (by decide)
    rw [Line.requestLength_eq_length_iff.mpr hzero]
    exact List.length_replicate
  have hstore : 1024 ∈ longestLine.stores := by
    rw [Line.stores, hlen, List.mem_append, List.mem_map]
    exact .inr ⟨1022, List.mem_range.mpr (by decide), rfl⟩
  refine ⟨hstore, ?_⟩
  intro h
  exact absurd (h.inside 1024 hstore) (by decide)

end BackendLab.Echo
