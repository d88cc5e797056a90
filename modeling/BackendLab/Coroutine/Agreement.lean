import BackendLab.Coroutine.Reading

/-!
# The coroutine and the handlers

The loop of `Session::Start` and the handlers of the same class read the frames
of a stream alike.  At the first header that the handlers refuse they part in
two cases only: the length is `-1`, or the identifier is not positive and the
length is admitted.
-/

namespace BackendLab.Coroutine

open Support ServicePool

/-- Whether a session goes on, has ended, or has done something undefined. -/
inductive Ending where
  | running
  | ended
  | undefined
  deriving DecidableEq, Repr

/-- What can be seen of a reader: the messages that it has posted, the headers
that it has read, and whether it has ended. -/
structure Outcome where
  posted : List (ℤ × Bytes)
  headers : ℕ
  ending : Ending
  deriving DecidableEq, Repr

def readingEnding : Reading → Ending
  | .head | .body _ | .abandoned => .running
  | .closed => .ended

def Stage.ending : Stage → Ending
  | .head | .body _ => .running
  | .overrun => .undefined
  | .ended | .closed => .ended

def seen (s : ReadSession) : Outcome :=
  ⟨s.posted, s.headers, readingEnding s.reading⟩

def Session.seen (s : Session) : Outcome :=
  ⟨s.posted, s.headers, s.stage.ending⟩

/-- The handlers after a stream.  With `eof` the outstanding read fails when the
bytes have been read. -/
def handlersOutcome (stream : Bytes) (eof : Bool) : Outcome :=
  if eof then seen ((receive stream).complete .failed)
  else seen (receive stream)

/-- The coroutine after a stream. -/
def coroutineOutcome (stream : Bytes) (eof : Bool) : Outcome :=
  if eof then (coroutineReader.read .start stream).1.fail.seen
  else (coroutineReader.read .start stream).1.seen

/-- The headers at which the readers part. -/
def Parts (header rest : Bytes) (eof : Bool) : Prop :=
  headerId header ≤ maxLength ∧ headerLength header = -1 ∨
    headerId header ≤ 0 ∧ 1 ≤ headerLength header ∧
      headerLength header ≤ maxLength ∧
      (eof = false ∨ headerLength header ≤ rest.length)

theorem refused_of_parts {header rest : Bytes} {eof : Bool}
    (h : Parts header rest eof) : sessionFraming.parse header = none := by
  cases hparse : sessionFraming.parse header with
  | none => rfl
  | some am =>
      obtain ⟨⟨hid, -⟩, hpos, -⟩ := parse_shortFraming_eq_some hparse
      unfold Parts at h
      omega

/-- At an admitted length and an identifier that is not positive, the readers part
unless the stream ends inside the body. -/
theorem parts_iff_of_body {header rest : Bytes} {eof : Bool}
    (hid : headerId header ≤ 0) (hpos : 1 ≤ headerLength header)
    (hle : headerLength header ≤ maxLength) :
    Parts header rest eof ↔
      eof = false ∨ headerLength header ≤ rest.length := by
  constructor
  · intro h
    rcases h with ⟨-, h⟩ | ⟨-, -, -, h⟩
    · omega
    · exact h
  · intro h
    exact .inr ⟨hid, hpos, hle, h⟩

/-- The loop accepts what the handlers accept. -/
theorem parse_of_parse {header : Bytes} {a : ℤ} {n : ℕ}
    (h : sessionFraming.parse header = some (a, n)) :
    loopFraming.parse header = some (a, n) := by
  obtain ⟨⟨-, hid⟩, hpos, hle, ha, hn⟩ := parse_shortFraming_eq_some h
  have hparse := parse_shortFraming_of_range (p := (· ≤ maxLength)) hid hpos hle
  rwa [ha, hn, Int.toNat_natCast] at hparse

theorem Session.posted_readBody (s : Session) (msgLen : ℤ)
    (node : Except NodeError RecvNode) :
    (s.readBody msgLen node).posted = s.posted := by
  rw [readBody.eq_def]
  split <;> rfl

theorem Session.posted_headRead (s : Session) (bytes : Bytes) :
    (s.headRead bytes).posted = s.posted := by
  rw [headRead, checkHead]
  split
  · rfl
  · split
    · rfl
    · split
      · rfl
      · exact posted_readBody _ _ _

/-- Nothing that has been posted is taken back. -/
theorem Session.posted_resume (s : Session) (bytes : Bytes) :
    s.posted <+: (s.resume bytes).posted := by
  rw [resume]
  split
  · exact (s.posted_headRead bytes).symm ▸ List.prefix_rfl
  · rw [bodyRead]
    split
    · exact List.prefix_rfl
    · exact List.prefix_append _ _
  · exact List.prefix_rfl
  · exact List.prefix_rfl
  · exact List.prefix_rfl

theorem posted_read (s : Session) (bs : Bytes) :
    s.posted <+: (coroutineReader.read s bs).1.posted := by
  refine Reader.read_invariant (fun t : Session => s.posted <+: t.posted) ?_
    List.prefix_rfl bs
  intro t n bytes ht _ _
  exact ht.trans (t.posted_resume bytes)

theorem Session.posted_seen_ite (s : Session) (eof : Bool) :
    (if eof then s.fail.seen else s.seen).posted = s.posted := by
  cases eof with
  | false => rfl
  | true =>
      simp only [if_true, seen, fail]
      split <;> rfl

/-- The state of the loop behind the frames. -/
def behindFrames (ms : List (ℤ × Bytes)) : Session :=
  ⟨.head, ms, ms.length, ms.map fun m => BodyRead.make m.2.length⟩

/-- A body that is complete is posted. -/
theorem posted_of_body (ms : List (ℤ × Bytes)) {header rest : Bytes} {a : ℤ}
    {n : ℕ} (hlen : header.length = headTotalLen)
    (h : loopFraming.parse header = some (a, n)) (hbody : n ≤ rest.length) :
    ms ++ [(a, rest.take n)] <+:
      (coroutineReader.read (behindFrames ms) (header ++ rest)).1.posted := by
  have htake : (rest.take n).length = n := List.length_take_of_le hbody
  rw [← htake] at h
  obtain ⟨hvalid, hframe⟩ := loopFraming.valid_of_parse hlen h
  have hsplit : header ++ rest = loopFraming.frame (a, rest.take n) ++
      rest.drop n := by
    rw [hframe, List.append_assoc, List.take_append_drop]
  rw [hsplit, reads_loopFraming.read_frame rfl hvalid]
  exact posted_read ((behindFrames ms).take (a, rest.take n)) (rest.drop n)

/-- The loop reads the body for an identifier that is not positive.  It ends
behind the header only if the stream ends before the body does. -/
theorem seen_of_body_iff (ms : List (ℤ × Bytes)) {header rest : Bytes} {a : ℤ}
    {n : ℕ} (hlen : header.length = headTotalLen)
    (h : loopFraming.parse header = some (a, n)) (eof : Bool) :
    (if eof then (coroutineReader.read (behindFrames ms)
        (header ++ rest)).1.fail.seen
      else (coroutineReader.read (behindFrames ms) (header ++ rest)).1.seen) =
        ⟨ms, ms.length + 1, .ended⟩ ↔ eof = true ∧ rest.length < n := by
  by_cases hbody : rest.length < n
  · rw [read_header_of_partly rfl hlen h hbody]
    cases eof with
    | false => simp [Session.seen, Stage.ending]
    | true => simp [Session.fail, Session.close, Session.seen, Stage.ending,
        behindFrames, hbody]
  · refine iff_of_false ?_ (fun hboth => hbody hboth.2)
    intro houtcome
    have hposted := posted_of_body ms hlen h (Nat.le_of_not_lt hbody)
    have hsame : (coroutineReader.read (behindFrames ms)
        (header ++ rest)).1.posted = ms := by
      rw [← Session.posted_seen_ite, houtcome]
    rw [hsame] at hposted
    have hlength := hposted.length_le
    rw [List.length_append, List.length_singleton] at hlength
    omega

section Frames

variable {ms : List (ℤ × Bytes)} (hms : ∀ m ∈ ms, Sendable m)
include hms

theorem valid_of_sendable (m : ℤ × Bytes) (hm : m ∈ ms) :
    loopFraming.Valid m := by
  obtain ⟨⟨-, hid⟩, hrest⟩ :=
    valid_shortFraming_iff.mp (valid_iff_sendable.mpr (hms m hm))
  exact valid_shortFraming_iff.mpr ⟨hid, hrest⟩

theorem receive_frames (rest : Bytes) :
    receive (ms.flatMap encode ++ rest) =
      (callbackReader.read ⟨.head, ms, ms.length⟩ rest).1 := by
  rw [receive, ServicePool.read_flatMap_encode hms]

theorem coroutine_frames (rest : Bytes) :
    (coroutineReader.read .start (ms.flatMap encode ++ rest)).1 =
      (coroutineReader.read (behindFrames ms) rest).1 := by
  rw [read_flatMap_encode (valid_of_sendable hms), behindFrames]

theorem handlersOutcome_of_refused {header rest : Bytes}
    (hlen : header.length = headTotalLen)
    (hrefused : sessionFraming.parse header = none) (eof : Bool) :
    handlersOutcome (ms.flatMap encode ++ (header ++ rest)) eof =
      ⟨ms, ms.length + 1, .ended⟩ := by
  rw [handlersOutcome, receive_frames hms,
    ServicePool.read_of_refused rfl hlen hrefused]
  exact ite_self _

/-- At a header that the handlers refuse, the loop ends too, unless it is one of
those at which the readers part. -/
theorem coroutineOutcome_of_refused_iff {header rest : Bytes}
    (hlen : header.length = headTotalLen)
    (hrefused : sessionFraming.parse header = none) (eof : Bool) :
    coroutineOutcome (ms.flatMap encode ++ (header ++ rest)) eof =
      ⟨ms, ms.length + 1, .ended⟩ ↔ ¬ Parts header rest eof := by
  have hbad := parse_shortFraming_eq_none hrefused
  have hmax := maxLength_pos
  rw [coroutineOutcome, coroutine_frames hms]
  by_cases hended : maxLength < headerId header ∨
      maxLength < headerLength header ∨ headerLength header < -1
  · have hparts : ¬ Parts header rest eof := by
      unfold Parts
      omega
    obtain ⟨stage, rfl | rfl, hread⟩ :=
      read_header_of_ended (s := behindFrames ms) rfl hlen hended rest
    · rw [hread]
      exact iff_of_true (ite_self _) hparts
    · rw [hread]
      exact iff_of_true (ite_self _) hparts
  · have hid : headerId header ≤ maxLength := by omega
    by_cases hminus : headerLength header = -1
    · rw [read_header_of_minus_one rfl hlen hid hminus]
      refine iff_of_false ?_ (not_not.mpr (.inl ⟨hid, hminus⟩))
      intro houtcome
      have hundefined := (ite_self _).symm.trans houtcome
      cases congrArg Outcome.ending hundefined
    · by_cases hzero : headerLength header = 0
      · have hparts : ¬ Parts header rest eof := by
          unfold Parts
          omega
        rw [read_header_of_zero rfl hlen hid hzero]
        exact iff_of_true (ite_self _) hparts
      · have hpos : 1 ≤ headerLength header := by omega
        have hle : headerLength header ≤ maxLength := by omega
        have hnonpos : headerId header ≤ 0 := by omega
        rw [seen_of_body_iff ms hlen (parse_shortFraming_of_range hid hpos hle),
          parts_iff_of_body hnonpos hpos hle, not_or, Bool.not_eq_false]
        exact and_congr Iff.rfl (by omega)

end Frames

/-- The coroutine and the handlers post the same messages and end after the same
number of headers, exactly when the first header that the handlers refuse is not
one at which they part. -/
theorem coroutineOutcome_eq_iff (stream : Bytes) (eof : Bool) :
    coroutineOutcome stream eof = handlersOutcome stream eof ↔
      ∀ (ms : List (ℤ × Bytes)) (header rest : Bytes),
        stream = ms.flatMap encode ++ (header ++ rest) →
        (∀ m ∈ ms, Sendable m) → header.length = headTotalLen →
          ¬ Parts header rest eof := by
  constructor
  · intro hsame ms header rest hstream hms hlen hparts
    have hrefused := refused_of_parts hparts
    rw [hstream, handlersOutcome_of_refused hms hlen hrefused,
      coroutineOutcome_of_refused_iff hms hlen hrefused] at hsame
    exact hsame hparts
  · intro hnever
    obtain ⟨ms, rest, hstream, hvalid, hstuck⟩ :=
      sessionFraming.exists_frames stream
    rw [flatMap_frame hvalid] at hstream
    have hms (m) (hm : m ∈ ms) : Sendable m :=
      valid_iff_sendable.mp (hvalid m hm)
    cases hstuck with
    | short hshort =>
        rw [hstream, coroutineOutcome, coroutine_frames hms, handlersOutcome,
          receive_frames hms,
          Reader.read_of_waiting (reads_loopFraming.request_head rfl) hshort,
          Reader.read_of_waiting (reads_sessionFraming.request_head rfl) hshort]
        rfl
    | @refused header rest hlen hrefused =>
        have hparts := hnever ms header rest hstream hms hlen
        rw [hstream, handlersOutcome_of_refused hms hlen hrefused]
        exact (coroutineOutcome_of_refused_iff hms hlen hrefused eof).mpr hparts
    | @partly header rest a n hlen haccepted hbody =>
        rw [hstream, coroutineOutcome, coroutine_frames hms, handlersOutcome,
          receive_frames hms,
          read_header_of_partly rfl hlen (parse_of_parse haccepted) hbody,
          ServicePool.read_of_partly rfl hlen haccepted hbody]
        rfl

/-- The message `x` with the identifier `0` is posted by the coroutine and
refused by the handlers. -/
theorem coroutineOutcome_ne_zero_id :
    coroutineOutcome [0, 0, 0, 1, 120] false = ⟨[(0, [120])], 1, .running⟩ ∧
      handlersOutcome [0, 0, 0, 1, 120] false = ⟨[], 1, .ended⟩ ∧
      ¬ ∀ stream eof, coroutineOutcome stream eof =
        handlersOutcome stream eof := by
  have hcoroutine : coroutineOutcome [0, 0, 0, 1, 120] false =
      ⟨[(0, [120])], 1, .running⟩ := by decide +kernel
  have hhandlers : handlersOutcome [0, 0, 0, 1, 120] false =
      ⟨[], 1, .ended⟩ := by decide +kernel
  refine ⟨hcoroutine, hhandlers, ?_⟩
  intro hall
  have hsame := hall [0, 0, 0, 1, 120] false
  rw [hcoroutine, hhandlers] at hsame
  cases hsame

end BackendLab.Coroutine
