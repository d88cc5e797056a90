import BackendLab.Coroutine.Agreement
import BackendLab.ServicePool.Completion

/-!
# The two servers and their clients

The coroutine server differs from the server with an `io_context` pool only in
how its sessions read.  The loop reads on behind a message whose identifier is
not positive, where the handlers close the session, and no callback is registered
for such a message.  So a client that has sent the same bytes to both is answered
alike by both up to there, and by the coroutine server perhaps beyond.
-/

namespace BackendLab.Coroutine

open Support ServicePool

/-! ## Reading in a loop -/

theorem Session.posted_resume_cases (s : Session) (bytes : Bytes) :
    (s.resume bytes).posted = s.posted ∨
      ∃ m, (s.resume bytes).posted = s.posted ++ [m] := by
  rw [resume]
  split
  · exact .inl (s.posted_headRead bytes)
  · rw [bodyRead]
    split
    · exact .inl rfl
    · exact .inr ⟨_, rfl⟩
  · exact .inl rfl
  · exact .inl rfl
  · exact .inl rfl

/-- The sessions of the coroutine server. -/
def loop : ReadingHalf Session where
  reader := coroutineReader
  start := .start
  posted := Session.posted
  fail := Session.fail
  Defined := fun s => s.stage ≠ .overrun
  Closed := fun s => decide (s.stage = .closed)
  posted_start := rfl
  posted_deliver := Session.posted_resume_cases
  posted_fail := by
    intro s
    rw [Session.fail]
    split <;> rfl
  request_fail := by
    intro s
    cases hs : s.stage <;>
      simp [coroutineReader, Session.fail, Session.request, Session.close, hs]
  request_of_not_defined := by
    intro s hs
    have hstage : s.stage = .overrun := not_not.mp hs
    simp only [coroutineReader, Session.request, hstage]
  request_of_closed := by
    intro s hs
    have hstage : s.stage = .closed := of_decide_eq_true hs
    simp only [coroutineReader, Session.request, hstage]

/-! ## The messages of a stream -/

section Messages

variable {ms : List (ℤ × Bytes)} (hms : ∀ m ∈ ms, Sendable m)
include hms

theorem messages_handlers_of_stuck {rest : Bytes}
    (h : sessionFraming.Stuck rest) :
    handlers.messages (ms.flatMap encode ++ rest) = ms := by
  have hread := receive_frames hms rest
  rw [receive] at hread
  simp only [ReadingHalf.messages, handlers, hread]
  exact (behind_read (s := ⟨.head, ms, ms.length⟩) rfl h).1

theorem messages_loop_frames (rest : Bytes) :
    loop.messages (ms.flatMap encode ++ rest) =
      (coroutineReader.read (behindFrames ms) rest).1.posted := by
  simp only [ReadingHalf.messages, loop, coroutine_frames hms rest]

/-- At a header that the handlers refuse, the loop posts nothing, or first of all
a message whose identifier is not positive. -/
theorem messages_loop_of_refused {header rest : Bytes}
    (hlen : header.length = headTotalLen)
    (hrefused : sessionFraming.parse header = none) :
    loop.messages (ms.flatMap encode ++ (header ++ rest)) = ms ∨
      ∃ m, m.1 ≤ 0 ∧
        ms ++ [m] <+: loop.messages (ms.flatMap encode ++ (header ++ rest)) := by
  have hbad := parse_shortFraming_eq_none hrefused
  rw [messages_loop_frames hms]
  by_cases hended : maxLength < headerId header ∨
      maxLength < headerLength header ∨ headerLength header < -1
  · obtain ⟨stage, -, hread⟩ :=
      read_header_of_ended (s := behindFrames ms) rfl hlen hended rest
    rw [hread]
    exact .inl rfl
  · have hid : headerId header ≤ maxLength := by omega
    by_cases hminus : headerLength header = -1
    · rw [read_header_of_minus_one rfl hlen hid hminus]
      exact .inl rfl
    · by_cases hzero : headerLength header = 0
      · rw [read_header_of_zero rfl hlen hid hzero]
        exact .inl rfl
      · have hpos : 1 ≤ headerLength header := by omega
        have hle : headerLength header ≤ maxLength := by omega
        have hparse := parse_shortFraming_of_range (p := (· ≤ maxLength)) hid hpos
          hle
        by_cases hbody : rest.length < (headerLength header).toNat
        · rw [read_header_of_partly rfl hlen hparse hbody]
          exact .inl rfl
        · right
          exact ⟨_, by simp only; omega,
            posted_of_body ms hlen hparse (Nat.le_of_not_lt hbody)⟩

end Messages

/-- The handlers read the first of the messages that the loop reads, and all of
them if their identifiers are positive. -/
theorem messages_handlers_prefix_loop (stream : Bytes) :
    handlers.messages stream <+: loop.messages stream ∧
      ((∀ m ∈ loop.messages stream, 1 ≤ m.1) →
        handlers.messages stream = loop.messages stream) := by
  obtain ⟨ms, rest, hstream, hvalid, hstuck⟩ :=
    sessionFraming.exists_frames stream
  rw [flatMap_frame hvalid] at hstream
  have hms (m) (hm : m ∈ ms) : Sendable m :=
    valid_iff_sendable.mp (hvalid m hm)
  subst hstream
  rw [messages_handlers_of_stuck hms hstuck]
  have hloop : loop.messages (ms.flatMap encode ++ rest) = ms ∨
      ∃ m, m.1 ≤ 0 ∧
        ms ++ [m] <+: loop.messages (ms.flatMap encode ++ rest) := by
    cases hstuck with
    | short hshort =>
        left
        rw [messages_loop_frames hms,
          Reader.read_of_waiting (reads_loopFraming.request_head rfl) hshort]
        rfl
    | refused hlen hrefused => exact messages_loop_of_refused hms hlen hrefused
    | partly hlen haccepted hbody =>
        left
        rw [messages_loop_frames hms,
          read_header_of_partly rfl hlen (parse_of_parse haccepted) hbody]
        rfl
  rcases hloop with hsame | ⟨m, hnonpos, hmore⟩
  · rw [hsame]
    exact ⟨List.prefix_rfl, fun _ => rfl⟩
  · refine ⟨(List.prefix_append ms [m]).trans hmore, ?_⟩
    intro hpos
    have hm := hpos m (hmore.subset (by simp))
    omega

/-! ## Conversations -/

theorem read_loop_frames {ms : List (ℤ × Bytes)} (hms : ∀ m ∈ ms, Sendable m) :
    (loop.reader.read loop.start (ms.flatMap encode)).1 = behindFrames ms := by
  have hframes := coroutine_frames hms []
  rw [List.append_nil] at hframes
  exact hframes.trans (congrArg Prod.fst
    (Reader.read_of_waiting (reads_loopFraming.request_head rfl) (by decide)))

/-- What is needed for a conversation with a client holds of the coroutine server
too. -/
theorem restores_loop : loop.Restores :=
  fun _ hms => congrArg Session.posted (read_loop_frames hms)

theorem sane_loop : loop.Sane := by
  intro ms hms
  rw [read_loop_frames hms]
  exact Option.some_ne_none headTotalLen

/-! ## What the clients are sent -/

variable {ι κ : Type*} [DecidableEq ι] [DecidableEq κ] {ν : Type} {j : JsonCpp ν}

/-- A client of each server has sent the same bytes, and both sessions are quiet.
Then what the server with handlers has written is the beginning of what the
coroutine server has written, and the same if all the messages that the loop has
read have positive identifiers. -/
theorem written_handlers_prefix_loop {s : Server ι ReadSession}
    {t : Server κ Session} {i : ι} {k : κ}
    (hs : ServerReachable handlers j s) (ht : ServerReachable loop j t)
    (hwhole : (s.peer i).broken = false ∧ (t.peer k).broken = false)
    (hrunning : s.logic.bStop = false ∧ t.logic.bStop = false)
    (hquiet : Quiet handlers s i ∧ Quiet loop t k)
    (harrived : (s.peer i).arrived = (t.peer k).arrived)
    (hroom : (replies j (loop.messages (t.peer k).arrived)).length ≤
      maxSendQue + 1) :
    (s.peer i).written <+: (t.peer k).written ∧
      ((∀ m ∈ loop.messages (t.peer k).arrived, 1 ≤ m.1) →
        (s.peer i).written = (t.peer k).written) := by
  have hsettles : Settles handlers j (fun l => (s.peer l).arrived) i s :=
    ⟨hs, fun _ => rfl, hwhole.1, hrunning.1⟩
  have htettles : Settles loop j (fun l => (t.peer l).arrived) k t :=
    ⟨ht, fun _ => rfl, hwhole.2, hrunning.2⟩
  obtain ⟨⟨more, hmore⟩, hsame⟩ :=
    messages_handlers_prefix_loop (t.peer k).arrived
  have hlength : (replies j (handlers.messages (s.peer i).arrived)).length ≤
      maxSendQue + 1 := by
    rw [← hmore, replies_append, List.length_append] at hroom
    rw [harrived]
    omega
  rw [hsettles.written_of_quiet hquiet.1 hlength,
    htettles.written_of_quiet hquiet.2 hroom]
  simp only [harrived]
  constructor
  · rw [← hmore, replies_append, List.flatMap_append]
    exact List.prefix_append _ _
  · intro hpos
    rw [hsame hpos]

/-- Both servers are greeted. -/
theorem written_handlers_prefix_loop_greeting :
    ∃ (s : Server Unit ReadSession) (t : Server Unit Session),
      ServerReachable handlers styled s ∧ ServerReachable loop styled t ∧
        (s.peer ()).arrived = encode greeting ∧
        (t.peer ()).arrived = encode greeting ∧
        (s.peer ()).written = (t.peer ()).written := by
  have hmessages : loop.messages (encode greeting) = [greeting] := by
    have hrestores := restores_loop _ sendable_greeting
    rwa [List.flatMap_singleton] at hrestores
  have hdefined := sane_loop.defined sendable_greeting
  have hopen := sane_loop.not_closed sendable_greeting
  rw [List.flatMap_singleton] at hdefined hopen
  have hsreached := settles_reached handlers styled (encode greeting)
  have htreached := settles_reached loop styled (encode greeting)
  obtain ⟨s, hsrun, hsquiet⟩ := hsreached.exists_quiet
    (fun _ => by rw [messages_greeting]; exact harmless_greeting) trivial
    open_greeting
  obtain ⟨t, htrun, htquiet⟩ := htreached.exists_quiet
    (fun _ => by rw [hmessages]; exact harmless_greeting) hdefined hopen
  have hs := hsreached.of_run hsrun
  have ht := htreached.of_run htrun
  have hsame := written_handlers_prefix_loop hs.reachable ht.reachable
    ⟨hs.whole, ht.whole⟩ ⟨hs.running, ht.running⟩ ⟨hsquiet, htquiet⟩
    ((hs.arrived ()).trans (ht.arrived ()).symm) (by
      rw [ht.arrived (), hmessages, replies_greeting]
      decide)
  refine ⟨s, t, hs.reachable, ht.reachable, hs.arrived (), ht.arrived (),
    hsame.2 ?_⟩
  intro m hm
  rw [ht.arrived (), hmessages, List.mem_singleton] at hm
  rw [hm]
  decide

end BackendLab.Coroutine
