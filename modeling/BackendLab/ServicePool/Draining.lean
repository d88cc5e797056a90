import BackendLab.ServicePool.Exchange

/-!
# A server that is left alone answers everything

If nothing more arrives and nothing fails, the steps that the server can make by
itself lead to a state in which the worker waits, the session waits for bytes
that have not arrived, and its send queue is empty.  There the bytes that have
been written are those of the replies to all messages that have arrived.
-/

namespace BackendLab.ServicePool

open Support Relation

variable {ι σ : Type*} {ν : Type} {P : ReadingHalf σ} {j : JsonCpp ν}

/-! ## The worker -/

/-- How far the worker is from waiting, while the system is not being stopped. -/
def LogicSystem.rank {μ : Type*} (s : LogicSystem μ) : ℕ :=
  10 * s.msgQue.length +
    match s.worker with
    | .blocked false | .draining | .relocking | .exited => 0
    | .parking | .testing => 1
    | .checking => 2
    | .entering | .waking => 3
    | .blocked true => 4
    | .running _ _ => 5

theorem rank_dealMsg {μ : Type*} {s t : LogicSystem μ} (hs : LogicInvariant s)
    (hstop : s.bStop = false) (hw : s.worker ≠ .blocked false)
    (h : s.dealMsg = some t) : t.rank < s.rank ∧ t.bStop = false := by
  have hstopping : s.worker.stopping = false := by
    by_contra hne
    rw [hs.stopped (Bool.not_eq_false _ ▸ hne)] at hstop
    cases hstop
  rw [LogicSystem.dealMsg] at h
  cases hworker : s.worker with
  | entering | parking | waking =>
      simp only [hworker, Option.some.injEq] at h
      rw [← h]
      simp [LogicSystem.rank, hworker, hstop]
  | checking =>
      simp only [hworker] at h
      split at h
      · rw [← Option.some.inj h]
        simp [LogicSystem.rank, hworker, hstop]
      · rw [← Option.some.inj h]
        simp [LogicSystem.rank, hworker, hstop]
  | blocked notified =>
      cases notified with
      | false => exact absurd hworker hw
      | true =>
          simp only [hworker, Option.some.injEq] at h
          rw [← h]
          simp [LogicSystem.rank, hworker, hstop]
  | testing =>
      simp only [hworker, hstop, LogicSystem.popFront] at h
      split at h
      · next hcontra => cases hcontra
      · cases hque : s.msgQue with
        | nil =>
            rw [hque] at h
            cases h
        | cons msg rest =>
            rw [hque] at h
            rw [← Option.some.inj h]
            simp only [LogicSystem.rank, hworker, hque, List.length_cons,
              and_true]
            omega
  | running stopping msg =>
      rw [hworker, Worker.stopping] at hstopping
      simp only [hworker, hstopping, Option.some.injEq] at h
      rw [← h]
      simp [LogicSystem.rank, hworker, hstop]
  | draining | relocking | exited =>
      rw [hworker] at hstopping
      cases hstopping

/-! ## Steps of the server by itself -/

/-- The reply to the message can be made without leaving its memory. -/
def Harmless (j : JsonCpp ν) (m : ℤ × Bytes) : Prop :=
  ∀ call, answer j m = some call → call.makeNode ≠ .error .outOfBounds

theorem Harmless.exists_handle {m : ℤ × Bytes} (h : Harmless j m)
    (s : SendSession) : ∃ t, handle j s m = .ok t := by
  rw [handle]
  cases hanswer : answer j m with
  | none => exact ⟨s, rfl⟩
  | some call =>
      simp only
      by_cases hfull : maxSendQue < s.sendQue.queue.length
      · rw [SendSession.send, if_pos hfull]
        exact ⟨s, rfl⟩
      · rw [SendSession.send, if_neg hfull]
        cases hnode : call.makeNode with
        | ok node => exact ⟨_, rfl⟩
        | error e =>
            cases e with
            | badArrayNewLength => exact ⟨s, rfl⟩
            | outOfBounds => exact absurd hnode (h call hanswer)

variable [DecidableEq ι]

/-- A step with which nothing arrives, nothing fails, and nobody stops the logic
system. -/
structure InnerStep (P : ReadingHalf σ) (j : JsonCpp ν) (s t : Server ι σ) :
    Prop where
  step : ServerStep P j s t
  arrived : ∀ k, (t.peer k).arrived = (s.peer k).arrived
  broken : ∀ k, (t.peer k).broken = (s.peer k).broken
  bStop : t.logic.bStop = s.logic.bStop

/-- The states that the server passes by itself once `arrived` has come in. -/
structure Settles (P : ReadingHalf σ) (j : JsonCpp ν) (arrived : ι → Bytes)
    (i : ι) (s : Server ι σ) : Prop where
  reachable : ServerReachable P j s
  arrived : ∀ k, (s.peer k).arrived = arrived k
  whole : (s.peer i).broken = false
  running : s.logic.bStop = false

variable {s t : Server ι σ} {arrived : ι → Bytes} {i : ι}

namespace Settles

theorem step (hs : Settles P j arrived i s) (h : InnerStep P j s t) :
    Settles P j arrived i t where
  reachable := hs.reachable.tail h.step
  arrived := fun k => (h.arrived k).trans (hs.arrived k)
  whole := (h.broken i).trans hs.whole
  running := h.bStop.trans hs.running

theorem invariant (hs : Settles P j arrived i s) (k : ι) :
    PeerInvariant P j (s.peer k) :=
  (hs.reachable.peer_alone k).invariant

/-- Where reading what has arrived does not close the session, no operation of it is
late. -/
theorem timely (hs : Settles P j arrived i s)
    (hopen : P.Closed (P.reader.read P.start (arrived i)).1 = false) :
    (s.peer i).lateRead = false ∧ (s.peer i).lateWrite = false := by
  rw [← hs.arrived i] at hopen
  exact (hs.invariant i).late
    ((hs.invariant i).closed_eq_false hs.whole List.prefix_rfl hopen)

/-- A message in the hand of the worker is one of those that have arrived. -/
theorem mem_messages_of_hand (hs : Settles P j arrived i s) {k : ι}
    {m : ℤ × Bytes} (hhand : s.logic.worker.hand = [(k, m)]) :
    m ∈ P.messages (arrived k) := by
  have hnext := (hs.reachable.routed k).handled_append_hand
    hs.reachable.logicReachable.invariant hhand
  rw [← hs.arrived k]
  apply (hs.invariant k).posted_isPrefix.subset
  apply hnext.subset
  simp

/-- While it does not wait, the worker goes on. -/
theorem worker_step (hs : Settles P j arrived i s)
    (hharmless : ∀ k, ∀ m ∈ P.messages (arrived k), Harmless j m)
    (hw : s.logic.worker ≠ .blocked false) :
    ∃ t, InnerStep P j s t ∧ t.logic.rank < s.logic.rank ∧
      (t.peer i).reader = (s.peer i).reader ∧
      (t.peer i).unread = (s.peer i).unread := by
  have hlogic := hs.reachable.logicReachable
  have hexited : s.logic.worker ≠ .exited := by
    intro hexited
    have hstop := hlogic.invariant.stopped (by rw [hexited, Worker.stopping])
    rw [hs.running] at hstop
    cases hstop
  obtain ⟨logic, hdeal⟩ := hlogic.exists_dealMsg hexited
  obtain ⟨hrank, hstop⟩ := rank_dealMsg hlogic.invariant hs.running hw hdeal
  have hstop' : logic.bStop = s.logic.bStop := hstop.trans hs.running.symm
  cases hhand : s.logic.worker.hand with
  | nil =>
      exact ⟨_, ⟨.deal hhand hdeal, fun _ => rfl, fun _ => rfl, hstop'⟩, hrank,
        rfl, rfl⟩
  | cons entry rest =>
      have hrest : rest = [] := by
        cases hworker : s.logic.worker <;> rw [hworker] at hhand <;>
          simp_all [Worker.hand]
      subst hrest
      obtain ⟨k, m⟩ := entry
      obtain ⟨sender, hhandle⟩ := Harmless.exists_handle
        (hharmless k m (hs.mem_messages_of_hand hhand)) (s.peer k).sender
      let p := (s.peer k).answered m sender
      exact ⟨_, ⟨.handle hhand hdeal hhandle,
        Server.map_peer_setPeer (p := p) (f := Peer.arrived) rfl,
        Server.map_peer_setPeer (p := p) (f := Peer.broken) rfl, hstop'⟩, hrank,
        Server.map_peer_setPeer (p := p) (f := Peer.reader) rfl i,
        Server.map_peer_setPeer (p := p) (f := Peer.unread) rfl i⟩

/-- The worker comes to wait, and the reading of the session stays as it is. -/
theorem exists_waiting (hs : Settles P j arrived i s)
    (hharmless : ∀ k, ∀ m ∈ P.messages (arrived k), Harmless j m) :
    ∃ t, ReflTransGen (InnerStep P j) s t ∧
      (Settles P j arrived i t ∧ (t.peer i).reader = (s.peer i).reader ∧
        (t.peer i).unread = (s.peer i).unread) ∧
      t.logic.worker = .blocked false := by
  apply exists_run_to_goal (fun t => t.logic.rank) _ ⟨hs, rfl, rfl⟩
  rintro t ⟨ht, hreader, hunread⟩ hw
  obtain ⟨u, hstep, hrank, hreader', hunread'⟩ := ht.worker_step hharmless hw
  exact ⟨u, .single hstep, ⟨ht.step hstep, hreader'.trans hreader,
    hunread'.trans hunread⟩, hrank⟩

/-- A read whose bytes have arrived can be completed while the worker waits. -/
theorem read_step (hs : Settles P j arrived i s)
    (hdefined : P.Defined (P.reader.read P.start (arrived i)).1)
    (hopen : P.Closed (P.reader.read P.start (arrived i)).1 = false)
    (hw : s.logic.worker = .blocked false) {n : ℕ}
    (hn : P.reader.request (s.peer i).reader = some n)
    (hle : n ≤ (s.peer i).unread.length) :
    ∃ t, InnerStep P j s t ∧
      (t.peer i).reader =
        P.reader.deliver (s.peer i).reader ((s.peer i).unread.take n) ∧
      (t.peer i).unread = (s.peer i).unread.drop n := by
  have hfollows := (hs.invariant i).follows_of_whole hs.whole
  have hreads : (s.peer i).Reads P n := by
    refine ⟨hn, hle, (hs.timely hopen).1, ?_⟩
    by_contra hundefined
    -- A reader in such a state has ended, and would be in it at the end too.
    have hread := (hfollows.deliver hn hle).read_eq
    simp only [Peer.read] at hundefined
    rw [Reader.read_of_ended (P.request_of_not_defined _ hundefined),
      hs.arrived i] at hread
    rw [hread] at hdefined
    exact hundefined hdefined
  rcases P.posted_deliver (s.peer i).reader ((s.peer i).unread.take n) with
    hsame | ⟨m, hmore⟩
  · refine ⟨s.setPeer i ((s.peer i).read P n), ⟨.socket (.read hreads hsame),
      Server.map_peer_setPeer (f := Peer.arrived) rfl,
      Server.map_peer_setPeer (f := Peer.broken) rfl, rfl⟩, ?_, ?_⟩
    · rw [Server.peer_setPeer_self, Peer.read]
    · rw [Server.peer_setPeer_self, Peer.read]
  · have hlock : s.logic.worker.locks = false := by rw [hw, Worker.locks]
    refine ⟨_, ⟨.post hreads hmore hlock,
      Server.map_peer_setPeer (f := Peer.arrived) rfl,
      Server.map_peer_setPeer (f := Peer.broken) rfl, rfl⟩, ?_, ?_⟩
    · simp only [Server.peer_setPeer_self, Peer.read]
    · simp only [Server.peer_setPeer_self, Peer.read]

end Settles

/-- The session asks for more bytes than it has not read. -/
def Peer.Waits (P : ReadingHalf σ) (p : Peer σ) : Prop :=
  ∀ n, P.reader.request p.reader = some n → p.unread.length < n

namespace Settles

/-- The session comes to wait, and so does the worker. -/
theorem exists_read (hs : Settles P j arrived i s)
    (hharmless : ∀ k, ∀ m ∈ P.messages (arrived k), Harmless j m)
    (hdefined : P.Defined (P.reader.read P.start (arrived i)).1)
    (hopen : P.Closed (P.reader.read P.start (arrived i)).1 = false) :
    ∃ t, ReflTransGen (InnerStep P j) s t ∧
      (Settles P j arrived i t ∧ t.logic.worker = .blocked false) ∧
      (t.peer i).Waits P := by
  obtain ⟨u, hsu, ⟨hu, -, -⟩, hw⟩ := hs.exists_waiting hharmless
  have hrun : ∃ t, ReflTransGen (InnerStep P j) u t ∧
      (Settles P j arrived i t ∧ t.logic.worker = .blocked false) ∧
      (t.peer i).Waits P := by
    apply exists_run_to_goal
      (fun t => P.reader.loop.rank ((t.peer i).reader, (t.peer i).unread)) _
      ⟨hu, hw⟩
    rintro t ⟨ht, hw⟩ hwaits
    simp only [Peer.Waits, not_forall, not_lt] at hwaits
    obtain ⟨n, hn, hle⟩ := hwaits
    obtain ⟨v, htv, hreader, hunread⟩ := ht.read_step hdefined hopen hw hn hle
    obtain ⟨x, hvx, ⟨hx, hreader', hunread'⟩, hwx⟩ :=
      (ht.step htv).exists_waiting hharmless
    refine ⟨x, .head htv hvx, ⟨hx, hwx⟩, ?_⟩
    rw [hreader', hunread', hreader, hunread]
    apply P.reader.loop.rank_lt
    simp only [Reader.loop, hn, if_pos hle]
  obtain ⟨t, hut, ht⟩ := hrun
  exact ⟨t, hsu.trans hut, ht⟩

/-- What is in the send queue is written. -/
theorem exists_written (hs : Settles P j arrived i s)
    (hopen : P.Closed (P.reader.read P.start (arrived i)).1 = false)
    (hw : s.logic.worker = .blocked false) (hwaits : (s.peer i).Waits P) :
    ∃ t, ReflTransGen (InnerStep P j) s t ∧
      (Settles P j arrived i t ∧ t.logic.worker = .blocked false ∧
        (t.peer i).Waits P) ∧
      (t.peer i).sender.sendQue.queue = [] := by
  apply exists_run_to_goal (fun t => (t.peer i).sender.sendQue.queue.length) _
    ⟨hs, hw, hwaits⟩
  rintro t ⟨ht, hw, hwaits⟩ hqueue
  have horderly := (ht.invariant i).orderly ht.whole
  obtain ⟨node, hnode⟩ :=
    List.exists_mem_of_ne_nil _ (horderly.outstanding_ne_nil_iff.mpr hqueue)
  have hstep : InnerStep P j t (t.setPeer i ((t.peer i).handleWrite node)) :=
    ⟨.socket (.handleWrite hnode (ht.timely hopen).2),
      Server.map_peer_setPeer (f := Peer.arrived) rfl,
      Server.map_peer_setPeer (f := Peer.broken) rfl, rfl⟩
  have hpos := List.length_pos_of_ne_nil hqueue
  refine ⟨_, .single hstep, ⟨ht.step hstep, hw, ?_⟩, ?_⟩
  · rw [Server.peer_setPeer_self]
    exact hwaits
  · rw [Server.peer_setPeer_self]
    simp only [Peer.handleWrite, SendSession.handleWrite, WriteQueue.complete,
      WriteQueue.startFront, List.length_tail]
    omega

end Settles

/-! ## The replies to everything that has arrived -/

/-- Nothing is left to be done for a session: the worker waits, no byte that the
session asks for has arrived, and no write is outstanding. -/
structure Quiet (P : ReadingHalf σ) (s : Server ι σ) (i : ι) : Prop where
  worker : s.logic.worker = .blocked false
  waits : (s.peer i).Waits P
  outstanding : (s.peer i).sender.sendQue.outstanding = []

namespace Settles

theorem exists_quiet (hs : Settles P j arrived i s)
    (hharmless : ∀ k, ∀ m ∈ P.messages (arrived k), Harmless j m)
    (hdefined : P.Defined (P.reader.read P.start (arrived i)).1)
    (hopen : P.Closed (P.reader.read P.start (arrived i)).1 = false) :
    ∃ t, ReflTransGen (InnerStep P j) s t ∧ Quiet P t i := by
  obtain ⟨u, hsu, ⟨hu, hw⟩, hwaits⟩ := hs.exists_read hharmless hdefined hopen
  obtain ⟨t, hut, ⟨ht, hw, hwaits⟩, hqueue⟩ := hu.exists_written hopen hw hwaits
  refine ⟨t, hsu.trans hut, hw, hwaits, ?_⟩
  have horderly := (ht.invariant i).orderly ht.whole
  by_contra hne
  exact horderly.outstanding_ne_nil_iff.mp hne hqueue

theorem of_run (hs : Settles P j arrived i s)
    (h : ReflTransGen (InnerStep P j) s t) : Settles P j arrived i t := by
  apply invariant_of_run h hs
  intro s t hs hstep
  exact hs.step hstep

/-- In a quiet state every message that has arrived has been handled. -/
theorem handled_of_quiet (hs : Settles P j arrived i s) (hq : Quiet P s i) :
    (s.peer i).handled = P.messages (arrived i) := by
  have hlogic := hs.reachable.logicReachable.invariant
  have hrouted := hs.reachable.routed i
  have horder := congrArg (lane i) hlogic.order
  rw [hlogic.parked (.inr hq.worker), hq.worker, Worker.hand, List.append_nil,
    List.append_nil, hrouted.handled, hrouted.posted] at horder
  rw [horder, (hs.invariant i).posted_of_waiting hs.whole hq.waits, hs.arrived i]

theorem written_of_quiet (hs : Settles P j arrived i s) (hq : Quiet P s i)
    (hroom : (replies j (P.messages (arrived i))).length ≤ maxSendQue + 1) :
    (s.peer i).written =
      (replies j (P.messages (arrived i))).flatMap SendCall.encoding := by
  have hinv := hs.invariant i
  have hqueue : (s.peer i).sender.sendQue.queue = [] := by
    by_contra hne
    exact (hinv.orderly hs.whole).outstanding_ne_nil_iff.mpr hne hq.outstanding
  have hbytes := hinv.bytes_content
  have hhandled := hs.handled_of_quiet hq
  rw [WriteQueue.content, hqueue, List.append_nil,
    hinv.whole (by rwa [hhandled]), hhandled] at hbytes
  exact hbytes

end Settles

/-- The request for `hi`, as a message, and the reply to it. -/
def greeting : ℤ × Bytes :=
  (msgHelloWorld,
    styled.toStyledString (styled.message msgHelloWorld (ascii "hi")))

def greetingReply : SendCall :=
  .text (styled.toStyledString
    (styled.message msgHelloWorld (replyText ++ ascii "hi"))) msgHelloWorld

theorem answer_greeting : answer styled greeting = some greetingReply :=
  documented_styled.helloWordCallBack_eq msgHelloWorld (ascii "hi")

theorem sendable_greeting : ∀ m ∈ [greeting], Sendable m := by
  intro m hm
  rw [List.mem_singleton.mp hm]
  constructor <;> decide

theorem messages_greeting : handlers.messages (encode greeting) = [greeting] := by
  have hmessages := messages_handlers sendable_greeting
  rwa [List.flatMap_singleton] at hmessages

/-- The session waits for the next header. -/
theorem open_greeting :
    handlers.Closed (handlers.reader.read handlers.start (encode greeting)).1 =
      false := by
  have hread := read_encoded sendable_greeting
  rw [List.flatMap_singleton] at hread
  exact congrArg (fun r => handlers.Closed r.1) hread

theorem replies_greeting : replies styled [greeting] = [greetingReply] := by
  have hok : greetingReply.makeNode.isOk = true := by decide +kernel
  simp [replies, answer_greeting, hok]

/-- The server after some bytes have arrived at its only session. -/
def reached (P : ReadingHalf σ) (bytes : Bytes) : Server Unit σ :=
  (Server.start P).setPeer () ((Peer.start P).arrive bytes)

theorem settles_reached (P : ReadingHalf σ) (j : JsonCpp ν) (bytes : Bytes) :
    Settles P j (fun _ => bytes) () (reached P bytes) :=
  ⟨.single (.socket (.arrive bytes rfl)), fun _ => rfl, rfl, rfl⟩

theorem harmless_greeting (m : ℤ × Bytes) (hm : m ∈ [greeting]) :
    Harmless styled m := by
  rw [List.mem_singleton.mp hm]
  intro call hcall
  rw [answer_greeting] at hcall
  rw [← Option.some.inj hcall]
  decide +kernel

end BackendLab.ServicePool
