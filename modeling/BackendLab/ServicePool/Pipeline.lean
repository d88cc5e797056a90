import BackendLab.ServicePool.Logic
import BackendLab.ServicePool.Reading
import BackendLab.ServicePool.Reply
import BackendLab.Support.Lanes
import Mathlib.Logic.Function.Basic

/-!
# From the bytes of a client to the bytes of its replies

All sessions of a server post their messages to the one queue of `LogicSystem`,
whose worker calls the callback for each message; the callback puts its reply
into the send queue of the session that the message came from.  The threads of
the `io_context` pool, the worker and the network may be interleaved in any way.

The way in which a session reads is a parameter, since the server with handlers
and the coroutine server share everything else.
-/

namespace BackendLab.ServicePool

open Support Relation

variable {ι σ : Type*} {ν : Type}

/-! ## The callback -/

/-- `_fun_callbacks`, as `RegisterCallBacks` fills it. -/
def funCallbacks (j : JsonCpp ν) (msgId : ℤ) :
    Option (ℤ → Bytes → Option SendCall) :=
  if msgId = msgHelloWorld then some (helloWordCallBack j) else none

/-- The call of `Send` to which the handling of a message comes, if any: there may
be no callback for its identifier, and jsoncpp may throw. -/
def answer (j : JsonCpp ν) (m : ℤ × Bytes) : Option SendCall := do
  let callback ← funCallbacks j m.1
  callback m.1 m.2

/-- The `try` block of `DealMsg`.  An exception of `Send` ends there. -/
def handle (j : JsonCpp ν) (s : SendSession) (m : ℤ × Bytes) :
    Except NodeError SendSession :=
  match answer j m with
  | none => .ok s
  | some call =>
      match s.send call with
      | .ok t => .ok t
      | .error .badArrayNewLength => .ok s
      | .error .outOfBounds => .error .outOfBounds

/-- The replies to messages: the calls of `Send` whose node can be made. -/
def replies (j : JsonCpp ν) (ms : List (ℤ × Bytes)) : List SendCall :=
  (ms.filterMap (answer j)).filter fun call => call.makeNode.isOk

/-! ## A session -/

/-- How a session reads.  A read that fails ends the reading; where a store
outside of an allocation is made, the state is not `Defined`.  In a state that is
`Closed` the reading has come to a call of `Close`. -/
structure ReadingHalf (σ : Type*) where
  reader : Reader σ
  start : σ
  posted : σ → List (ℤ × Bytes)
  fail : σ → σ
  Defined : σ → Prop
  Closed : σ → Bool
  posted_start : posted start = []
  posted_deliver : ∀ s bs, posted (reader.deliver s bs) = posted s ∨
    ∃ m, posted (reader.deliver s bs) = posted s ++ [m]
  posted_fail : ∀ s, posted (fail s) = posted s
  request_fail : ∀ s, reader.request (fail s) = none
  request_of_not_defined : ∀ s, ¬ Defined s → reader.request s = none
  request_of_closed : ∀ s, Closed s = true → reader.request s = none

/-- The messages in a stream. -/
def ReadingHalf.messages (P : ReadingHalf σ) (stream : Bytes) : List (ℤ × Bytes) :=
  P.posted (P.reader.read P.start stream).1

/-- A session with its socket: what has arrived there and what of it has not been
read, the messages for which the callback has run, and whether a read or a write
has failed.  `closed` is `_b_close`.  An operation that was outstanding when the
socket was closed may still succeed, since its bytes may have been transferred;
`lateRead` and `lateWrite` say that the outstanding one has been started since
then. -/
structure Peer (σ : Type*) where
  reader : σ
  arrived : Bytes
  unread : Bytes
  sender : SendSession
  handled : List (ℤ × Bytes)
  broken : Bool
  closed : Bool
  lateRead : Bool
  lateWrite : Bool

namespace Peer

def start (P : ReadingHalf σ) : Peer σ :=
  ⟨P.start, [], [], .start, [], false, false, false, false⟩

def arrive (p : Peer σ) (bytes : Bytes) : Peer σ :=
  { p with arrived := p.arrived ++ bytes, unread := p.unread ++ bytes }

/-- The completion of a read of `n` bytes. -/
def read (P : ReadingHalf σ) (p : Peer σ) (n : ℕ) : Peer σ :=
  let reader := P.reader.deliver p.reader (p.unread.take n)
  { p with
    reader := reader,
    unread := p.unread.drop n,
    closed := p.closed || P.Closed reader,
    lateRead := p.closed || P.Closed reader }

def readFails (P : ReadingHalf σ) (p : Peer σ) : Peer σ :=
  { p with reader := P.fail p.reader, broken := true, closed := true }

/-- The callback for a message has run.  A write that it has started is late if the
socket is closed. -/
def answered (p : Peer σ) (m : ℤ × Bytes) (sender : SendSession) : Peer σ :=
  { p with
    sender := sender,
    handled := p.handled ++ [m],
    lateWrite :=
      if p.sender.sendQue.outstanding = [] then p.closed else p.lateWrite }

def handleWrite (p : Peer σ) (node : SendNode) : Peer σ :=
  { p with sender := p.sender.handleWrite node, lateWrite := p.closed }

/-- `HandleWrite` with an error: nothing is popped, and the session is closed. -/
def handleWriteFails (p : Peer σ) (node : SendNode) : Peer σ :=
  { p with
    sender := { p.sender with sendQue := p.sender.sendQue.abort node },
    broken := true, closed := true }

/-- A read of `n` bytes is outstanding and can be completed. -/
structure Reads (P : ReadingHalf σ) (p : Peer σ) (n : ℕ) : Prop where
  request : P.reader.request p.reader = some n
  arrived : n ≤ p.unread.length
  timely : p.lateRead = false
  defined : P.Defined (p.read P n).reader

end Peer

/-- What happens to a session without the logic system.  Nothing arrives at a
closed socket. -/
inductive SocketStep (P : ReadingHalf σ) : Peer σ → Peer σ → Prop
  | arrive {p : Peer σ} (bytes : Bytes) (hopen : p.closed = false) :
      SocketStep P p (p.arrive bytes)
  | read {p : Peer σ} {n : ℕ} (h : p.Reads P n)
      (hposted : P.posted (p.read P n).reader = P.posted p.reader) :
      SocketStep P p (p.read P n)
  | readFails {p : Peer σ} (h : P.reader.request p.reader ≠ none) :
      SocketStep P p (p.readFails P)
  | handleWrite {p : Peer σ} {node : SendNode}
      (h : node ∈ p.sender.sendQue.outstanding) (htimely : p.lateWrite = false) :
      SocketStep P p (p.handleWrite node)
  | handleWriteFails {p : Peer σ} {node : SendNode}
      (h : node ∈ p.sender.sendQue.outstanding) :
      SocketStep P p (p.handleWriteFails node)

/-- A session alone: of the logic system it is left that some message that has
been posted and not been handled, and before which all have been, is handled. -/
inductive PeerStep (P : ReadingHalf σ) (j : JsonCpp ν) : Peer σ → Peer σ → Prop
  | socket {p q : Peer σ} (h : SocketStep P p q) : PeerStep P j p q
  | post {p : Peer σ} {n : ℕ} {m : ℤ × Bytes} (h : p.Reads P n)
      (hposted : P.posted (p.read P n).reader = P.posted p.reader ++ [m]) :
      PeerStep P j p (p.read P n)
  | handle {p : Peer σ} {m : ℤ × Bytes} {sender : SendSession}
      (hnext : p.handled ++ [m] <+: P.posted p.reader)
      (h : handle j p.sender m = .ok sender) :
      PeerStep P j p (p.answered m sender)

def PeerReachable (P : ReadingHalf σ) (j : JsonCpp ν) (p : Peer σ) : Prop :=
  ReflTransGen (PeerStep P j) (.start P) p

/-! ## The server -/

/-- The sessions and the logic system, whose messages are tagged with the session
they came from.  A session that has not been accepted has received nothing. -/
structure Server (ι σ : Type*) where
  peer : ι → Peer σ
  logic : LogicSystem (ι × ℤ × Bytes)

variable [DecidableEq ι]

namespace Server

def start (P : ReadingHalf σ) : Server ι σ := ⟨fun _ => .start P, .start⟩

def setPeer (s : Server ι σ) (i : ι) (p : Peer σ) : Server ι σ :=
  { s with peer := Function.update s.peer i p }

end Server

/-- A step of one of the threads or of the network.  The callback for a message
is run where the worker of the logic system ends it. -/
inductive ServerStep (P : ReadingHalf σ) (j : JsonCpp ν) :
    Server ι σ → Server ι σ → Prop
  | socket {s : Server ι σ} {i : ι} {p : Peer σ}
      (h : SocketStep P (s.peer i) p) : ServerStep P j s (s.setPeer i p)
  | post {s : Server ι σ} {i : ι} {n : ℕ} {m : ℤ × Bytes}
      (h : (s.peer i).Reads P n)
      (hposted : P.posted ((s.peer i).read P n).reader =
        P.posted (s.peer i).reader ++ [m])
      (hlock : s.logic.worker.locks = false) :
      ServerStep P j s
        { s.setPeer i ((s.peer i).read P n) with
          logic := s.logic.postMsgToQue (i, m) }
  | deal {s : Server ι σ} {logic : LogicSystem (ι × ℤ × Bytes)}
      (hhand : s.logic.worker.hand = []) (h : s.logic.dealMsg = some logic) :
      ServerStep P j s { s with logic := logic }
  | handle {s : Server ι σ} {i : ι} {m : ℤ × Bytes} {sender : SendSession}
      {logic : LogicSystem (ι × ℤ × Bytes)}
      (hhand : s.logic.worker.hand = [(i, m)])
      (h : s.logic.dealMsg = some logic)
      (hhandle : handle j (s.peer i).sender m = .ok sender) :
      ServerStep P j s
        { s.setPeer i ((s.peer i).answered m sender) with logic := logic }
  | stop {s : Server ι σ} {a : Action (ι × ℤ × Bytes)}
      {logic : LogicSystem (ι × ℤ × Bytes)}
      (ha : a = .store ∨ a = .notify ∨ a = .join)
      (h : LogicStep s.logic a logic) :
      ServerStep P j s { s with logic := logic }

def ServerReachable (P : ReadingHalf σ) (j : JsonCpp ν) (s : Server ι σ) : Prop :=
  ReflTransGen (ServerStep P j) (.start P) s

/-! ## Every session is as if it were alone -/

section Alone

variable {P : ReadingHalf σ} {j : JsonCpp ν} {s t : Server ι σ}

namespace Server

@[simp] theorem peer_setPeer_self (s : Server ι σ) (i : ι) (p : Peer σ) :
    (s.setPeer i p).peer i = p := by
  simp only [setPeer, Function.update_self]

theorem peer_setPeer_of_ne {i k : ι} (h : i ≠ k) (s : Server ι σ) (p : Peer σ) :
    (s.setPeer k p).peer i = s.peer i := by
  simp only [setPeer, Function.update_of_ne h]

/-- What a new state of a session has in common with the old one is the same
for all sessions. -/
theorem map_peer_setPeer {α : Type*} {f : Peer σ → α} {s : Server ι σ} {k : ι}
    {p : Peer σ} (h : f p = f (s.peer k)) (i : ι) :
    f ((s.setPeer k p).peer i) = f (s.peer i) := by
  by_cases hik : i = k
  · subst hik
    rw [peer_setPeer_self, h]
  · rw [peer_setPeer_of_ne hik]

end Server

omit [DecidableEq ι] in
/-- A step of the worker posts nothing, and ends the callback in its hand. -/
theorem dealMsg_records {s t : LogicSystem (ι × ℤ × Bytes)}
    (h : s.dealMsg = some t) :
    t.posted = s.posted ∧ t.dispatched = s.dispatched ++ s.worker.hand := by
  cases deals_of_dealMsg h with
  | moves hmoves => exact ⟨rfl, by simp only [hmoves.hand, List.append_nil]⟩
  | takes hand hque hstop => exact ⟨rfl, by simp only [hand, List.append_nil]⟩
  | dispatches hw => exact ⟨rfl, by simp only [hw, Worker.hand]⟩

omit [DecidableEq ι] in
theorem stop_records {s t : LogicSystem (ι × ℤ × Bytes)}
    {a : Action (ι × ℤ × Bytes)} (ha : a = .store ∨ a = .notify ∨ a = .join)
    (h : LogicStep s a t) :
    t.posted = s.posted ∧ t.dispatched = s.dispatched := by
  cases h with
  | post msg h => rcases ha with ha | ha | ha <;> cases ha
  | deal h => rcases ha with ha | ha | ha <;> cases ha
  | store h | notify h | join h hw => exact ⟨rfl, rfl⟩

theorem ServerStep.logicStep (h : ServerStep P j s t) :
    t.logic = s.logic ∨ ∃ a, LogicStep s.logic a t.logic := by
  cases h with
  | socket h => exact .inl rfl
  | post h hposted hlock => exact .inr ⟨_, .post _ hlock⟩
  | deal hhand h => exact .inr ⟨_, .deal h⟩
  | handle hhand h hhandle => exact .inr ⟨_, .deal h⟩
  | stop ha h => exact .inr ⟨_, h⟩

/-- The messages of a session in the logic system: its lane of what has been
posted are those that it has read, and its lane of what has been dispatched those
that have been handled. -/
structure Routed (P : ReadingHalf σ) (s : Server ι σ) (i : ι) : Prop where
  posted : lane i s.logic.posted = P.posted (s.peer i).reader
  handled : lane i s.logic.dispatched = (s.peer i).handled

theorem SocketStep.records {p q : Peer σ} (h : SocketStep P p q) :
    P.posted q.reader = P.posted p.reader ∧ q.handled = p.handled := by
  cases h with
  | arrive bytes | handleWrite h | handleWriteFails h => exact ⟨rfl, rfl⟩
  | read h hposted => exact ⟨hposted, rfl⟩
  | readFails h => exact ⟨P.posted_fail _, rfl⟩

theorem Routed.step {i : ι} (hs : Routed P s i) (h : ServerStep P j s t) :
    Routed P t i := by
  cases h with
  | @socket k p h =>
      obtain ⟨hposted, hhandled⟩ := h.records
      by_cases hik : i = k
      · subst hik
        constructor
        · rw [Server.peer_setPeer_self, hposted]
          exact hs.posted
        · rw [Server.peer_setPeer_self, hhandled]
          exact hs.handled
      · constructor
        · rw [Server.peer_setPeer_of_ne hik]
          exact hs.posted
        · rw [Server.peer_setPeer_of_ne hik]
          exact hs.handled
  | @post k n m h hposted hlock =>
      by_cases hik : i = k
      · subst hik
        constructor
        · simp only [LogicSystem.postMsgToQue, lane_append, hs.posted,
            lane_singleton_self, Server.peer_setPeer_self, hposted]
        · simp only [Server.peer_setPeer_self]
          exact hs.handled
      · constructor
        · simp only [LogicSystem.postMsgToQue, lane_append, hs.posted,
            lane_singleton_of_ne (Ne.symm hik), List.append_nil,
            Server.peer_setPeer_of_ne hik]
        · simp only [Server.peer_setPeer_of_ne hik]
          exact hs.handled
  | deal hhand h =>
      obtain ⟨hposted, hdispatched⟩ := dealMsg_records h
      rw [hhand, List.append_nil] at hdispatched
      exact ⟨by simp only [hposted, hs.posted],
        by simp only [hdispatched, hs.handled]⟩
  | @handle k m sender logic hhand h hhandle =>
      obtain ⟨hposted, hdispatched⟩ := dealMsg_records h
      rw [hhand] at hdispatched
      by_cases hik : i = k
      · subst hik
        constructor
        · simp only [hposted, hs.posted, Server.peer_setPeer_self, Peer.answered]
        · simp only [hdispatched, lane_append, lane_singleton_self, hs.handled,
            Server.peer_setPeer_self, Peer.answered]
      · constructor
        · simp only [hposted, hs.posted, Server.peer_setPeer_of_ne hik]
        · simp only [hdispatched, lane_append,
            lane_singleton_of_ne (Ne.symm hik), List.append_nil, hs.handled,
            Server.peer_setPeer_of_ne hik]
  | stop ha h =>
      obtain ⟨hposted, hdispatched⟩ := stop_records ha h
      exact ⟨by simp only [hposted, hs.posted],
        by simp only [hdispatched, hs.handled]⟩

theorem routed_start (P : ReadingHalf σ) (i : ι) :
    Routed P (Server.start P) i :=
  ⟨P.posted_start.symm, rfl⟩

/-- The message in the worker's hand is the next one of its session. -/
theorem Routed.handled_append_hand {i : ι} {m : ℤ × Bytes} (hs : Routed P s i)
    (hlogic : LogicInvariant s.logic) (hhand : s.logic.worker.hand = [(i, m)]) :
    (s.peer i).handled ++ [m] <+: P.posted (s.peer i).reader := by
  have horder := congrArg (lane i) hlogic.order
  rw [hhand, lane_append, lane_append, lane_singleton_self, hs.handled,
    hs.posted] at horder
  exact ⟨_, horder⟩

/-- A step of the server is, for one session, a step of that session or
nothing. -/
theorem ServerStep.peerStep {i : ι} (h : ServerStep P j s t)
    (hlogic : LogicInvariant s.logic) (hs : Routed P s i) :
    t.peer i = s.peer i ∨ PeerStep P j (s.peer i) (t.peer i) := by
  cases h with
  | @socket k p h =>
      by_cases hik : i = k
      · subst hik
        rw [Server.peer_setPeer_self]
        exact .inr (.socket h)
      · exact .inl (Server.peer_setPeer_of_ne hik s p)
  | @post k n m h hposted hlock =>
      by_cases hik : i = k
      · subst hik
        right
        simp only [Server.peer_setPeer_self]
        exact .post h hposted
      · exact .inl (Server.peer_setPeer_of_ne hik s _)
  | deal hhand h => exact .inl rfl
  | @handle k m sender logic hhand h hhandle =>
      by_cases hik : i = k
      · subst hik
        right
        simp only [Server.peer_setPeer_self]
        exact .handle (hs.handled_append_hand hlogic hhand) hhandle
      · exact .inl (Server.peer_setPeer_of_ne hik s _)
  | stop ha h => exact .inl rfl

namespace ServerReachable

theorem logicReachable (h : ServerReachable P j s) : LogicReachable s.logic := by
  induction h with
  | refl => exact .refl
  | tail _ hstep ih =>
      rcases hstep.logicStep with hsame | hlogic
      · rw [hsame]
        exact ih
      · exact ih.tail hlogic

theorem routed (h : ServerReachable P j s) (i : ι) : Routed P s i := by
  apply invariant_of_run h (routed_start P i)
  intro s t hs hstep
  exact hs.step hstep

/-- Whatever the other sessions, the threads and the worker do, a session does
only what it could do alone. -/
theorem peer_alone (h : ServerReachable P j s) (i : ι) :
    PeerReachable P j (s.peer i) := by
  induction h with
  | refl => exact .refl
  | tail hrun hstep ih =>
      have hlogic := (logicReachable hrun).invariant
      rcases hstep.peerStep hlogic (routed hrun i) with hsame | hpeer
      · rw [hsame]
        exact ih
      · exact ih.tail hpeer

end ServerReachable

/-! ### A session alone is a server with one session -/

/-- A server in which only the session `i` has been active, with the worker at the
head of its loop. -/
structure Single (P : ReadingHalf σ) (j : JsonCpp ν) (i : ι) (s : Server ι σ) :
    Prop where
  reachable : ServerReachable P j s
  worker : s.logic.worker = .entering
  running : s.logic.bStop = false
  tags : ∀ e ∈ s.logic.msgQue, e.1 = i

omit [DecidableEq ι] in
/-- The worker takes the front of the queue and comes to its callback. -/
theorem deals_to_callback {s : LogicSystem (ι × ℤ × Bytes)}
    (hw : s.worker = .entering) (hstop : s.bStop = false)
    {msg : ι × ℤ × Bytes} {rest : List (ι × ℤ × Bytes)}
    (hque : s.msgQue = msg :: rest) :
    s.dealMsg = some { s with worker := .checking } ∧
      { s with worker := .checking }.dealMsg =
        some { s with worker := .testing } ∧
      { s with worker := .testing }.dealMsg =
        some { s with msgQue := rest, worker := .running false msg } ∧
      { s with msgQue := rest, worker := .running false msg }.dealMsg =
        some { s with
          msgQue := rest, worker := .entering,
          dispatched := s.dispatched ++ [msg] } := by
  refine ⟨?_, ?_, ?_, ?_⟩
  · simp only [LogicSystem.dealMsg, hw]
  · simp [LogicSystem.dealMsg, hque]
  · simp [LogicSystem.dealMsg, LogicSystem.popFront, hque, hstop]
  · simp [LogicSystem.dealMsg]

namespace Single

variable {i : ι}

theorem socket {p : Peer σ} (hs : Single P j i s)
    (h : SocketStep P (s.peer i) p) : Single P j i (s.setPeer i p) :=
  ⟨hs.reachable.tail (.socket h), hs.worker, hs.running, hs.tags⟩

theorem post {n : ℕ} {m : ℤ × Bytes} (hs : Single P j i s)
    (h : (s.peer i).Reads P n)
    (hposted : P.posted ((s.peer i).read P n).reader =
      P.posted (s.peer i).reader ++ [m]) :
    Single P j i { s.setPeer i ((s.peer i).read P n) with
      logic := s.logic.postMsgToQue (i, m) } := by
  have hlock : s.logic.worker.locks = false := by rw [hs.worker, Worker.locks]
  refine ⟨hs.reachable.tail (.post h hposted hlock), ?_, hs.running, ?_⟩
  · simp only [LogicSystem.postMsgToQue, hs.worker, Worker.notifyOne, ite_self]
  · intro e he
    rcases List.mem_append.mp he with he | he
    · exact hs.tags e he
    · rw [List.mem_singleton.mp he]

/-- The front of the queue is the next message of the session. -/
theorem exists_front {m : ℤ × Bytes} (hs : Single P j i s)
    (hnext : (s.peer i).handled ++ [m] <+: P.posted (s.peer i).reader) :
    ∃ rest, s.logic.msgQue = (i, m) :: rest := by
  have horder := congrArg (lane i) hs.reachable.logicReachable.invariant.order
  rw [hs.worker, Worker.hand, List.append_nil, lane_append,
    (hs.reachable.routed i).handled, (hs.reachable.routed i).posted] at horder
  obtain ⟨more, hmore⟩ := hnext
  rw [← hmore, List.append_assoc, List.append_cancel_left_eq] at horder
  cases hque : s.logic.msgQue with
  | nil =>
      rw [hque] at horder
      cases horder
  | cons e rest =>
      obtain ⟨k, e⟩ := e
      obtain rfl : k = i := hs.tags (k, e) (by rw [hque]; simp)
      rw [hque, ← List.singleton_append, lane_append, lane_singleton_self,
        List.singleton_append, List.singleton_append, List.cons.injEq] at horder
      exact ⟨rest, by rw [horder.1]⟩

theorem handle {m : ℤ × Bytes} {sender : SendSession} (hs : Single P j i s)
    (hnext : (s.peer i).handled ++ [m] <+: P.posted (s.peer i).reader)
    (h : handle j (s.peer i).sender m = .ok sender) :
    ∃ t, Single P j i t ∧ t.peer i = (s.peer i).answered m sender := by
  obtain ⟨rest, hque⟩ := hs.exists_front hnext
  obtain ⟨h1, h2, h3, h4⟩ := deals_to_callback hs.worker hs.running hque
  have hrun := ((hs.reachable.tail
    (.deal (by rw [hs.worker, Worker.hand]) h1)).tail
      (.deal (by rfl) h2)).tail (.deal (by rfl) h3)
  refine ⟨_, ⟨hrun.tail (.handle (by rfl) h4 h), rfl, hs.running, ?_⟩, ?_⟩
  · intro e he
    exact hs.tags e (by rw [hque]; exact List.mem_cons_of_mem _ he)
  · simp only [Server.peer_setPeer_self]

end Single

theorem PeerReachable.exists_single {p : Peer σ} (h : PeerReachable P j p)
    (i : ι) : ∃ s, Single P j i s ∧ s.peer i = p := by
  induction h with
  | refl => exact ⟨.start P, ⟨.refl, rfl, rfl, by simp [Server.start,
      LogicSystem.start]⟩, rfl⟩
  | tail _ hstep ih =>
      obtain ⟨s, hs, rfl⟩ := ih
      cases hstep with
      | socket h => exact ⟨_, hs.socket h, Server.peer_setPeer_self _ _ _⟩
      | post h hposted =>
          refine ⟨_, hs.post h hposted, ?_⟩
          simp only [Server.peer_setPeer_self]
      | handle hnext h => exact hs.handle hnext h

/-- The states in which a session of a server can be, among any number of others
and under any interleaving, are those in which it can be alone. -/
theorem exists_serverReachable_iff (i : ι) (p : Peer σ) :
    (∃ s : Server ι σ, ServerReachable P j s ∧ s.peer i = p) ↔
      PeerReachable P j p := by
  constructor
  · rintro ⟨s, hs, rfl⟩
    exact hs.peer_alone i
  · intro hp
    obtain ⟨s, hs, hpeer⟩ := hp.exists_single i
    exact ⟨s, hs.reachable, hpeer⟩

end Alone

/-! ## Reading with handlers -/

theorem ReadSession.posted_checkHead (s : ReadSession) (bytes : Bytes) :
    (s.checkHead bytes).posted = s.posted := by
  rw [checkHead]
  split_ifs
  · rfl
  · rfl
  · rfl
  · rw [readBody.eq_def]
    split <;> rfl

theorem ReadSession.posted_complete (s : ReadSession) (bytes : Bytes) :
    (s.complete (.transferred bytes)).posted = s.posted ∨
      ∃ m, (s.complete (.transferred bytes)).posted = s.posted ++ [m] := by
  cases hs : s.reading with
  | head =>
      simp only [complete, hs, handleReadHead]
      exact .inl (posted_checkHead _ bytes)
  | body node =>
      simp only [complete, hs, handleReadBody]
      split
      · exact .inl rfl
      · exact .inr ⟨_, rfl⟩
  | abandoned | closed => simp [complete, hs]

/-- The sessions of the server with an `io_context` pool. -/
def handlers : ReadingHalf ReadSession where
  reader := callbackReader
  start := .start
  posted := ReadSession.posted
  fail := fun s => s.complete .failed
  Defined := fun _ => True
  Closed := fun s => decide (s.reading = .closed)
  posted_start := rfl
  posted_deliver := ReadSession.posted_complete
  posted_fail := by
    intro s
    rw [ReadSession.complete]
    split <;> rfl
  request_fail := by
    intro s
    cases hs : s.reading <;>
      simp [callbackReader, ReadSession.complete, ReadSession.request, hs,
        ReadSession.handleReadHead, ReadSession.handleReadBody,
        ReadSession.close]
  request_of_not_defined := fun _ h => absurd trivial h
  request_of_closed := by
    intro s hs
    have hreading : s.reading = .closed := of_decide_eq_true hs
    simp only [callbackReader, ReadSession.request, hreading]

theorem messages_handlers {ms : List (ℤ × Bytes)} (h : ∀ m ∈ ms, Sendable m) :
    handlers.messages (ms.flatMap encode) = ms := by
  simp only [ReadingHalf.messages, handlers, read_encoded h]

end BackendLab.ServicePool
