import BackendLab.ServicePool.Pipeline

/-!
# What a client is sent for what it has sent

The bytes that a session writes are determined by the bytes that have arrived
there: they are the frames of the replies to the messages that its client has
sent, in their order, up to what is still on its way.  A reply is missing only if
the send queue was full when it came up.
-/

namespace BackendLab.ServicePool

open Support Relation

variable {ι σ : Type*} {ν : Type} {P : ReadingHalf σ} {j : JsonCpp ν}

/-! ## Handling a message -/

@[simp] theorem replies_append (j : JsonCpp ν) (xs ys : List (ℤ × Bytes)) :
    replies j (xs ++ ys) = replies j xs ++ replies j ys := by
  rw [replies, List.filterMap_append, List.filter_append]
  rfl

/-- The handling of a message leaves the session as it is, since the message has
no reply or the queue is full, or it puts the reply into the queue. -/
theorem handle_cases {s t : SendSession} {m : ℤ × Bytes}
    (h : handle j s m = .ok t) :
    (t = s ∧ (replies j [m] = [] ∨ maxSendQue < s.sendQue.queue.length)) ∨
      ∃ call node, replies j [m] = [call] ∧ call.makeNode = .ok node ∧
        t = ⟨s.sendQue.push node, s.accepted ++ [call]⟩ := by
  rw [handle] at h
  cases hanswer : answer j m with
  | none =>
      simp only [hanswer] at h
      exact .inl ⟨(Except.ok.inj h).symm, .inl (by simp [replies, hanswer])⟩
  | some call =>
      simp only [hanswer] at h
      by_cases hfull : maxSendQue < s.sendQue.queue.length
      · rw [SendSession.send, if_pos hfull] at h
        exact .inl ⟨(Except.ok.inj h).symm, .inr hfull⟩
      · rw [SendSession.send, if_neg hfull] at h
        cases hnode : call.makeNode with
        | ok node =>
            rw [hnode] at h
            refine .inr ⟨call, node, ?_, hnode, (Except.ok.inj h).symm⟩
            simp [replies, hanswer, hnode, Except.isOk, Except.toBool]
        | error e =>
            rw [hnode] at h
            cases e with
            | outOfBounds => cases h
            | badArrayNewLength =>
                refine .inl ⟨(Except.ok.inj h).symm, .inl ?_⟩
                simp [replies, hanswer, hnode, Except.isOk, Except.toBool]

/-- The nodes of some calls hold their encodings. -/
theorem flatMap_bytes_eq {calls : List SendCall} {nodes : List SendNode}
    (h : calls.map SendCall.makeNode = nodes.map .ok) :
    nodes.flatMap SendNode.bytes = calls.flatMap SendCall.encoding := by
  have hbytes := congrArg (List.flatMap sentBytes) h
  rw [List.flatMap_map, List.flatMap_map] at hbytes
  exact hbytes.symm

/-! ## A session alone -/

/-- What holds of a session in every state. -/
structure PeerInvariant (P : ReadingHalf σ) (j : JsonCpp ν) (p : Peer σ) : Prop where
  /-- The reader has come as far as what has arrived lets it, unless a read has
  failed. -/
  follows : ∃ reader, P.reader.Follows P.start p.arrived reader p.unread ∧
    P.posted reader = P.posted p.reader ∧
    (reader = p.reader ∨ P.reader.request p.reader = none ∧ p.broken = true)
  front : p.sender.sendQue.FrontOnly
  orderly : p.broken = false → p.sender.sendQue.Orderly
  nodes : p.sender.accepted.map SendCall.makeNode =
    p.sender.sendQue.content.map .ok
  handled : p.handled <+: P.posted p.reader
  accepted : p.sender.accepted.Sublist (replies j p.handled)
  whole : (replies j p.handled).length ≤ maxSendQue + 1 →
    p.sender.accepted = replies j p.handled
  /-- A session is closed because something has failed or by what it has read. -/
  closed : p.closed = true → p.broken = true ∨ P.Closed p.reader = true
  late : p.closed = false → p.lateRead = false ∧ p.lateWrite = false

theorem peerInvariant_start (P : ReadingHalf σ) (j : JsonCpp ν) :
    PeerInvariant P j (.start P) where
  follows := ⟨P.start, Reader.follows_start P.start, rfl, .inl rfl⟩
  front := .inl WriteQueue.orderly_empty
  orderly := fun _ => WriteQueue.orderly_empty
  nodes := rfl
  handled := List.nil_prefix
  accepted := List.nil_sublist _
  whole := fun _ => rfl
  closed := fun h => Bool.noConfusion h
  late := fun _ => ⟨rfl, rfl⟩

namespace PeerInvariant

variable {p : Peer σ}

/-- As many entries have been accepted as have been put into the queue. -/
theorem length_queue_le (hp : PeerInvariant P j p) :
    p.sender.sendQue.queue.length ≤ p.sender.accepted.length := by
  have hlen := congrArg List.length hp.nodes
  simp only [List.length_map, WriteQueue.content, List.length_append] at hlen
  omega

theorem read (hp : PeerInvariant P j p) {n : ℕ} (h : p.Reads P n) :
    PeerInvariant P j (p.read P n) := by
  obtain ⟨reader, hfollows, hposted, hreader⟩ := hp.follows
  have hsame : reader = p.reader := by
    rcases hreader with hsame | ⟨hnone, -⟩
    · exact hsame
    · rw [h.request] at hnone
      cases hnone
  subst hsame
  refine ⟨⟨_, hfollows.deliver h.request h.arrived, rfl, .inl rfl⟩, hp.front,
    hp.orderly, hp.nodes, ?_, hp.accepted, hp.whole, ?_, ?_⟩
  · rcases P.posted_deliver p.reader (p.unread.take n) with hsame | ⟨m, hmore⟩
    · simp only [Peer.read, hsame]
      exact hp.handled
    · simp only [Peer.read, hmore]
      exact hp.handled.trans (List.prefix_append _ _)
  · intro hclosed
    rcases Bool.or_eq_true_iff.mp hclosed with hbefore | hnow
    · -- What has closed the session before was no read, since one was outstanding.
      refine .inl ((hp.closed hbefore).resolve_right ?_)
      intro hended
      have hnone := P.request_of_closed _ hended
      rw [h.request] at hnone
      cases hnone
    · exact .inr hnow
  · intro hopen
    exact ⟨hopen, (hp.late (Bool.or_eq_false_iff.mp hopen).1).2⟩

theorem socket {q : Peer σ} (hp : PeerInvariant P j p) (h : SocketStep P p q) :
    PeerInvariant P j q := by
  obtain ⟨reader, hfollows, hposted, hreader⟩ := hp.follows
  cases h with
  | arrive bytes hopen =>
      exact ⟨⟨reader, hfollows.arrive bytes, hposted, hreader⟩, hp.front,
        hp.orderly, hp.nodes, hp.handled, hp.accepted, hp.whole, hp.closed, hp.late⟩
  | read h hsame => exact hp.read h
  | readFails h =>
      have hfail := P.posted_fail p.reader
      refine ⟨⟨reader, hfollows, ?_, .inr ⟨P.request_fail _, rfl⟩⟩, hp.front,
        by simp [Peer.readFails], hp.nodes, ?_, hp.accepted, hp.whole,
        fun _ => .inl rfl, by simp [Peer.readFails]⟩
      · rw [hposted]
        exact hfail.symm
      · simp only [Peer.readFails, hfail]
        exact hp.handled
  | handleWrite h htimely =>
      have horderly := hp.front.orderly h
      refine ⟨⟨reader, hfollows, hposted, hreader⟩, hp.front.complete h,
        fun _ => horderly.complete h, ?_, hp.handled, hp.accepted, hp.whole,
        hp.closed, fun hopen => ⟨(hp.late hopen).1, hopen⟩⟩
      simp only [Peer.handleWrite, SendSession.handleWrite,
        horderly.content_complete h]
      exact hp.nodes
  | handleWriteFails h =>
      refine ⟨⟨reader, hfollows, hposted, ?_⟩, .inr (hp.front.abort h),
        by simp [Peer.handleWriteFails], hp.nodes, hp.handled, hp.accepted,
        hp.whole, fun _ => .inl rfl, by simp [Peer.handleWriteFails]⟩
      exact hreader.imp_right fun hnone => ⟨hnone.1, rfl⟩

theorem handle {m : ℤ × Bytes} {sender : SendSession}
    (hp : PeerInvariant P j p) (hnext : p.handled ++ [m] <+: P.posted p.reader)
    (h : handle j p.sender m = .ok sender) :
    PeerInvariant P j (p.answered m sender) := by
  have hlength := hp.length_queue_le
  have hlate : p.closed = false →
      p.lateRead = false ∧ (p.answered m sender).lateWrite = false := by
    intro hopen
    obtain ⟨hread, hwrite⟩ := hp.late hopen
    refine ⟨hread, ?_⟩
    rw [Peer.answered, hopen, hwrite, ite_self]
  rcases handle_cases h with ⟨rfl, hnone⟩ | ⟨call, node, hcall, hnode, rfl⟩
  · refine ⟨hp.follows, hp.front, hp.orderly, hp.nodes, hnext, ?_, ?_, hp.closed,
      hlate⟩
    · simp only [Peer.answered, replies_append]
      exact hp.accepted.trans (List.sublist_append_left _ _)
    · intro hshort
      simp only [Peer.answered, replies_append, List.length_append] at hshort ⊢
      have hwhole := hp.whole (by omega)
      rcases hnone with hnil | hfull
      · rw [hnil, List.append_nil]
        exact hwhole
      -- A full queue comes from more replies than were admitted.
      · rw [hwhole] at hlength
        have hlast : (replies j [m]).length = 0 := by omega
        rw [List.eq_nil_of_length_eq_zero hlast, List.append_nil]
        exact hwhole
  · refine ⟨hp.follows, hp.front.push node, fun hb => (hp.orderly hb).push node,
      ?_, hnext, ?_, ?_, hp.closed, hlate⟩
    · simp only [Peer.answered, WriteQueue.content_push, List.map_append,
        hp.nodes, List.map_singleton, hnode]
    · simp only [Peer.answered, replies_append, hcall]
      exact hp.accepted.append (List.Sublist.refl _)
    · intro hshort
      simp only [Peer.answered, replies_append, hcall, List.length_append,
        List.length_singleton] at hshort ⊢
      rw [hp.whole (by omega)]

theorem step {q : Peer σ} (hp : PeerInvariant P j p) (h : PeerStep P j p q) :
    PeerInvariant P j q := by
  cases h with
  | socket h => exact hp.socket h
  | post h hposted => exact hp.read h
  | handle hnext h => exact hp.handle hnext h

end PeerInvariant

theorem PeerReachable.invariant {p : Peer σ} (h : PeerReachable P j p) :
    PeerInvariant P j p := by
  apply invariant_of_run h (peerInvariant_start P j)
  intro p q hp hstep
  exact hp.step hstep

/-- Reading on only adds messages. -/
theorem ReadingHalf.posted_prefix_read (P : ReadingHalf σ) (s : σ)
    (bs : Bytes) : P.posted s <+: P.posted (P.reader.read s bs).1 := by
  refine Reader.read_invariant (fun t => P.posted s <+: P.posted t) ?_
    List.prefix_rfl bs
  intro t n bs ht _ _
  rcases P.posted_deliver t bs with hsame | ⟨m, hmore⟩
  · rw [hsame]
    exact ht
  · rw [hmore]
    exact ht.trans (List.prefix_append _ _)

/-- A longer stream has the messages of a shorter one. -/
theorem ReadingHalf.messages_isPrefix (P : ReadingHalf σ) {xs ys : Bytes}
    (h : xs <+: ys) : P.messages xs <+: P.messages ys := by
  obtain ⟨more, rfl⟩ := h
  rw [messages, messages, Reader.follows_read P.start xs more]
  exact P.posted_prefix_read _ _

namespace PeerInvariant

variable {p : Peer σ}

theorem posted_isPrefix (hp : PeerInvariant P j p) :
    P.posted p.reader <+: P.messages p.arrived := by
  obtain ⟨reader, hfollows, hposted, -⟩ := hp.follows
  rw [ReadingHalf.messages, hfollows.read_eq, ← hposted]
  exact P.posted_prefix_read reader p.unread

theorem follows_of_whole (hp : PeerInvariant P j p) (hbroken : p.broken = false) :
    P.reader.Follows P.start p.arrived p.reader p.unread := by
  obtain ⟨reader, hfollows, -, hreader⟩ := hp.follows
  rw [hbroken] at hreader
  have hsame : reader = p.reader := hreader.resolve_right (by simp)
  rwa [← hsame]

/-- A session that waits for bytes that have not arrived has read all the
messages. -/
theorem posted_of_waiting (hp : PeerInvariant P j p) (hbroken : p.broken = false)
    (hwait : ∀ n, P.reader.request p.reader = some n → p.unread.length < n) :
    P.posted p.reader = P.messages p.arrived := by
  have hfollows := hp.follows_of_whole hbroken
  rw [ReadingHalf.messages, hfollows.read_of_waiting hwait]

/-- The session is open if nothing has failed and reading a stream, of which the
first part has arrived, does not come to a call of `Close`. -/
theorem closed_eq_false (hp : PeerInvariant P j p) (hbroken : p.broken = false)
    {stream : Bytes} (harrived : p.arrived <+: stream)
    (hopen : P.Closed (P.reader.read P.start stream).1 = false) :
    p.closed = false := by
  by_contra hne
  rw [Bool.not_eq_false] at hne
  have hclosed : P.Closed p.reader = true :=
    (hp.closed hne).resolve_left (by simp [hbroken])
  obtain ⟨more, rfl⟩ := harrived
  rw [((hp.follows_of_whole hbroken).arrive more).read_eq,
    Reader.read_of_ended (P.request_of_closed _ hclosed)] at hopen
  simp only [hclosed, Bool.true_eq_false] at hopen

theorem bytes_content (hp : PeerInvariant P j p) :
    p.sender.sendQue.content.flatMap SendNode.bytes =
      p.sender.accepted.flatMap SendCall.encoding :=
  flatMap_bytes_eq hp.nodes

end PeerInvariant

/-! ## The server -/

/-- The bytes that the session has written. -/
def Peer.written (p : Peer σ) : Bytes :=
  p.sender.sendQue.completed.flatMap SendNode.bytes

theorem PeerInvariant.written_isPrefix {p : Peer σ} (hp : PeerInvariant P j p) :
    p.written <+: p.sender.accepted.flatMap SendCall.encoding := by
  rw [← hp.bytes_content, WriteQueue.content, List.flatMap_append]
  exact List.prefix_append _ _

/-- While the queue is not full, every reply is accepted. -/
theorem PeerStep.accepted_eq {p q : Peer σ} (h : PeerStep P j p q)
    (hp : p.sender.accepted = replies j p.handled)
    (hshort : ∀ m, p.handled ++ [m] <+: P.posted p.reader →
      p.sender.sendQue.queue.length ≤ maxSendQue) :
    q.sender.accepted = replies j q.handled := by
  cases h with
  | socket h => cases h <;> exact hp
  | post h hposted => exact hp
  | @handle m sender hnext h =>
      have hroom := hshort m hnext
      rw [Peer.answered, replies_append]
      rcases handle_cases h with ⟨rfl, hnone | hfull⟩ | ⟨call, node, hcall, -, rfl⟩
      · rw [hnone, List.append_nil]
        exact hp
      · omega
      · rw [hcall, ← hp]

variable [DecidableEq ι]

/-- A step from a state in which the send queue of the session `i` is not full. -/
def RoomyStep (P : ReadingHalf σ) (j : JsonCpp ν) (i : ι) (s t : Server ι σ) : Prop :=
  ServerStep P j s t ∧ (s.peer i).sender.sendQue.queue.length ≤ maxSendQue

theorem reachable_of_roomy {s : Server ι σ} {i : ι}
    (h : ReflTransGen (RoomyStep P j i) (.start P) s) : ServerReachable P j s := by
  refine ReflTransGen.mono ?_ _ _ h
  rintro s t ⟨hstep, -⟩
  exact hstep

/-- If the queue has never been full, all replies have been accepted. -/
theorem accepted_eq_of_roomy {s : Server ι σ} {i : ι}
    (h : ReflTransGen (RoomyStep P j i) (.start P) s) :
    (s.peer i).sender.accepted = replies j (s.peer i).handled := by
  induction h with
  | refl => rfl
  | tail hrun hstep ih =>
      obtain ⟨hstep, hroom⟩ := hstep
      have hreach := reachable_of_roomy hrun
      rcases hstep.peerStep hreach.logicReachable.invariant (hreach.routed i) with
        hsame | hpeer
      · rw [hsame]
        exact ih
      · exact hpeer.accepted_eq ih fun _ _ => hroom

end BackendLab.ServicePool
