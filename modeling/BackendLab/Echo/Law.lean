import BackendLab.Echo.Session
import BackendLab.Support.Runs

/-!
# What is echoed

The completions of reads and of writes come in any order.  What has been written,
followed by what is queued, is the part of the input that consists of the complete
frames read so far.
-/

namespace BackendLab.Echo

open Support Relation

/-- A session and the input that no read has been given. -/
structure Connection where
  session : Session
  unread : Bytes
  deriving DecidableEq, Repr

/-- A completion: of the outstanding read, with the bytes it has asked for or with
an error, or of a write, without an error. -/
inductive Step : Connection → Connection → Prop
  | read {c : Connection} {n : ℕ} (h : c.session.request = some n)
      (hn : n ≤ c.unread.length) :
      Step c ⟨c.session.complete (.transferred (c.unread.take n)),
        c.unread.drop n⟩
  | readFails {c : Connection} {n : ℕ} (h : c.session.request = some n) :
      Step c ⟨c.session.complete .failed, c.unread⟩
  | write {c : Connection} {node : MsgNode}
      (h : node ∈ c.session.sendQue.outstanding) :
      Step c ⟨c.session.handleWrite node, c.unread⟩

/-- The connection is reached by completions in some order, the send queue never
having more than `MAX_SENDQUEUE_SIZE` entries. -/
def Reachable (input : Bytes) (c : Connection) : Prop :=
  ReflTransGen
    (fun c d => Step c d ∧
      d.session.sendQue.queue.length ≤ maxSendQueueSize)
    ⟨.start, input⟩ c

/-- The input behind the last complete frame that the session has been given.
Only a header that is refused clears the session. -/
inductive Behind : Reading → Bytes → Prop
  | head : Behind .head []
  | body {header : Bytes} {n : ℕ} (hlen : header.length = headSize)
      (h : echoFraming.parse header = some ((), n)) :
      Behind (.body (.forReceiving n)) header
  | cleared {header : Bytes} (hlen : header.length = headSize)
      (h : echoFraming.parse header = none) : Behind .cleared header
  | failedHead : Behind .failed []
  | failedBody {header : Bytes} {n : ℕ} (hlen : header.length = headSize)
      (h : echoFraming.parse header = some ((), n)) : Behind .failed header

theorem Behind.eq_nil {behind : Bytes} (h : Behind .head behind) :
    behind = [] := by
  cases h
  rfl

theorem Behind.parse_eq {behind : Bytes} {node : MsgNode}
    (h : Behind (.body node) behind) :
    ∃ n, node = .forReceiving n ∧ behind.length = headSize ∧
      echoFraming.parse behind = some ((), n) := by
  cases h with
  | body hlen h => exact ⟨_, rfl, hlen, h⟩

theorem Behind.cleared_iff {r : Reading} {behind : Bytes} (h : Behind r behind) :
    r = .cleared ↔
      behind.length = headSize ∧ echoFraming.parse behind = none := by
  cases h with
  | head => simp [headSize]
  | body hlen h => simp [h]
  | cleared hlen h => simp [hlen, h]
  | failedHead => simp [headSize]
  | failedBody hlen h => simp [h]

/-- The session has been given the frames of `ms` and then `behind`. -/
structure Echoes (input : Bytes) (c : Connection) (ms : List (Unit × Bytes))
    (behind : Bytes) : Prop where
  input : input = ms.flatMap echoFraming.frame ++ (behind ++ c.unread)
  valid : ∀ m ∈ ms, echoFraming.Valid m
  behind : Behind c.session.reading behind
  orderly : c.session.sendQue.Orderly
  content : c.session.sendQue.content.flatMap MsgNode.bytes =
    ms.flatMap echoFraming.frame

section Steps

variable {input behind : Bytes} {c : Connection} {ms : List (Unit × Bytes)}

theorem Echoes.readHead (h : Echoes input c ms behind)
    (hs : c.session.reading = .head) (hn : headSize ≤ c.unread.length) :
    Echoes input
      ⟨c.session.handleReadHead (.transferred (c.unread.take headSize)),
        c.unread.drop headSize⟩ ms (c.unread.take headSize) := by
  have hnil : behind = [] := (hs ▸ h.behind).eq_nil
  have hlen : (c.unread.take headSize).length = headSize :=
    List.length_take_of_le hn
  have hinput : input = ms.flatMap echoFraming.frame ++
      (c.unread.take headSize ++ c.unread.drop headSize) := by
    rw [List.take_append_drop, h.input, hnil, List.nil_append]
  cases hparse : echoFraming.parse (c.unread.take headSize) with
  | none =>
      rw [Session.handleReadHead_of_refused hparse]
      exact ⟨hinput, h.valid, .cleared hlen hparse, h.orderly, h.content⟩
  | some am =>
      obtain ⟨⟨⟩, n⟩ := am
      rw [Session.handleReadHead_of_parse hlen hparse]
      exact ⟨hinput, h.valid, .body hlen hparse, h.orderly, h.content⟩

/-- The body of a message is read and queued. -/
theorem Echoes.readBody {node : MsgNode} (h : Echoes input c ms behind)
    (hs : c.session.reading = .body node)
    (hroom : c.session.sendQue.queue.length ≤ maxSendQueueSize)
    (hn : node.totalLen ≤ c.unread.length) :
    Echoes input
      ⟨c.session.handleReadBody node
          (.transferred (c.unread.take node.totalLen)),
        c.unread.drop node.totalLen⟩
      (ms ++ [((), c.unread.take node.totalLen)]) [] := by
  obtain ⟨n, rfl, hhead, hparse⟩ := (hs ▸ h.behind).parse_eq
  have hlen : (c.unread.take n).length = n := List.length_take_of_le hn
  have hle := (parse_echoFraming_eq_some hparse).2.1
  rw [← hlen] at hparse hle
  obtain ⟨hvalid, hframe⟩ := echoFraming.valid_of_parse hhead hparse
  have hread := Session.handleReadBody_eq (s := c.session) hlen
  rw [Session.send_of_room hroom] at hread
  simp only [MsgNode.forReceiving] at hread ⊢
  rw [hread]
  constructor
  · rw [h.input, List.flatMap_append, List.flatMap_singleton, hframe,
      List.append_assoc, List.append_assoc, List.nil_append,
      List.take_append_drop]
  · intro m hm
    rcases List.mem_append.mp hm with hm | hm
    · exact h.valid m hm
    · rw [List.mem_singleton.mp hm]
      exact hvalid
  · exact .head
  · exact h.orderly.push _
  · simp only [WriteQueue.content_push, List.flatMap_append,
      List.flatMap_singleton, h.content, MsgNode.bytes_forSending hle]

theorem Echoes.readFails {n : ℕ} (h : Echoes input c ms behind)
    (hrequest : c.session.request = some n) :
    Echoes input ⟨c.session.complete .failed, c.unread⟩ ms behind := by
  rw [Session.request] at hrequest
  rw [Session.complete]
  cases hs : c.session.reading with
  | head =>
      have hnil : behind = [] := (hs ▸ h.behind).eq_nil
      subst hnil
      exact ⟨h.input, h.valid, .failedHead, h.orderly, h.content⟩
  | body node =>
      obtain ⟨n, -, hlen, hparse⟩ := (hs ▸ h.behind).parse_eq
      exact ⟨h.input, h.valid, .failedBody hlen hparse, h.orderly, h.content⟩
  | cleared => simp [hs] at hrequest
  | failed => simp [hs] at hrequest

theorem Echoes.write {node : MsgNode} (h : Echoes input c ms behind)
    (hnode : node ∈ c.session.sendQue.outstanding) :
    Echoes input ⟨c.session.handleWrite node, c.unread⟩ ms behind where
  input := h.input
  valid := h.valid
  behind := h.behind
  orderly := h.orderly.complete hnode
  content := by
    rw [Session.handleWrite, h.orderly.content_complete hnode, h.content]

theorem Echoes.step {d : Connection} (h : Echoes input c ms behind)
    (hroom : c.session.sendQue.queue.length ≤ maxSendQueueSize)
    (hstep : Step c d) : ∃ ms behind, Echoes input d ms behind := by
  cases hstep with
  | read hrequest hn =>
      rw [Session.request] at hrequest
      cases hs : c.session.reading with
      | head =>
          rw [hs] at hrequest
          cases hrequest
          simp only [Session.complete, hs]
          exact ⟨_, _, h.readHead hs hn⟩
      | body node =>
          rw [hs] at hrequest
          cases hrequest
          simp only [Session.complete, hs]
          exact ⟨_, _, h.readBody hs hroom hn⟩
      | cleared => simp [hs] at hrequest
      | failed => simp [hs] at hrequest
  | readFails hrequest => exact ⟨_, _, h.readFails hrequest⟩
  | write hnode => exact ⟨_, _, h.write hnode⟩

end Steps

theorem Reachable.echoes {input : Bytes} {c : Connection}
    (h : Reachable input c) :
    c.session.sendQue.queue.length ≤ maxSendQueueSize ∧
      ∃ ms behind, Echoes input c ms behind := by
  have hstart : Echoes input ⟨.start, input⟩ [] [] :=
    ⟨rfl, by simp, .head, WriteQueue.orderly_empty, rfl⟩
  refine invariant_of_run
    (I := fun c : Connection =>
      c.session.sendQue.queue.length ≤ maxSendQueueSize ∧
        ∃ ms behind, Echoes input c ms behind)
    h ⟨Nat.zero_le _, [], [], hstart⟩ ?_
  intro c d hc hstep
  obtain ⟨hroom, ms, behind, hechoes⟩ := hc
  exact ⟨hstep.2, hechoes.step hroom hstep.1⟩

/-- In every state of a connection the input that it has been given is a sequence
`ms` of complete frames and what is behind them.  What has been written, followed
by what is queued, are these frames byte for byte.  The session is cleared exactly
when the header behind them is refused; at most one write is outstanding, and a
write that ends finds the queue not empty. -/
theorem Reachable.echo_law {input : Bytes} {c : Connection}
    (h : Reachable input c) :
    (∃ (ms : List (Unit × Bytes)) (behind : Bytes),
      input = ms.flatMap echoFraming.frame ++ (behind ++ c.unread) ∧
        (∀ m ∈ ms, echoFraming.Valid m) ∧
        Behind c.session.reading behind ∧
        c.session.sendQue.completed.flatMap MsgNode.bytes ++
            c.session.sendQue.queue.flatMap MsgNode.bytes =
          ms.flatMap echoFraming.frame ∧
        (c.session.reading = .cleared ↔ behind.length = headSize ∧
          (ofBigEndian behind = 0 ∨ maxLength < ofBigEndian behind))) ∧
      c.session.sendQue.outstanding.length ≤ 1 ∧
      (∀ node ∈ c.session.sendQue.outstanding,
        c.session.sendQue.queue = node :: c.session.sendQue.queue.tail) := by
  obtain ⟨-, ms, behind, hechoes⟩ := h.echoes
  refine ⟨⟨ms, behind, hechoes.input, hechoes.valid, hechoes.behind, ?_, ?_⟩,
    hechoes.orderly.length_outstanding_le_one, ?_⟩
  · rw [← List.flatMap_append]
    exact hechoes.content
  · rw [hechoes.behind.cleared_iff, parse_echoFraming_eq_none_iff]
  · intro node hnode
    exact hechoes.orderly.queue_eq hnode

/-- The text `hi` is read and written back, and an empty message clears the
session. -/
theorem echo_law_hi :
    ∃ c, Reachable [0, 2, 104, 105, 0, 0] c ∧
      c.session.reading = .cleared ∧
      c.session.sendQue.completed.map MsgNode.bytes = [[0, 2, 104, 105]] ∧
      c.session.sendQue.outstanding.length ≤ 1 := by
  let node : MsgNode := ⟨4, 0, [0, 2, 104, 105, 0]⟩
  let s1 : Session := ⟨.body (.forReceiving 2), .empty⟩
  let s2 : Session := ⟨.head, ⟨[node], [node], []⟩⟩
  let s3 : Session := ⟨.head, ⟨[], [], [node]⟩⟩
  let s4 : Session := ⟨.cleared, ⟨[], [], [node]⟩⟩
  have hs1 : Session.start.complete (.transferred [0, 2]) = s1 := by decide
  have hs2 : s1.complete (.transferred [104, 105]) = s2 := by decide
  have hs3 : s2.handleWrite node = s3 := by decide
  have hs4 : s3.complete (.transferred [0, 0]) = s4 := by decide
  have h1 : Step ⟨.start, [0, 2, 104, 105, 0, 0]⟩ ⟨s1, [104, 105, 0, 0]⟩ :=
    hs1 ▸ .read (n := 2) rfl (by decide)
  have h2 : Step ⟨s1, [104, 105, 0, 0]⟩ ⟨s2, [0, 0]⟩ :=
    hs2 ▸ .read (n := 2) rfl (by decide)
  have h3 : Step ⟨s2, [0, 0]⟩ ⟨s3, [0, 0]⟩ :=
    hs3 ▸ .write (List.mem_singleton_self node)
  have h4 : Step ⟨s3, [0, 0]⟩ ⟨s4, []⟩ :=
    hs4 ▸ .read (n := 2) rfl (by decide)
  have hreach : Reachable [0, 2, 104, 105, 0, 0] ⟨s4, []⟩ :=
    (((ReflTransGen.single ⟨h1, by decide⟩).tail ⟨h2, by decide⟩).tail
      ⟨h3, by decide⟩).tail ⟨h4, by decide⟩
  exact ⟨⟨s4, []⟩, hreach, rfl, rfl, hreach.echo_law.2.1⟩

end BackendLab.Echo
