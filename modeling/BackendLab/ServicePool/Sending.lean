import BackendLab.ServicePool.Message
import BackendLab.Support.Runs
import BackendLab.Support.WriteQueue

/-!
# Sending messages

The two overloads of `Session::Send`, and `HandleWrite`, which the completion of
a write calls.  Each of them runs under `_send_lock`, so that a run of a session
is a sequence of whole calls, whatever threads make them.
-/

namespace BackendLab.ServicePool

open Support Relation

/-- `MAX_SENDQUE`. -/
def maxSendQue : ℕ := 1000

/-- A call of one of the overloads of `Send`.  The memory behind `char* msg` is
what can be read there. -/
inductive SendCall where
  | text (msg : Bytes) (msgid : ℤ)
  | buffer (msg : Bytes) (maxLength msgid : ℤ)
  deriving DecidableEq, Repr

/-- The constructor that a call uses.  Lengths and identifiers are converted to
`short`, and `c_str` has a terminator. -/
def SendCall.makeNode : SendCall → Except NodeError SendNode
  | .text msg msgid =>
      SendNode.make (msg ++ [0]) (toInt16 msg.length) (toInt16 msgid)
  | .buffer msg maxLength msgid =>
      SendNode.make msg (toInt16 maxLength) (toInt16 msgid)

/-- The encoding of the message of a call. -/
def SendCall.encoding (call : SendCall) : Bytes :=
  sentBytes call.makeNode

/-- The part of a session that sends: the queue with its writes, and the calls
of `Send` that were accepted. -/
structure SendSession where
  sendQue : WriteQueue SendNode
  accepted : List SendCall
  deriving DecidableEq, Repr

namespace SendSession

def start : SendSession := ⟨.empty, []⟩

/-- `Send`: a call that finds the queue full is dropped. -/
def send (s : SendSession) (call : SendCall) : Except NodeError SendSession :=
  if maxSendQue < s.sendQue.queue.length then .ok s
  else
    call.makeNode.map fun node =>
      ⟨s.sendQue.push node, s.accepted ++ [call]⟩

/-- `HandleWrite` for the write of `node`, without an error. -/
def handleWrite (s : SendSession) (node : SendNode) : SendSession :=
  { s with sendQue := s.sendQue.complete node }

end SendSession

/-- A call of `Send` or a completion.  A constructor that throws leaves the
session as it was; a call whose constructor writes or reads outside its memory
is no step. -/
inductive SendStep : SendSession → SendSession → Prop
  | send {s t : SendSession} (call : SendCall) (h : s.send call = .ok t) :
      SendStep s t
  | sendThrows {s : SendSession} (call : SendCall)
      (h : s.send call = .error .badArrayNewLength) : SendStep s s
  | handleWrite {s : SendSession} {node : SendNode}
      (h : node ∈ s.sendQue.outstanding) : SendStep s (s.handleWrite node)

/-- The session can be reached by calls and completions in any order. -/
def SendReachable (s : SendSession) : Prop :=
  ReflTransGen SendStep SendSession.start s

/-- The front of the queue is what is being written, and what has been put into
the queue are the encodings of the calls accepted. -/
structure SendInvariant (s : SendSession) : Prop where
  orderly : s.sendQue.Orderly
  content : s.sendQue.content.flatMap SendNode.bytes =
    s.accepted.flatMap SendCall.encoding

theorem SendSession.send_cases {s t : SendSession} {call : SendCall}
    (h : s.send call = .ok t) :
    t = s ∨ ∃ node, call.makeNode = .ok node ∧
      t = ⟨s.sendQue.push node, s.accepted ++ [call]⟩ := by
  rw [send] at h
  split at h
  · exact .inl (Except.ok.inj h).symm
  · cases hnode : call.makeNode with
    | error e =>
        rw [hnode] at h
        cases h
    | ok node =>
        rw [hnode] at h
        exact .inr ⟨node, rfl, (Except.ok.inj h).symm⟩

theorem SendInvariant.send {s t : SendSession} {call : SendCall}
    (hs : SendInvariant s) (h : s.send call = .ok t) : SendInvariant t := by
  rcases SendSession.send_cases h with rfl | ⟨node, hnode, rfl⟩
  · exact hs
  · have hencoding : node.bytes = call.encoding := by
      rw [SendCall.encoding, hnode, sentBytes]
    constructor
    · exact hs.orderly.push node
    · simp only [WriteQueue.content_push, List.flatMap_append, hs.content,
        List.flatMap_singleton, hencoding]

theorem SendInvariant.handleWrite {s : SendSession} {node : SendNode}
    (hs : SendInvariant s) (h : node ∈ s.sendQue.outstanding) :
    SendInvariant (s.handleWrite node) := by
  constructor
  · exact hs.orderly.complete h
  · rw [SendSession.handleWrite, hs.orderly.content_complete h, hs.content]

theorem SendInvariant.step {s t : SendSession} (hs : SendInvariant s)
    (h : SendStep s t) : SendInvariant t := by
  cases h with
  | send call h => exact hs.send h
  | sendThrows call h => exact hs
  | handleWrite h => exact hs.handleWrite h

theorem SendReachable.invariant {s : SendSession} (h : SendReachable s) :
    SendInvariant s := by
  apply invariant_of_run h ⟨WriteQueue.orderly_empty, rfl⟩
  intro s t hs hstep
  exact hs.step hstep

/-- In every state that a session reaches, at most one write is outstanding, one
is outstanding exactly if the queue is not empty, and it is the front that is
being written; a completion finds the queue not empty; and what has been written,
followed by what is queued, are the messages accepted, in order. -/
theorem SendReachable.sends_in_order {s : SendSession} (h : SendReachable s) :
    s.sendQue.outstanding.length ≤ 1 ∧
      (s.sendQue.outstanding ≠ [] ↔ s.sendQue.queue ≠ []) ∧
      (∀ node ∈ s.sendQue.outstanding,
        s.sendQue.queue = node :: s.sendQue.queue.tail) ∧
      s.sendQue.completed.flatMap SendNode.bytes ++
          s.sendQue.queue.flatMap SendNode.bytes =
        s.accepted.flatMap SendCall.encoding := by
  have hinv := h.invariant
  refine ⟨hinv.orderly.length_outstanding_le_one,
    hinv.orderly.outstanding_ne_nil_iff, ?_, ?_⟩
  · intro node hnode
    exact hinv.orderly.queue_eq hnode
  · rw [← List.flatMap_append]
    exact hinv.content

/-- The text `hi` is sent and written, and sent again from a buffer. -/
theorem sends_in_order_hi :
    ∃ s, SendReachable s ∧
      s.accepted = [.text [104, 105] 1001, .buffer [104, 105] 2 1001] ∧
      s.sendQue.outstanding.length ≤ 1 ∧
      s.sendQue.completed.flatMap SendNode.bytes ++
          s.sendQue.queue.flatMap SendNode.bytes =
        [3, 233, 0, 2, 104, 105, 3, 233, 0, 2, 104, 105] := by
  let node : SendNode := ⟨⟨6, 0, [3, 233, 0, 2, 104, 105, 0]⟩, 1001⟩
  let text : SendCall := .text [104, 105] 1001
  let buffer : SendCall := .buffer [104, 105] 2 1001
  have htext : text.encoding = [3, 233, 0, 2, 104, 105] := by decide
  have hbuffer : buffer.encoding = [3, 233, 0, 2, 104, 105] := by decide
  have hreach : SendReachable
      ⟨⟨[node], [node], [node]⟩, [text, buffer]⟩ := by
    have h1 : SendStep .start ⟨⟨[node], [node], []⟩, [text]⟩ :=
      .send text (by decide)
    have h2 : SendStep ⟨⟨[node], [node], []⟩, [text]⟩
        (SendSession.handleWrite ⟨⟨[node], [node], []⟩, [text]⟩ node) :=
      .handleWrite (List.mem_singleton_self node)
    have h3 : SendStep ⟨⟨[], [], [node]⟩, [text]⟩
        ⟨⟨[node], [node], [node]⟩, [text, buffer]⟩ :=
      .send buffer (by decide)
    exact ((ReflTransGen.single h1).tail h2).tail h3
  have horder := hreach.sends_in_order
  refine ⟨_, hreach, rfl, horder.1, ?_⟩
  rw [horder.2.2.2]
  simp only [List.flatMap_cons, List.flatMap_nil, htext, hbuffer]
  rfl

end BackendLab.ServicePool
