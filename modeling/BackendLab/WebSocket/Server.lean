import BackendLab.Support.CString
import BackendLab.Support.Sessions
import BackendLab.Support.WriteQueue

/-!
# The WebSocket server

Any number of connections on one `io_context`, which one thread runs, so that every
handler is one step.  A connection is put into the map of `ConnectionMgr` behind
its handshake, and its read handler and the handler of its writes take it out again
after an error.
-/

namespace BackendLab.WebSocket

open Support Relation

/-- A connection behind its handshake: whether a read is outstanding, the option of
the stream, the queue, and the messages that were received and those whose write
was initiated, with their types (`true` is text). -/
structure Peer where
  reading : Bool
  text : Bool
  sendQue : WriteQueue Bytes
  received : List (Bytes × Bool)
  initiated : List (Bytes × Bool)
  deriving DecidableEq, Repr

namespace Peer

/-- `Start` has been called. -/
def start : Peer := ⟨true, true, .empty, [], []⟩

/-- `AsyncSend`: the write of a message that finds the queue empty is initiated. -/
def asyncSend (p : Peer) (msg : Bytes) : Peer :=
  { p with
    sendQue := p.sendQue.push msg
    initiated := p.initiated ++
      if 0 < p.sendQue.queue.length then [] else [(msg, p.text)] }

/-- The read handler, which reads again. -/
def handleRead (p : Peer) (msg : Bytes) (gotText : Bool) : Peer :=
  { p with text := gotText, received := p.received ++ [(msg, gotText)] }.asyncSend msg

def handleReadError (p : Peer) : Peer :=
  { p with reading := false }

/-- The handler of the write of `msg`: the write of the next message is initiated
with the option as it is then. -/
def handleWrite (p : Peer) (msg : Bytes) : Peer :=
  { p with
    sendQue := p.sendQue.complete msg
    initiated := p.initiated ++
      (p.sendQue.queue.tail.take 1).map fun next => (next, p.text) }

/-- After an error nothing is popped. -/
def handleWriteError (p : Peer) (msg : Bytes) : Peer :=
  { p with sendQue := p.sendQue.abort msg }

end Peer

/-- The handlers of a connection, and whether they call `RmvConnection`. -/
inductive Handle : Peer → Bool → Peer → Prop
  | read {p : Peer} {msg : Bytes} {gotText : Bool} (h : p.reading = true) :
      Handle p false (p.handleRead msg gotText)
  | readError {p : Peer} (h : p.reading = true) : Handle p true p.handleReadError
  | write {p : Peer} {msg : Bytes} (h : msg ∈ p.sendQue.outstanding) :
      Handle p false (p.handleWrite msg)
  | writeError {p : Peer} {msg : Bytes} (h : msg ∈ p.sendQue.outstanding) :
      Handle p true (p.handleWriteError msg)

/-- The server: `_map_cons`, and the connections behind their handshakes. -/
abbrev Server (ι : Type*) := Sessions ι Peer

/-- A handshake ends, after which `AddConnection` and `Start` are called, or a
handler of a connection runs.  A handshake that fails leaves no trace. -/
def ServerReachable {ι : Type*} [DecidableEq ι] (s : Server ι) : Prop :=
  Sessions.Reachable Handle (fun _ => .start) s

/-! ## One connection -/

/-- Everything received has been queued, in order.  The writes initiated are those
of the messages up to the one that is being written, or up to the one whose write
has failed. -/
structure Peer.Kept (removed : Bool) (p : Peer) : Prop where
  content : p.sendQue.content = p.received.map Prod.fst
  initiated : p.initiated.map Prod.fst =
    p.sendQue.completed ++ p.sendQue.queue.take 1
  frontOnly : p.sendQue.FrontOnly
  reads : removed = false → p.reading = true ∧ p.sendQue.Orderly
  ended : removed = true → p.reading = false ∨
    p.sendQue.outstanding = [] ∧ p.sendQue.queue ≠ []

namespace Peer.Kept

variable {p : Peer} {b : Bool} {msg : Bytes}

theorem start : Peer.start.Kept false where
  content := rfl
  initiated := rfl
  frontOnly := .inl WriteQueue.orderly_empty
  reads := fun _ => ⟨rfl, WriteQueue.orderly_empty⟩
  ended := fun h => by cases h

theorem handleRead (h : p.Kept b) (hread : p.reading = true) (gotText : Bool) :
    (p.handleRead msg gotText).Kept (b || false) where
  content := by
    simp only [Peer.handleRead, Peer.asyncSend, WriteQueue.content_push,
      List.map_append, h.content, List.map_singleton]
  initiated := by
    by_cases hqueue : p.sendQue.queue = []
    · have hinitiated := h.initiated
      rw [hqueue, List.take_nil, List.append_nil] at hinitiated
      simp [Peer.handleRead, Peer.asyncSend, hqueue, WriteQueue.push_of_nil hqueue,
        hinitiated]
    · have hpos := List.length_pos_of_ne_nil hqueue
      simp only [Peer.handleRead, Peer.asyncSend, if_pos hpos, List.append_nil,
        WriteQueue.push_of_ne_nil hqueue, h.initiated,
        List.take_append_of_le_length hpos]
  frontOnly := h.frontOnly.push msg
  reads := by
    rw [Bool.or_false]
    intro hb
    obtain ⟨-, horderly⟩ := h.reads hb
    exact ⟨hread, horderly.push msg⟩
  ended := by
    rw [Bool.or_false]
    intro hb
    have hnot : ¬ p.reading = false := by simp [hread]
    obtain ⟨hout, hqueue⟩ := (h.ended hb).resolve_left hnot
    right
    simp only [Peer.handleRead, Peer.asyncSend, WriteQueue.push_of_ne_nil hqueue]
    exact ⟨hout, List.append_ne_nil_of_left_ne_nil hqueue _⟩

theorem handleReadError (h : p.Kept b) : p.handleReadError.Kept (b || true) where
  content := h.content
  initiated := h.initiated
  frontOnly := h.frontOnly
  reads := by simp
  ended := fun _ => .inl rfl

theorem handleWrite (h : p.Kept b) (hmsg : msg ∈ p.sendQue.outstanding) :
    (p.handleWrite msg).Kept (b || false) where
  content := by
    rw [Peer.handleWrite, (h.frontOnly.orderly hmsg).content_complete hmsg]
    exact h.content
  initiated := by
    have hqueue := (h.frontOnly.orderly hmsg).queue_eq hmsg
    have hinitiated := h.initiated
    rw [hqueue] at hinitiated
    simp only [Peer.handleWrite, WriteQueue.complete, WriteQueue.startFront,
      List.map_append, hinitiated, List.map_map]
    simp [Function.comp_def]
  frontOnly := h.frontOnly.complete hmsg
  reads := by
    rw [Bool.or_false]
    intro hb
    obtain ⟨hread, horderly⟩ := h.reads hb
    exact ⟨hread, horderly.complete hmsg⟩
  ended := by
    rw [Bool.or_false]
    intro hb
    refine .inl ((h.ended hb).resolve_right ?_)
    rintro ⟨hout, -⟩
    rw [hout] at hmsg
    cases hmsg

theorem handleWriteError (h : p.Kept b) (hmsg : msg ∈ p.sendQue.outstanding) :
    (p.handleWriteError msg).Kept (b || true) where
  content := h.content
  initiated := h.initiated
  frontOnly := .inr (h.frontOnly.abort hmsg)
  reads := by simp
  ended := by
    intro _
    refine .inr ⟨h.frontOnly.abort hmsg, ?_⟩
    have hqueue := (h.frontOnly.orderly hmsg).queue_eq hmsg
    exact fun hnil => List.cons_ne_nil _ _ (hqueue.symm.trans hnil)

theorem handle (h : p.Kept b) {clears : Bool} {q : Peer}
    (hhandle : Handle p clears q) : q.Kept (b || clears) := by
  cases hhandle with
  | read hread => exact h.handleRead hread _
  | readError _ => exact h.handleReadError
  | write hmsg => exact h.handleWrite hmsg
  | writeError hmsg => exact h.handleWriteError hmsg

end Peer.Kept

/-- The operations that a connection has outstanding. -/
def Peer.pending (p : Peer) : ℕ :=
  (if p.reading then 1 else 0) + p.sendQue.outstanding.length

theorem Peer.Kept.exists_handle {p : Peer} {b : Bool} (h : p.Kept b)
    (hpending : p.pending ≠ 0) :
    ∃ clears q, Handle p clears q ∧ q.pending < p.pending := by
  by_cases hread : p.reading = true
  · refine ⟨true, _, .readError hread, ?_⟩
    simp [Peer.pending, Peer.handleReadError, hread]
  · cases hout : p.sendQue.outstanding with
    | nil => simp [Peer.pending, hread, hout] at hpending
    | cons msg others =>
        have hmsg : msg ∈ p.sendQue.outstanding := by simp [hout]
        refine ⟨true, _, .writeError hmsg, ?_⟩
        have hnil : (p.handleWriteError msg).sendQue.outstanding = [] :=
          h.frontOnly.abort hmsg
        have hended : (p.handleWriteError msg).reading = p.reading := rfl
        simp [Peer.pending, hended, hread, hnil, hout]

/-- A connection that has not been removed is reading. -/
theorem Peer.Kept.pending_ne_zero {p : Peer} (h : p.Kept false) : p.pending ≠ 0 := by
  simp [Peer.pending, (h.reads rfl).1]

/-! ## The server -/

section Runs

variable {ι : Type*} [DecidableEq ι] {s : Server ι} {i : ι}

omit [DecidableEq ι] in
theorem keeps_kept :
    Sessions.Keeps Handle (fun _ : ι => .start) (fun _ b p => p.Kept b) where
  first := fun _ => .start
  handle := fun h hhandle => h.handle hhandle

theorem ServerReachable.inv (h : ServerReachable s) :
    Sessions.Inv (fun _ => .start) (fun _ b p => p.Kept b) s :=
  Sessions.Reachable.inv keeps_kept h

/-- In every state of the server `_map_cons` holds exactly the connections whose
handshake has ended and that have not been removed after an error.  Each of them
is reading, and is writing exactly if its queue is not empty.  Of every connection,
the messages whose writes were initiated are those received first, in their order,
and at most one write is outstanding; one that has been removed and still reads
writes nothing any more.  From every state the handlers alone lead to one in which
nothing holds any connection. -/
theorem ServerReachable.serves_connections (h : ServerReachable s) :
    (∀ i ∈ s.accepted,
      (i ∈ s.registered ↔ i ∉ s.cleared) ∧
      (i ∈ s.registered → (s.session i).reading = true ∧
        ((s.session i).sendQue.outstanding ≠ [] ↔
          (s.session i).sendQue.queue ≠ [])) ∧
      (s.session i).initiated.map Prod.fst <+:
        (s.session i).received.map Prod.fst ∧
      (s.session i).sendQue.outstanding.length ≤ 1 ∧
      (i ∉ s.registered → (s.session i).reading = true →
        (s.session i).sendQue.outstanding = [])) ∧
    ∃ t, ReflTransGen (Sessions.Runs Handle) s t ∧ t.accepted = s.accepted ∧
      t.registered = ∅ ∧ ∀ i ∈ t.accepted, t.owners Peer.pending i = 0 := by
  have hinv := h.inv
  constructor
  · intro i hi
    have hkept := hinv.kept i hi
    have hiff := hinv.mem_registered_iff hi
    refine ⟨hiff, ?_, ?_, ?_, ?_⟩
    · intro hmem
      obtain ⟨hread, horderly⟩ := hkept.reads (decide_eq_false (hiff.mp hmem))
      exact ⟨hread, horderly.outstanding_ne_nil_iff⟩
    · rw [hkept.initiated, ← hkept.content, WriteQueue.content]
      exact (List.prefix_append_right_inj _).mpr (List.take_prefix 1 _)
    · rcases hkept.frontOnly with horderly | hnil
      · exact horderly.length_outstanding_le_one
      · rw [hnil]
        exact Nat.zero_le _
    · intro hmem hread
      have hcleared : i ∈ s.cleared := by
        by_contra hnot
        exact hmem (hiff.mpr hnot)
      have hnot : ¬ (s.session i).reading = false := by simp [hread]
      exact ((hkept.ended (decide_eq_true hcleared)).resolve_left hnot).1
  · exact hinv.exists_run_to_release keeps_kept
      (fun _ _ hkept => hkept.pending_ne_zero)
      (fun _ _ _ hkept hpending => hkept.exists_handle hpending)

/-- Two messages have come, and the first is being written. -/
theorem serves_connections_two :
    ∃ s : Server ℕ, 0 ∈ s.registered ∧
      (s.session 0).sendQue.queue = [[104], [105]] ∧
      (s.session 0).initiated = [([104], true)] ∧
      ∃ t, ReflTransGen (Sessions.Runs Handle) s t ∧ t.owners Peer.pending 0 = 0 := by
  let s₁ : Server ℕ := Sessions.accept (.empty fun _ => .start) 0
  let s₂ := s₁.handle 0 false (Peer.start.handleRead [104] true)
  let s₃ := s₂.handle 0 false ((Peer.start.handleRead [104] true).handleRead [105] false)
  have h₁ : Sessions.Step Handle (.empty fun _ : ℕ => .start) s₁ :=
    .accept (by simp [Sessions.empty])
  have h₂ : Sessions.Step Handle s₁ s₂ :=
    .runs (.handle (by decide) (.read rfl))
  have h₃ : Sessions.Step Handle s₂ s₃ :=
    .runs (.handle (by decide) (.read rfl))
  have hreach : ServerReachable s₃ := ((ReflTransGen.single h₁).tail h₂).tail h₃
  obtain ⟨-, t, hrun, haccepted, -, hzero⟩ := hreach.serves_connections
  refine ⟨s₃, by decide, by decide, by decide, t, hrun, hzero 0 ?_⟩
  rw [haccepted]
  decide

end Runs

end BackendLab.WebSocket
