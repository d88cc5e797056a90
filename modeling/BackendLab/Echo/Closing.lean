import BackendLab.Echo.Session
import BackendLab.Support.Runs

/-!
# Closing a session

`Session::Close` empties the send queue, on which `Send` relies to know whether a
write is outstanding and `handle_write` to know that there is something to pop.
A write that had finished before the socket was closed still delivers its
completion, without an error.
-/

namespace BackendLab.Echo

open Support

namespace Session

/-- `handle_write` for the write of `node`, with an error. -/
def handleWriteFails (s : Session) (node : MsgNode) : Session :=
  { s with
    sendQue :=
      { s.sendQue with outstanding := s.sendQue.outstanding.erase node } }

/-- `Close`, for what it does to the queue. -/
def close (s : Session) : Session :=
  { s with sendQue := { s.sendQue with queue := [] } }

end Session

/-- A session with its socket.  The writes that have finished and whose
`handle_write` has not been called are among the outstanding ones. -/
structure Closable where
  session : Session
  finished : List MsgNode
  socketOpen : Bool
  deriving DecidableEq, Repr

namespace Closable

def start : Closable := ⟨.start, [], true⟩

variable (s : Closable)

/-- `_send_que`. -/
def queue : List MsgNode := s.session.sendQue.queue

def outstanding : List MsgNode := s.session.sendQue.outstanding

/-- `Send` does not ask whether the socket is open. -/
def send (msg : Bytes) (maxLen : ℕ) : Closable :=
  { s with session := s.session.send msg maxLen }

def handleWrite (node : MsgNode) : Closable :=
  { s with
    session := s.session.handleWrite node
    finished := s.finished.erase node }

def handleWriteFails (node : MsgNode) : Closable :=
  { s with session := s.session.handleWriteFails node }

def close : Closable :=
  { s with session := s.session.close, socketOpen := false }

/-- `Send`, `handle_write` and `Close` in any order.  A write finishes while the
socket is open, or fails.  The constructor of a node may throw, which leaves the
queue as it was. -/
inductive Step : Closable → Closable → Prop
  | send {s : Closable} (msg : Bytes) (maxLen : ℕ) :
      Step s (s.send msg maxLen)
  | sendThrows {s : Closable} : Step s s
  | finish {s : Closable} {node : MsgNode} (hopen : s.socketOpen = true)
      (h : node ∈ s.outstanding.diff s.finished) :
      Step s { s with finished := node :: s.finished }
  | handleWrite {s : Closable} {node : MsgNode} (h : node ∈ s.finished) :
      Step s (s.handleWrite node)
  | handleWriteFails {s : Closable} {node : MsgNode}
      (h : node ∈ s.outstanding.diff s.finished) :
      Step s (s.handleWriteFails node)
  | close {s : Closable} : Step s s.close

/-- Whichever `handle_write` comes next without an error finds the queue not
empty, and at most one write is outstanding. -/
structure Safe : Prop where
  pops : ∀ node ∈ s.finished, s.queue ≠ []
  single : s.outstanding.length ≤ 1

instance : Decidable s.Safe :=
  decidable_of_iff
    ((∀ node ∈ s.finished, s.queue ≠ []) ∧ s.outstanding.length ≤ 1)
    ⟨fun h => ⟨h.1, h.2⟩, fun h => ⟨h.pops, h.single⟩⟩

/-- The step is no `Close` while a finished write waits for its `handle_write`,
and no `Send` that finds the queue empty while a write is outstanding. -/
structure Careful (s t : Closable) : Prop where
  close : t = s.close → s.finished = []
  send : ∀ msg maxLen, t = s.send msg maxLen → s.queue = [] →
    s.outstanding = []

/-- The states that careful steps lead to. -/
inductive Standing : Closable → Prop
  | writing {s : Closable} (horderly : s.session.sendQue.Orderly)
      (h : s.finished = []) : Standing s
  | written {s : Closable} {node : MsgNode}
      (horderly : s.session.sendQue.Orderly) (h : s.finished = [node])
      (hout : s.outstanding = [node]) : Standing s
  | failed {s : Closable} (hqueue : s.queue ≠ []) (hout : s.outstanding = [])
      (h : s.finished = []) : Standing s
  | closing {s : Closable} {node : MsgNode} (hqueue : s.queue = [])
      (hout : s.outstanding = [node]) (h : s.finished = [])
      (hclosed : s.socketOpen = false) : Standing s

theorem queue_ne_nil_of_outstanding {s : Closable} {node : MsgNode}
    (horderly : s.session.sendQue.Orderly) (hout : s.outstanding = [node]) :
    s.queue ≠ [] := by
  apply horderly.outstanding_ne_nil_iff.mp
  rw [← outstanding, hout]
  exact List.cons_ne_nil _ _

theorem Standing.safe {s : Closable} (h : Standing s) : s.Safe := by
  cases h with
  | writing horderly h => exact ⟨by simp [h], horderly.length_outstanding_le_one⟩
  | written horderly h hout =>
      have hqueue := queue_ne_nil_of_outstanding horderly hout
      exact ⟨fun _ _ => hqueue, horderly.length_outstanding_le_one⟩
  | failed hqueue hout h => exact ⟨by simp [h], by simp [hout]⟩
  | closing hqueue hout h => exact ⟨by simp [h], by simp [hout]⟩

/-! ## Careful steps -/

section Steps

variable {s : Closable} {node : MsgNode}

theorem send_of_full (hfull : maxSendQueueSize < s.queue.length) (msg : Bytes)
    (maxLen : ℕ) : s.send msg maxLen = s := by
  have hsend : s.session.send msg maxLen = s.session := if_pos hfull
  rw [send, hsend]

theorem send_cases (s : Closable) (msg : Bytes) (maxLen : ℕ) :
    (maxSendQueueSize < s.queue.length ∧ s.send msg maxLen = s) ∨
      ∃ node, s.send msg maxLen =
        { s with session.sendQue := s.session.sendQue.push node } := by
  by_cases hfull : maxSendQueueSize < s.queue.length
  · exact .inl ⟨hfull, send_of_full hfull msg maxLen⟩
  · refine .inr ⟨.forSending msg maxLen, ?_⟩
    rw [send, Session.send_of_room (not_lt.mp hfull)]

theorem Standing.send (h : Standing s) (msg : Bytes) (maxLen : ℕ)
    (hcareful : s.queue = [] → s.outstanding = []) :
    Standing (s.send msg maxLen) := by
  rcases s.send_cases msg maxLen with ⟨-, hsend⟩ | ⟨new, hsend⟩
  · rwa [hsend]
  rw [hsend]
  cases h with
  | writing horderly h => exact .writing (horderly.push new) h
  | written horderly h hout =>
      have hqueue := queue_ne_nil_of_outstanding horderly hout
      refine .written (horderly.push new) h ?_
      simp only [outstanding, WriteQueue.push_of_ne_nil hqueue]
      exact hout
  | failed hqueue hout h =>
      rw [WriteQueue.push_of_ne_nil hqueue]
      exact .failed (List.append_ne_nil_of_left_ne_nil hqueue _) hout h
  | closing hqueue hout h hclosed =>
      have hnone := hcareful hqueue
      rw [hout] at hnone
      cases hnone

/-- The write that finishes or fails is the only one, and it has not finished
before. -/
theorem outstanding_eq_of_mem_diff (horderly : s.session.sendQue.Orderly)
    (h : node ∈ s.outstanding.diff s.finished) : s.outstanding = [node] :=
  horderly.outstanding_eq (List.diff_subset _ _ h)

theorem Standing.finish (h : Standing s) (hopen : s.socketOpen = true)
    (hnode : node ∈ s.outstanding.diff s.finished) :
    Standing { s with finished := node :: s.finished } := by
  cases h with
  | writing horderly h =>
      have hout := outstanding_eq_of_mem_diff horderly hnode
      exact .written horderly (by rw [h]) hout
  | written horderly h hout => simp [h, hout] at hnode
  | failed hqueue hout h => simp [h, hout] at hnode
  | closing hqueue hout h hclosed =>
      rw [hclosed] at hopen
      cases hopen

theorem Standing.handleWrite (h : Standing s) (hnode : node ∈ s.finished) :
    Standing (s.handleWrite node) := by
  cases h with
  | written horderly h hout =>
      rw [h, List.mem_singleton] at hnode
      subst hnode
      have hmem : node ∈ s.outstanding := by simp [hout]
      exact .writing (horderly.complete hmem) (by simp [Closable.handleWrite, h])
  | writing _ h | failed _ _ h | closing _ _ h =>
      rw [h] at hnode
      cases hnode

theorem Standing.handleWriteFails (h : Standing s)
    (hnode : node ∈ s.outstanding.diff s.finished) :
    Standing (s.handleWriteFails node) := by
  cases h with
  | writing horderly h =>
      have hout := outstanding_eq_of_mem_diff horderly hnode
      have hqueue := queue_ne_nil_of_outstanding horderly hout
      have hnone : s.outstanding.erase node = [] := by simp [hout]
      exact .failed hqueue hnone h
  | written horderly h hout => simp [h, hout] at hnode
  | failed hqueue hout h => simp [h, hout] at hnode
  | closing hqueue hout h hclosed =>
      have hnone : s.outstanding.erase node = [] := by
        rw [h, hout, List.diff_nil, List.mem_singleton] at hnode
        simp [hout, hnode]
      have hfront : s.outstanding.erase node = s.queue.take 1 := by
        rw [hnone, hqueue, List.take_nil]
      exact .writing hfront h

theorem Standing.close (h : Standing s) (hcareful : s.finished = []) :
    Standing s.close := by
  cases h with
  | writing horderly h =>
      have hfront : s.outstanding = s.queue.take 1 := horderly
      cases hqueue : s.queue with
      | nil =>
          rw [hqueue] at hfront
          exact .writing hfront h
      | cons node rest =>
          rw [hqueue, List.take_succ_cons, List.take_zero] at hfront
          exact .closing rfl hfront h rfl
  | written horderly h hout =>
      rw [hcareful] at h
      cases h
  | failed hqueue hout h => exact .writing hout h
  | closing hqueue hout h hclosed => exact .closing rfl hout h rfl

theorem Standing.step {t : Closable} (h : Standing s) (hstep : Step s t)
    (hcareful : Careful s t) : Standing t := by
  cases hstep with
  | send msg maxLen => exact h.send msg maxLen (hcareful.send msg maxLen rfl)
  | sendThrows => exact h
  | finish hopen hnode => exact h.finish hopen hnode
  | handleWrite hnode => exact h.handleWrite hnode
  | handleWriteFails hnode => exact h.handleWriteFails hnode
  | close => exact h.close (hcareful.close rfl)

end Steps

/-! ## Other steps -/

section Steps

variable {s : Closable}

/-- A `Close` before the `handle_write` of a finished write leaves it nothing to
pop. -/
theorem not_safe_close (h : s.finished ≠ []) : ¬ s.close.Safe := by
  intro hsafe
  obtain ⟨node, rest, hfinished⟩ := List.exists_cons_of_ne_nil h
  have hnode : node ∈ s.close.finished := by simp [close, hfinished]
  exact hsafe.pops node hnode rfl

/-- A `Send` that finds the queue empty starts a write beside the outstanding
one. -/
theorem not_safe_send {msg : Bytes} {maxLen : ℕ} (hqueue : s.queue = [])
    (hout : s.outstanding ≠ []) : ¬ (s.send msg maxLen).Safe := by
  intro hsafe
  rcases s.send_cases msg maxLen with ⟨hfull, -⟩ | ⟨node, hsend⟩
  · simp [hqueue] at hfull
  · have htwo := hsafe.single
    have hpos := List.length_pos_of_ne_nil hout
    rw [hsend] at htwo
    simp only [outstanding, WriteQueue.push_of_nil hqueue, List.length_append,
      List.length_singleton] at htwo hpos
    omega

theorem not_safe_of_not_careful {t : Closable} (h : ¬ Careful s t) :
    ¬ t.Safe := by
  intro hsafe
  refine h ⟨?_, ?_⟩
  · rintro rfl
    by_contra hfinished
    exact not_safe_close hfinished hsafe
  · rintro msg maxLen rfl hqueue
    by_contra hout
    exact not_safe_send hqueue hout hsafe

end Steps

/-- A run of a session passes safe states only if and only if no `Close` is made
while a finished write waits for its `handle_write`, and no `Send` finds the queue
empty while a write is outstanding. -/
theorem safe_iff {states : List Closable}
    (hrun : (start :: states).IsChain Step) :
    (∀ s ∈ start :: states, s.Safe) ↔ (start :: states).IsChain Careful := by
  have hstart : Standing start := .writing WriteQueue.orderly_empty rfl
  refine safe_iff_careful (I := Standing) ?_ ?_ ?_ hstart hrun
  · intro s h
    exact h.safe
  · intro s t h hstep hcareful
    exact h.step hstep hcareful
  · intro s t h hstep hcareful
    exact not_safe_of_not_careful hcareful

/-- The text `hi` is sent and written, and the session is closed then. -/
theorem safe_iff_hi :
    ∃ s1 s2 s3 s4 : Closable,
      [start, s1, s2, s3, s4].IsChain Step ∧
        s4.socketOpen = false ∧ s4.session.sendQue.completed ≠ [] ∧
        [start, s1, s2, s3, s4].IsChain Careful := by
  let node : MsgNode := ⟨4, 0, [0, 2, 104, 105, 0]⟩
  let s1 := start.send [104, 105] 2
  let s2 : Closable := { s1 with finished := [node] }
  let s3 := s2.handleWrite node
  have hfinish : Step s1 s2 := .finish rfl (by decide)
  have hwrite : Step s2 s3 := .handleWrite (List.mem_singleton_self node)
  have hrun : [start, s1, s2, s3, s3.close].IsChain Step := by
    simp only [List.isChain_cons_cons, List.isChain_singleton, and_true]
    exact ⟨.send _ _, hfinish, hwrite, .close⟩
  refine ⟨s1, s2, s3, s3.close, hrun, rfl, by decide, (safe_iff hrun).mp ?_⟩
  decide

/-- `Close` is called when the write of `hi` has finished.  The `handle_write` for
it then finds nothing to pop, and another `Send` before it starts a second
write. -/
theorem close_not_safe :
    ¬ (∀ states, (start :: states).IsChain Step →
      ∀ s ∈ start :: states, s.Safe) ∧
      ∃ s1 s2 s3 s4 s5 : Closable, ∃ node : MsgNode,
        [start, s1, s2, s3, s4].IsChain Step ∧
          node ∈ s3.finished ∧ s3.queue = [] ∧ s4 = s3.handleWrite node ∧
          Step s3 s5 ∧ s5.outstanding.length = 2 := by
  let node : MsgNode := ⟨4, 0, [0, 2, 104, 105, 0]⟩
  let s1 := start.send [104, 105] 2
  let s2 : Closable := { s1 with finished := [node] }
  let s3 := s2.close
  let s4 := s3.handleWrite node
  let s5 := s3.send [104, 105] 2
  have hnode : node ∈ s3.finished := List.mem_singleton_self node
  have hfinish : Step s1 s2 := .finish rfl (by decide)
  have hrun : [start, s1, s2, s3, s4].IsChain Step := by
    simp only [List.isChain_cons_cons, List.isChain_singleton, and_true]
    exact ⟨.send _ _, hfinish, .close, .handleWrite hnode⟩
  refine ⟨?_, s1, s2, s3, s4, s5, node, hrun, hnode, rfl, rfl, .send _ _, by decide⟩
  intro hsafe
  have hs3 : s3.Safe := hsafe _ hrun s3 (by simp)
  exact hs3.pops node hnode rfl

end Closable

end BackendLab.Echo
