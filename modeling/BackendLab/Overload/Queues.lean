import BackendLab.Echo.Closing
import BackendLab.Proactor.System.Pool
import BackendLab.ServicePool.Sending

/-!
# Queues at their bound

The work queue of the thread pool and the send queues of the sessions are bounded.
Each of the functions that fill them asks whether the queue holds more than its
bound before it pushes, so that a queue that holds as many entries as the bound
takes one more.
-/

namespace BackendLab.Overload

open Support Proactor ServicePool

/-! ## The thread pool -/

section Pool

variable {ρ ω α : Type*}

/-- The locked section of `threadpool::append`, with what `append` returns. -/
def append (max : ℕ) (s : ThreadPool.Pool ρ ω α) (request : Option ρ) :
    Bool × ThreadPool.Pool ρ ω α :=
  if max < s.workqueue.length then (false, s) else (true, s.push request)

/-- The step is an `append` that has been accepted. -/
def Appends [DecidableEq α] (s t : ThreadPool.Pool ρ ω α) : Prop :=
  ∃ a request, t = (s.push request).setAppender a .posting

theorem Appends.length_eq [DecidableEq α] {s t : ThreadPool.Pool ρ ω α}
    (h : Appends s t) : t.workqueue.length = s.workqueue.length + 1 := by
  obtain ⟨a, request, rfl⟩ := h
  exact List.length_append

variable [DecidableEq ω] [DecidableEq α]

/-- The steps `append` and `appendFull` of the pool are the two results of
`append`. -/
theorem step_append {max : ℕ} {s : ThreadPool.Pool ρ ω α} {a : α}
    (h : s.appender a = .idle) (request : Option ρ) :
    ThreadPool.Step max s
      (if (append max s request).1 then
        (append max s request).2.setAppender a .posting
      else (append max s request).2) := by
  by_cases hfull : max < s.workqueue.length
  · simp only [append, if_pos hfull]
    exact .appendFull h hfull
  · simp only [append, if_neg hfull]
    exact .append h (not_lt.mp hfull)

theorem appends_or_length_le {max : ℕ} {s t : ThreadPool.Pool ρ ω α}
    (h : ThreadPool.Step max s t) :
    Appends s t ∨ t.workqueue.length ≤ s.workqueue.length := by
  cases h with
  | append h hroom => exact .inl ⟨_, _, rfl⟩
  | pop h hqueue =>
      right
      rw [hqueue]
      exact Nat.le_succ _
  | appendFull | post | wait | waitFails | popNone | skip | process =>
      exact .inr le_rfl

end Pool

/-! ## The send queues -/

/-- A call of `Send`, or a completion.  The completion of a write that has failed
pops nothing. -/
inductive SessionStep : SendSession → SendSession → Prop
  | step {s t : SendSession} (h : SendStep s t) : SessionStep s t
  | handleWriteFails {s : SendSession} {node : SendNode}
      (h : node ∈ s.sendQue.outstanding) :
      SessionStep s
        { s with sendQue.outstanding := s.sendQue.outstanding.erase node }

theorem send_of_full {s : SendSession}
    (hfull : maxSendQue < s.sendQue.queue.length) (call : SendCall) :
    s.send call = .ok s := by
  rw [SendSession.send, if_pos hfull]

/-- The step is a `Send` that has been accepted. -/
def Sends (s t : SendSession) : Prop :=
  s.sendQue.queue.length ≤ maxSendQue ∧ ∃ call, s.send call = .ok t

theorem Sends.length_eq {s t : SendSession} (h : Sends s t) :
    t.sendQue.queue.length = s.sendQue.queue.length + 1 := by
  obtain ⟨hroom, call, hsend⟩ := h
  rw [SendSession.send, if_neg (not_lt.mpr hroom)] at hsend
  cases hnode : call.makeNode with
  | error e =>
      rw [hnode] at hsend
      cases hsend
  | ok node =>
      rw [hnode] at hsend
      cases hsend
      exact WriteQueue.length_queue_push _ _

theorem sends_or_length_le {s t : SendSession} (h : SessionStep s t) :
    Sends s t ∨ t.sendQue.queue.length ≤ s.sendQue.queue.length := by
  cases h with
  | step h =>
      cases h with
      | send call h =>
          by_cases hroom : s.sendQue.queue.length ≤ maxSendQue
          · exact .inl ⟨hroom, call, h⟩
          · rw [send_of_full (not_le.mp hroom)] at h
            cases h
            exact .inr le_rfl
      | sendThrows => exact .inr le_rfl
      | handleWrite => exact .inr (WriteQueue.length_queue_complete_le _ _)
  | handleWriteFails => exact .inr le_rfl

/-- The step is a `Send` of the echo server that has been accepted. -/
def EchoSends (s t : Echo.Closable) : Prop :=
  s.queue.length ≤ Echo.maxSendQueueSize ∧ ∃ msg maxLen, t = s.send msg maxLen

theorem EchoSends.length_eq {s t : Echo.Closable} (h : EchoSends s t) :
    t.queue.length = s.queue.length + 1 := by
  obtain ⟨hroom, msg, maxLen, rfl⟩ := h
  rcases s.send_cases msg maxLen with ⟨hfull, -⟩ | ⟨node, hsend⟩
  · exact absurd hroom (not_le.mpr hfull)
  · rw [hsend]
    exact WriteQueue.length_queue_push _ _

theorem echoSends_or_length_le {s t : Echo.Closable}
    (h : Echo.Closable.Step s t) :
    EchoSends s t ∨ t.queue.length ≤ s.queue.length := by
  cases h with
  | send msg maxLen =>
      by_cases hroom : s.queue.length ≤ Echo.maxSendQueueSize
      · exact .inl ⟨hroom, msg, maxLen, rfl⟩
      · right
        rw [Echo.Closable.send_of_full (not_le.mp hroom)]
  | sendThrows | finish | handleWriteFails => exact .inr le_rfl
  | handleWrite => exact .inr (WriteQueue.length_queue_complete_le _ _)
  | close => exact .inr (Nat.zero_le _)

/-! ## The bounds -/

/-- In a run of the pool, of a session and of a session of the echo server the
queue stays within its bound if and only if nothing is appended or sent while it
holds exactly as many entries as the bound.  A call that is refused leaves the
queue as it is. -/
theorem queues_bounded_iff {ρ ω α : Type*} [DecidableEq ω] [DecidableEq α]
    {max : ℕ} {pools : List (ThreadPool.Pool ρ ω α)}
    {sessions : List SendSession} {echoes : List Echo.Closable}
    (hpools : (.init :: pools).IsChain (ThreadPool.Step max))
    (hsessions : (.start :: sessions).IsChain SessionStep)
    (hechoes : (.start :: echoes).IsChain Echo.Closable.Step) :
    ((∀ s ∈ .init :: pools, s.workqueue.length ≤ max) ↔
        (.init :: pools).IsChain fun s t =>
          Appends s t → s.workqueue.length ≠ max) ∧
      ((∀ s ∈ .start :: sessions, s.sendQue.queue.length ≤ maxSendQue) ↔
        (.start :: sessions).IsChain fun s t =>
          Sends s t → s.sendQue.queue.length ≠ maxSendQue) ∧
      ((∀ s ∈ .start :: echoes, s.queue.length ≤ Echo.maxSendQueueSize) ↔
        (.start :: echoes).IsChain fun s t =>
          EchoSends s t → s.queue.length ≠ Echo.maxSendQueueSize) ∧
      (∀ (s : ThreadPool.Pool ρ ω α) request,
        (append max s request).1 = false → (append max s request).2 = s) ∧
      (∀ (s : SendSession) call, maxSendQue < s.sendQue.queue.length →
        s.send call = .ok s) ∧
      (∀ (s : Echo.Closable) msg maxLen,
        Echo.maxSendQueueSize < s.queue.length → s.send msg maxLen = s) := by
  refine ⟨?_, ?_, ?_, ?_, ?_, ?_⟩
  · refine bounded_iff_no_push_at_bound ?_ ?_ (Nat.zero_le _) hpools
    · intro s t hpush
      exact hpush.length_eq
    · intro s t hstep
      exact appends_or_length_le hstep
  · refine bounded_iff_no_push_at_bound ?_ ?_ (Nat.zero_le _) hsessions
    · intro s t hpush
      exact hpush.length_eq
    · intro s t hstep
      exact sends_or_length_le hstep
  · refine bounded_iff_no_push_at_bound ?_ ?_ (Nat.zero_le _) hechoes
    · intro s t hpush
      exact hpush.length_eq
    · intro s t hstep
      exact echoSends_or_length_le hstep
  · intro s request hrefused
    by_cases hfull : max < s.workqueue.length
    · rw [append, if_pos hfull]
    · rw [append, if_neg hfull] at hrefused
      cases hrefused
  · intro s call hfull
    exact send_of_full hfull call
  · intro s msg maxLen hfull
    exact Echo.Closable.send_of_full hfull msg maxLen

/-- One request in a pool of at most one, and the text `hi` in a session of each
server. -/
theorem queues_bounded_one :
    ∃ (pool : ThreadPool.Pool Unit Unit Unit) (session : SendSession)
      (echo : Echo.Closable),
      pool.workqueue.length = 1 ∧ session.sendQue.queue.length = 1 ∧
        echo.queue.length = 1 ∧
        (∀ s ∈ [.init, pool], s.workqueue.length ≤ 1) ∧
        (∀ s ∈ [.start, session], s.sendQue.queue.length ≤ maxSendQue) ∧
        (∀ s ∈ [.start, echo], s.queue.length ≤ Echo.maxSendQueueSize) := by
  let pool : ThreadPool.Pool Unit Unit Unit :=
    (ThreadPool.Pool.init.push (some ())).setAppender () .posting
  let node : SendNode := ⟨⟨6, 0, [3, 233, 0, 2, 104, 105, 0]⟩, 1001⟩
  let call : SendCall := .text [104, 105] 1001
  let session : SendSession := ⟨⟨[node], [node], []⟩, [call]⟩
  let echo := Echo.Closable.start.send [104, 105] 2
  have hsession : SendSession.start.send call = .ok session := by decide
  have hpools : [.init, pool].IsChain (ThreadPool.Step 1) :=
    List.isChain_pair.mpr (.append rfl (Nat.zero_le 1))
  have hsessions : [.start, session].IsChain SessionStep :=
    List.isChain_pair.mpr (.step (.send call hsession))
  have hechoes : [.start, echo].IsChain Echo.Closable.Step :=
    List.isChain_pair.mpr (.send _ _)
  have hbounded := queues_bounded_iff hpools hsessions hechoes
  refine ⟨pool, session, echo, rfl, rfl, rfl, hbounded.1.mpr ?_,
    hbounded.2.1.mpr ?_, hbounded.2.2.1.mpr ?_⟩
  · exact List.isChain_pair.mpr fun _ => by decide
  · exact List.isChain_pair.mpr fun _ => by decide
  · exact List.isChain_pair.mpr fun _ => by decide

/-- A pool of at most one request accepts a second one. -/
theorem pool_holds_two :
    ¬ ∀ pools : List (ThreadPool.Pool Unit Unit Unit),
      (.init :: pools).IsChain (ThreadPool.Step 1) →
        ∀ s ∈ .init :: pools, s.workqueue.length ≤ 1 := by
  let s1 : ThreadPool.Pool Unit Unit Unit :=
    (ThreadPool.Pool.init.push (some ())).setAppender () .posting
  let s2 := s1.post.setAppender () .idle
  let s3 := (s2.push (some ())).setAppender () .posting
  have h1 : ThreadPool.Step 1 .init s1 := .append rfl (Nat.zero_le 1)
  have h2 : ThreadPool.Step 1 s1 s2 := .post rfl
  have h3 : ThreadPool.Step 1 s2 s3 := .append rfl le_rfl
  intro hbounded
  have hrun : [.init, s1, s2, s3].IsChain (ThreadPool.Step 1) := by
    simp only [List.isChain_cons_cons, List.isChain_singleton, and_true]
    exact ⟨h1, h2, h3⟩
  have htwo : s3.workqueue.length ≤ 1 := hbounded _ hrun s3 (by simp)
  exact absurd htwo (by decide)

end BackendLab.Overload
