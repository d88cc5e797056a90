import BackendLab.Support.Population
import BackendLab.Support.Runs
import Mathlib.Data.List.Nodup
import Mathlib.Tactic.Common

/-!
# The thread pool

The class `threadpool` for itself, with any number of threads that call `append`
and any number of workers in `run`.  Pushing a request and posting the semaphore
are two steps, and a worker may come back from `wait` without having taken a
token, so that the tokens and the requests are not in step.

A request is told from an equal one by its ticket, the number of requests that
were accepted before it.
-/

namespace BackendLab.Proactor.ThreadPool

open Support Relation

/-- A pointer in the work queue, with its ticket. -/
abbrev Entry (ρ : Type*) := ℕ × Option ρ

/-- Where a worker stands in `run`: at `m_queuestat.wait()`, before the locked
section, or behind it with a request. -/
inductive Worker (ρ : Type*) where
  | waiting
  | awake
  | holding (entry : Entry ρ)
  deriving DecidableEq, Repr

def Worker.isAwake {ρ : Type*} : Worker ρ → Bool
  | awake => true
  | waiting | holding _ => false

/-- Where a thread stands in `append`: outside, or between the push and
`m_queuestat.post()`. -/
inductive Appender where
  | idle
  | posting
  deriving DecidableEq, Repr

def Appender.isPosting : Appender → Bool
  | posting => true
  | idle => false

/-- The pool of the workers `ω`, used by the threads `α`.  The entries that were
pushed, those that were popped and the calls of `process` are kept in order. -/
structure Pool (ρ ω α : Type*) where
  workqueue : List (Entry ρ)
  queuestat : ℕ
  worker : ω → Worker ρ
  appender : α → Appender
  pushed : List (Entry ρ)
  popped : List (Entry ρ)
  processed : List (ω × ℕ × ρ)

variable {ρ ω α : Type*}

namespace Pool

def init : Pool ρ ω α :=
  ⟨[], 0, fun _ => .waiting, fun _ => .idle, [], [], []⟩

def setWorker [DecidableEq ω] (s : Pool ρ ω α) (w : ω) (x : Worker ρ) : Pool ρ ω α :=
  { s with worker := Function.update s.worker w x }

theorem worker_setWorker_self [DecidableEq ω] (s : Pool ρ ω α) (w : ω)
    (x : Worker ρ) : (s.setWorker w x).worker w = x := by
  simp [setWorker]

theorem worker_setWorker_of_ne [DecidableEq ω] (s : Pool ρ ω α) {w v : ω}
    (x : Worker ρ) (h : v ≠ w) : (s.setWorker w x).worker v = s.worker v := by
  simp [setWorker, h]

def setAppender [DecidableEq α] (s : Pool ρ ω α) (a : α) (x : Appender) : Pool ρ ω α :=
  { s with appender := Function.update s.appender a x }

/-- The locked section of `append`, when the queue is not full. -/
def push (s : Pool ρ ω α) (request : Option ρ) : Pool ρ ω α :=
  { s with
    workqueue := s.workqueue ++ [(s.pushed.length, request)],
    pushed := s.pushed ++ [(s.pushed.length, request)] }

def post (s : Pool ρ ω α) : Pool ρ ω α :=
  { s with queuestat := s.queuestat + 1 }

/-- `wait` takes a token. -/
def takeToken (s : Pool ρ ω α) : Pool ρ ω α :=
  { s with queuestat := s.queuestat - 1 }

/-- The locked section of `run`, when the queue is `entry :: rest`. -/
def pop (s : Pool ρ ω α) (entry : Entry ρ) (rest : List (Entry ρ)) :
    Pool ρ ω α :=
  { s with workqueue := rest, popped := s.popped ++ [entry] }

def process (s : Pool ρ ω α) (w : ω) (ticket : ℕ) (request : ρ) :
    Pool ρ ω α :=
  { s with processed := s.processed ++ [(w, ticket, request)] }

end Pool

/-- The steps of the threads, for a pool with `m_maxrequestnum = max`, while
`m_stop` is `false`. -/
inductive Step [DecidableEq ω] [DecidableEq α] (max : ℕ) :
    Pool ρ ω α → Pool ρ ω α → Prop
  | appendFull {s : Pool ρ ω α} {a : α} (h : s.appender a = .idle)
      (hfull : max < s.workqueue.length) : Step max s s
  | append {s : Pool ρ ω α} {a : α} {request : Option ρ}
      (h : s.appender a = .idle) (hroom : s.workqueue.length ≤ max) :
      Step max s ((s.push request).setAppender a .posting)
  | post {s : Pool ρ ω α} {a : α} (h : s.appender a = .posting) :
      Step max s (s.post.setAppender a .idle)
  | wait {s : Pool ρ ω α} {w : ω} (h : s.worker w = .waiting)
      (htoken : 0 < s.queuestat) :
      Step max s (s.takeToken.setWorker w .awake)
  | waitFails {s : Pool ρ ω α} {w : ω} (h : s.worker w = .waiting) :
      Step max s (s.setWorker w .awake)
  | popNone {s : Pool ρ ω α} {w : ω} (h : s.worker w = .awake)
      (hempty : s.workqueue = []) : Step max s (s.setWorker w .waiting)
  | pop {s : Pool ρ ω α} {w : ω} {entry : Entry ρ} {rest : List (Entry ρ)}
      (h : s.worker w = .awake) (hqueue : s.workqueue = entry :: rest) :
      Step max s ((s.pop entry rest).setWorker w (.holding entry))
  | skip {s : Pool ρ ω α} {w : ω} {ticket : ℕ}
      (h : s.worker w = .holding (ticket, none)) :
      Step max s (s.setWorker w .waiting)
  | process {s : Pool ρ ω α} {w : ω} {ticket : ℕ} {request : ρ}
      (h : s.worker w = .holding (ticket, some request)) :
      Step max s ((s.process w ticket request).setWorker w .waiting)

def Reachable [DecidableEq ω] [DecidableEq α] (max : ℕ) (s : Pool ρ ω α) :
    Prop :=
  ReflTransGen (Step max) Pool.init s

/-! ## Tickets -/

/-- Requests are popped in the order in which they were pushed, a request is in
one worker's hands at a time, and is processed once. -/
structure TicketInvariant (s : Pool ρ ω α) : Prop where
  order : s.popped ++ s.workqueue = s.pushed
  tickets : s.pushed.map Prod.fst = List.range s.pushed.length
  held : ∀ {w entry}, s.worker w = .holding entry →
    entry ∈ s.popped ∧ ∀ call ∈ s.processed, call.2.1 ≠ entry.1
  unique : ∀ {w v entry entry'}, s.worker w = .holding entry →
    s.worker v = .holding entry' → entry.1 = entry'.1 → w = v
  calls : ∀ call ∈ s.processed, (call.2.1, some call.2.2) ∈ s.popped
  once : (s.processed.map fun call => call.2.1).Nodup

namespace TicketInvariant

variable {s : Pool ρ ω α} {w : ω}

theorem init : TicketInvariant (Pool.init : Pool ρ ω α) := by
  constructor <;> simp [Pool.init]

theorem push (hs : TicketInvariant s) (request : Option ρ) :
    TicketInvariant (s.push request) := by
  constructor
  · simp only [Pool.push, ← hs.order, List.append_assoc]
  · simp only [Pool.push, List.map_append, hs.tickets, List.length_append,
      List.length_singleton, List.range_succ, List.map_cons, List.map_nil]
  · exact hs.held
  · exact hs.unique
  · exact hs.calls
  · exact hs.once

theorem setAppender [DecidableEq α] (hs : TicketInvariant s) (a : α)
    (x : Appender) : TicketInvariant (s.setAppender a x) :=
  ⟨hs.order, hs.tickets, hs.held, hs.unique, hs.calls, hs.once⟩

theorem setQueuestat (hs : TicketInvariant s) (n : ℕ) :
    TicketInvariant { s with queuestat := n } :=
  ⟨hs.order, hs.tickets, hs.held, hs.unique, hs.calls, hs.once⟩

/-- The front of the queue has not been popped before. -/
theorem ticket_notMem {entry : Entry ρ} {rest : List (Entry ρ)}
    (hs : TicketInvariant s) (hqueue : s.workqueue = entry :: rest) :
    entry.1 ∉ s.popped.map Prod.fst := by
  have hnodup : (s.pushed.map Prod.fst).Nodup := by
    rw [hs.tickets]
    exact List.nodup_range
  rw [← hs.order, hqueue, List.map_append, List.map_cons,
    List.nodup_middle] at hnodup
  intro hmem
  exact (List.nodup_cons.mp hnodup).1 (List.mem_append_left _ hmem)

variable [DecidableEq ω]

theorem holding_of_setWorker {v : ω} {x : Worker ρ} {entry : Entry ρ}
    (hx : ∀ entry, x ≠ .holding entry)
    (h : (s.setWorker w x).worker v = .holding entry) :
    v ≠ w ∧ s.worker v = .holding entry := by
  by_cases hv : v = w
  · subst hv
    rw [Pool.worker_setWorker_self] at h
    exact absurd h (hx entry)
  · rw [Pool.worker_setWorker_of_ne _ _ hv] at h
    exact ⟨hv, h⟩

/-- A worker that holds nothing afterwards. -/
theorem setWorker (hs : TicketInvariant s) {x : Worker ρ}
    (hx : ∀ entry, x ≠ .holding entry) : TicketInvariant (s.setWorker w x) := by
  constructor
  · exact hs.order
  · exact hs.tickets
  · intro v entry hv
    exact hs.held (holding_of_setWorker hx hv).2
  · intro v v' entry entry' hv hv' hticket
    exact hs.unique (holding_of_setWorker hx hv).2
      (holding_of_setWorker hx hv').2 hticket
  · exact hs.calls
  · exact hs.once

theorem pop {entry : Entry ρ} {rest : List (Entry ρ)}
    (hs : TicketInvariant s) (hqueue : s.workqueue = entry :: rest) :
    TicketInvariant ((s.pop entry rest).setWorker w (.holding entry)) := by
  have hfresh := hs.ticket_notMem hqueue
  have hother {v : ω} {entry' : Entry ρ} (hv : s.worker v = .holding entry') :
      entry.1 ≠ entry'.1 := by
    intro heq
    exact hfresh (heq ▸ List.mem_map_of_mem (hs.held hv).1)
  -- After the step, a worker holds the new entry or what it held before.
  have hcases {v : ω} {entry' : Entry ρ}
      (hv : ((s.pop entry rest).setWorker w (.holding entry)).worker v =
        .holding entry') :
      v = w ∧ entry' = entry ∨ s.worker v = .holding entry' := by
    by_cases heq : v = w
    · subst heq
      rw [Pool.worker_setWorker_self] at hv
      exact .inl ⟨rfl, (Worker.holding.inj hv).symm⟩
    · rw [Pool.worker_setWorker_of_ne _ _ heq] at hv
      exact .inr hv
  constructor
  · simp only [Pool.setWorker, Pool.pop, ← hs.order, hqueue, List.append_assoc,
      List.singleton_append]
  · exact hs.tickets
  · intro v entry' hv
    rcases hcases hv with ⟨-, rfl⟩ | hv
    · refine ⟨List.mem_append_right _ (List.mem_singleton_self _), ?_⟩
      intro call hcall heq
      exact hfresh (heq ▸ List.mem_map_of_mem (hs.calls call hcall))
    · exact ⟨List.mem_append_left _ (hs.held hv).1, (hs.held hv).2⟩
  · intro v v' e e' hv hv' hticket
    rcases hcases hv with ⟨hw, he⟩ | hv
    · rcases hcases hv' with ⟨hw', -⟩ | hv'
      · rw [hw, hw']
      · rw [he] at hticket
        exact absurd hticket (hother hv')
    · rcases hcases hv' with ⟨-, he'⟩ | hv'
      · rw [he'] at hticket
        exact absurd hticket.symm (hother hv)
      · exact hs.unique hv hv' hticket
  · intro call hcall
    exact List.mem_append_left _ (hs.calls call hcall)
  · exact hs.once

theorem process {ticket : ℕ} {request : ρ} (hs : TicketInvariant s)
    (h : s.worker w = .holding (ticket, some request)) :
    TicketInvariant ((s.process w ticket request).setWorker w .waiting) := by
  constructor
  · exact hs.order
  · exact hs.tickets
  · intro v entry hv
    obtain ⟨hne, hv⟩ := holding_of_setWorker (by simp) hv
    refine ⟨(hs.held hv).1, ?_⟩
    intro call hcall
    rcases List.mem_append.mp hcall with hcall | hcall
    · exact (hs.held hv).2 call hcall
    · rw [List.mem_singleton.mp hcall]
      intro hticket
      exact hne (hs.unique hv h hticket.symm)
  · intro v v' entry entry' hv hv' hticket
    exact hs.unique (holding_of_setWorker (by simp) hv).2
      (holding_of_setWorker (by simp) hv').2 hticket
  · intro call hcall
    rcases List.mem_append.mp hcall with hcall | hcall
    · exact hs.calls call hcall
    · rw [List.mem_singleton.mp hcall]
      exact (hs.held h).1
  · simp only [Pool.setWorker, Pool.process, List.map_append, List.map_cons,
      List.map_nil]
    refine List.nodup_append.mpr ⟨hs.once, List.nodup_singleton _, ?_⟩
    intro t ht t' ht'
    obtain ⟨call, hcall, rfl⟩ := List.mem_map.mp ht
    rw [List.mem_singleton.mp ht']
    exact (hs.held h).2 call hcall

theorem step [DecidableEq α] {max : ℕ} {t : Pool ρ ω α}
    (hs : TicketInvariant s) (h : Step max s t) : TicketInvariant t := by
  cases h with
  | appendFull h hfull => exact hs
  | append h hroom => exact (hs.push _).setAppender _ _
  | post h => exact (hs.setQueuestat _).setAppender _ _
  | wait h htoken => exact (hs.setQueuestat _).setWorker (by simp)
  | waitFails h => exact hs.setWorker (by simp)
  | popNone h hempty => exact hs.setWorker (by simp)
  | pop h hqueue => exact hs.pop hqueue
  | skip h => exact hs.setWorker (by simp)
  | process h => exact hs.process h

end TicketInvariant

/-! ## Tokens -/

section Tokens

variable [Fintype ω] [Fintype α]

/-- The number of workers past `wait` and not yet past the locked section. -/
def Pool.awake (s : Pool ρ ω α) : ℕ :=
  population Worker.isAwake s.worker

/-- The number of calls of `append` past the push and not yet past `post`. -/
def Pool.posting (s : Pool ρ ω α) : ℕ :=
  population Appender.isPosting s.appender

/-- Every request in the queue has a token, a worker that is awake, or a token
that is about to be posted. -/
def Served (s : Pool ρ ω α) : Prop :=
  s.workqueue.length ≤ s.queuestat + s.awake + s.posting

/-- A queue that is not empty is served by a token, a worker that is awake, or a
token that is about to be posted. -/
theorem Served.exists_of_ne_nil {s : Pool ρ ω α} (hs : Served s)
    (h : s.workqueue ≠ []) :
    0 < s.queuestat ∨ (∃ w, s.worker w = .awake) ∨
      ∃ a, s.appender a = .posting := by
  have hlength := List.length_pos_of_ne_nil h
  unfold Served at hs
  by_cases hstat : 0 < s.queuestat
  · exact .inl hstat
  · by_cases hawake : 0 < s.awake
    · obtain ⟨w, hw⟩ := exists_of_population_pos hawake
      refine .inr (.inl ⟨w, ?_⟩)
      cases hworker : s.worker w with
      | awake => rfl
      | _ => simp [hworker, Worker.isAwake] at hw
    · have hposting : 0 < s.posting := by omega
      obtain ⟨a, ha⟩ := exists_of_population_pos hposting
      refine .inr (.inr ⟨a, ?_⟩)
      cases happender : s.appender a with
      | posting => rfl
      | idle => simp [happender, Appender.isPosting] at ha

variable [DecidableEq ω] [DecidableEq α]

theorem Served.step {max : ℕ} {s t : Pool ρ ω α} (hs : Served s)
    (h : Step max s t) : Served t := by
  unfold Served at *
  cases h with
  | appendFull h hfull => exact hs
  | @append a request h hroom =>
      have hposting : ((s.push request).setAppender a .posting).posting =
          s.posting + 1 :=
        population_update_arrives (by rw [Pool.push, h]; rfl) rfl
      have hlength : (s.push request).workqueue.length =
          s.workqueue.length + 1 := List.length_append
      change (s.push request).workqueue.length ≤ s.queuestat + s.awake + _
      omega
  | @post a h =>
      have hposting : (s.post.setAppender a .idle).posting + 1 = s.posting :=
        population_update_leaves (by rw [Pool.post, h]; rfl) rfl
      change s.workqueue.length ≤ s.queuestat + 1 + s.awake + _
      omega
  | @wait w h htoken =>
      have hawake : (s.takeToken.setWorker w .awake).awake = s.awake + 1 :=
        population_update_arrives (by rw [Pool.takeToken, h]; rfl) rfl
      change s.workqueue.length ≤ s.queuestat - 1 + _ + s.posting
      omega
  | @waitFails w h =>
      have hawake : (s.setWorker w .awake).awake = s.awake + 1 :=
        population_update_arrives (by rw [h]; rfl) rfl
      change s.workqueue.length ≤ s.queuestat + _ + s.posting
      omega
  | popNone h hempty =>
      change s.workqueue.length ≤ _
      rw [hempty]
      exact Nat.zero_le _
  | @pop w entry rest h hqueue =>
      have hawake : ((s.pop entry rest).setWorker w (.holding entry)).awake + 1 =
          s.awake :=
        population_update_leaves (by rw [Pool.pop, h]; rfl) rfl
      have hlength : s.workqueue.length = rest.length + 1 := by rw [hqueue]; rfl
      change rest.length ≤ s.queuestat + _ + s.posting
      omega
  | @skip w ticket h =>
      have hawake : (s.setWorker w .waiting).awake = s.awake :=
        population_update_same (by rw [h]; rfl)
      change s.workqueue.length ≤ s.queuestat + _ + s.posting
      omega
  | @process w ticket request h =>
      have hawake : ((s.process w ticket request).setWorker w .waiting).awake =
          s.awake :=
        population_update_same (by rw [Pool.process, h]; rfl)
      change s.workqueue.length ≤ s.queuestat + _ + s.posting
      omega

theorem Reachable.served {max : ℕ} {s : Pool ρ ω α} (h : Reachable max s) :
    Served s := by
  apply invariant_of_run h (Nat.zero_le _)
  intro s t hs hstep
  exact hs.step hstep

omit [Fintype ω] [Fintype α] in
theorem Reachable.ticketInvariant {max : ℕ} {s : Pool ρ ω α}
    (h : Reachable max s) : TicketInvariant s := by
  apply invariant_of_run h .init
  intro s t hs hstep
  exact hs.step hstep

/-- Every request that `append` has accepted is given to `process` at most once,
requests are taken in the order in which they were accepted, and the queue is
never longer than the tokens, the workers awake and the tokens about to be posted
can serve. -/
theorem Reachable.hands_over {max : ℕ} {s : Pool ρ ω α} (h : Reachable max s) :
    (s.processed.map fun call => call.2.1).Nodup ∧
      (∀ call ∈ s.processed, (call.2.1, some call.2.2) ∈ s.pushed) ∧
      s.pushed.map Prod.fst = List.range s.pushed.length ∧
      s.popped ++ s.workqueue = s.pushed ∧
      s.workqueue.length ≤ s.queuestat + s.awake + s.posting ∧
      (s.workqueue ≠ [] → 0 < s.queuestat ∨ (∃ w, s.worker w = .awake) ∨
        ∃ a, s.appender a = .posting) := by
  have htickets := h.ticketInvariant
  refine ⟨htickets.once, ?_, htickets.tickets, htickets.order, h.served,
    h.served.exists_of_ne_nil⟩
  intro call hcall
  rw [← htickets.order]
  exact List.mem_append_left _ (htickets.calls call hcall)

end Tokens

/-- A request is appended, and a worker that came back from `wait` without a token
processes it. -/
theorem hands_over_early :
    ∃ s : Pool ℕ (Fin 2) (Fin 1), Reachable 10000 s ∧
      s.processed = [(1, 0, 7)] ∧
      (s.processed.map fun call => call.2.1).Nodup ∧
      s.popped ++ s.workqueue = s.pushed := by
  let s1 : Pool ℕ (Fin 2) (Fin 1) := (Pool.init.push (some 7)).setAppender 0 .posting
  let s2 := s1.setWorker 1 .awake
  let s3 := (s2.pop (0, some 7) []).setWorker 1 (.holding (0, some 7))
  let s4 := (s3.process 1 0 7).setWorker 1 .waiting
  have h1 : Step 10000 Pool.init s1 := .append rfl (Nat.zero_le _)
  have h2 : Step 10000 s1 s2 := .waitFails rfl
  have h3 : Step 10000 s2 s3 := .pop rfl rfl
  have h4 : Step 10000 s3 s4 := .process rfl
  have hreach : Reachable 10000 s4 :=
    (((ReflTransGen.single h1).tail h2).tail h3).tail h4
  have hover := hreach.hands_over
  exact ⟨s4, hreach, rfl, hover.1, hover.2.2.2.1⟩

end BackendLab.Proactor.ThreadPool
