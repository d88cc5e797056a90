import BackendLab.Proactor.System.Accounting

/-!
# The clients that wait to be accepted

The listening socket is registered edge-triggered: an arrival raises an edge,
and arrivals before the edge is delivered make one event.  The main loop calls
`accept` once for an event, whatever the number of clients that wait.
-/

namespace BackendLab.Proactor

open Support Relation

variable {ω : Type*}

/-! ## The main thread -/

/-- The step takes up events or calls `accept`. -/
def Label.listens : Label ω → Bool
  | .fetch _ | .dispatch | .accept _ | .acceptFailed => true
  | _ => false

/-- How a step changes the events still to be handled, and where the main thread
stands with respect to `accept`. -/
inductive Turn (s : Server ω) : Label ω → Server ω → Prop
  | fetch {events : List Event} {t : Server ω} (hmain : s.main = .dispatching)
      (hbatch : s.batch = []) (batch : t.batch = events)
      (main : t.main = .dispatching) : Turn s (.fetch events) t
  | dispatch {e : Event} {t : Server ω} (hmain : s.main = .dispatching)
      (hbatch : s.batch = e :: t.batch) (main : t.main = e.handler) :
      Turn s .dispatch t
  | accept {fd : ℕ} {t : Server ω} (hmain : s.main = .accepting)
      (batch : t.batch = s.batch) (main : t.main = .dispatching) :
      Turn s (.accept fd) t
  | acceptFailed {t : Server ω} (hmain : s.main = .accepting)
      (batch : t.batch = s.batch) (main : t.main = .dispatching) :
      Turn s .acceptFailed t
  | other {l : Label ω} {t : Server ω} (hl : l.listens = false)
      (batch : t.batch = s.batch)
      (main : t.main = .accepting ↔ s.main = .accepting) : Turn s l t

theorem Turn.congr {s t u : Server ω} {l : Label ω} (h : Turn s l t)
    (hbatch : u.batch = t.batch) (hmain : u.main = t.main) : Turn s l u := by
  cases h with
  | fetch hs hempty batch main =>
      exact .fetch hs hempty (hbatch.trans batch) (hmain.trans main)
  | dispatch hs hcons main =>
      exact .dispatch hs (by rw [hbatch, hcons]) (hmain.trans main)
  | accept hs batch main =>
      exact .accept hs (hbatch.trans batch) (hmain.trans main)
  | acceptFailed hs batch main =>
      exact .acceptFailed hs (hbatch.trans batch) (hmain.trans main)
  | other hl batch main =>
      exact .other hl (hbatch.trans batch) (by rw [hmain, main])

theorem Event.handler_eq_accepting {e : Event} :
    e.handler = .accepting ↔ e = .listener := by
  cases e with
  | listener => simp [handler]
  | ready fd mask =>
      simp only [handler, reduceCtorEq, iff_false]
      repeat' split
      all_goals simp

namespace Server

variable {s t u : Server ω}

theorem turn_modifyfd (s : Server ω) (fd : ℤ) (ev : Interest) :
    (s.modifyfd fd ev).batch = s.batch ∧ (s.modifyfd fd ev).main = s.main := by
  rw [modifyfd]
  split
  · exact ⟨rfl, rfl⟩
  · exact ⟨rfl, rfl⟩

theorem turn_write (s : Server ω) (fd : ℕ) (r : HttpConn.WriteResult) :
    (s.write fd r).batch = s.batch ∧ (s.write fd r).main ≠ .accepting := by
  have hmain : (if r.exit.returns (s.users fd).parser.linger
      then MainThread.dispatching else .closing fd) ≠ .accepting := by
    split
    · simp
    · simp
  rw [Server.write]
  cases r.exit.rearms with
  | none => exact ⟨rfl, hmain⟩
  | some ev =>
      obtain ⟨hbatch, heq⟩ := turn_modifyfd
        { s with
          users := Function.update s.users fd r.conn
          main := if r.exit.returns (s.users fd).parser.linger
            then .dispatching else .closing fd } (s.users fd).sockfd ev
      exact ⟨hbatch, by rwa [heq]⟩

theorem turn_of_strays {l : Label ω} (h : Strays s t u l) :
    u.batch = t.batch ∧ u.main = t.main := by
  cases l with
  | accept fd | acceptFailed =>
      simp only [Strays] at h
      split at h
      · exact ⟨by rw [h], by rw [h]⟩
      · exact ⟨by rw [h, overrun], by rw [h, overrun]⟩
  | write fd outcomes =>
      obtain ⟨r, -, h⟩ := h
      split at h
      · exact ⟨by rw [h, overrun], by rw [h, overrun]⟩
      · exact ⟨by rw [h], by rw [h]⟩
  | process w fs =>
      obtain ⟨fd, -, rfl | ⟨-, users, rfl⟩⟩ := h
      · exact ⟨rfl, rfl⟩
      · exact ⟨rfl, rfl⟩
  | _ =>
      have heq : u = t := h
      exact ⟨by rw [heq], by rw [heq]⟩

variable [DecidableEq ω]

theorem turn_of_move {l : Label ω} (h : Move s l t) : Turn s l t := by
  cases h with
  | fetch hmain hbatch _ _ _ => exact .fetch hmain hbatch rfl hmain
  | dispatch hmain hbatch => exact .dispatch hmain hbatch rfl
  | accept hmain _ _ =>
      rw [Server.accept]
      split
      · exact .accept hmain rfl rfl
      · exact .accept hmain rfl rfl
  | acceptFailed hmain =>
      rw [Server.acceptFailed]
      split
      · exact .acceptFailed hmain rfl rfl
      · exact .acceptFailed hmain rfl rfl
  | @read fd _ ok p hmain _ =>
      refine .other rfl rfl ?_
      cases ok <;> simp [Server.read, hmain]
  | append hmain =>
      rw [Server.append]
      split
      · exact .other rfl rfl (by simp [hmain])
      · exact .other rfl rfl (by simp [hmain])
  | post hmain =>
      exact .other rfl rfl
        (by simp [Server.post, hmain])
  | write hmain _ =>
      obtain ⟨hbatch, hne⟩ := turn_write s _ _
      exact .other rfl hbatch (by simp [hne, hmain])
  | closeconn hmain =>
      rw [Server.closeconn]
      split
      · exact .other rfl rfl (by simp [hmain])
      · refine .other rfl ?_ (by simp [hmain])
        simp only [removefd]
        split <;> rfl
  | wake _ _ => exact .other rfl rfl Iff.rfl
  | take _ =>
      rw [Server.take]
      split
      · exact .other rfl rfl Iff.rfl
      · exact .other rfl rfl Iff.rfl
  | process _ =>
      simp only [Server.process, removefd]
      repeat' split
      all_goals exact .other rfl rfl Iff.rfl
  | @finish w fd exit _ =>
      obtain ⟨hbatch, hmain⟩ := turn_modifyfd
        { s with workers := Function.update s.workers w .idle }
        (s.users fd).sockfd exit.interest
      exact .other rfl hbatch
        (by rw [Server.finish, hmain])

theorem turn_of_loopStep {l : Label ω} (h : LoopStep s l u) : Turn s l u := by
  cases h with
  | step hstep =>
      obtain ⟨t, hmove, hstrays⟩ := hstep
      obtain ⟨hbatch, hmain⟩ := turn_of_strays hstrays
      exact (turn_of_move hmove).congr hbatch hmain
  | @acceptBeyond fd users hmain _ _ _ =>
      refine .accept hmain ?_ ?_
      · rw [Server.accept]
        split <;> rfl
      · rw [Server.accept]
        split <;> rfl

end Server

/-! ## The backlog -/

/-- The server with its listening socket: the number of clients that are
connected and not accepted, and whether an edge is still to be delivered. -/
structure Listening (ω : Type*) where
  server : Server ω
  backlog : ℕ
  edge : Bool

namespace Listening

/-- `main` enters its loop.  Clients may have come since `listen`; `addfd` raises
an edge for them. -/
def start (users : ℕ → HttpConn) (backlog : ℕ) : Listening ω where
  server := .start users
  backlog := backlog
  edge := decide (0 < backlog)

def arrive (s : Listening ω) : Listening ω :=
  { s with backlog := s.backlog + 1, edge := true }

/-- What a step of the program does to the listening socket.  `epoll_wait`
delivers an edge, once; an `accept` that succeeds takes one client, and one that
fails none. -/
def Listens (s t : Listening ω) : Label ω → Prop
  | .fetch events =>
      events.count .listener ≤ 1 ∧ (.listener ∈ events → s.edge = true) ∧
        t.backlog = s.backlog ∧
          t.edge = (s.edge && decide (.listener ∉ events))
  | .accept _ => t.backlog + 1 = s.backlog ∧ t.edge = s.edge
  | _ => t.backlog = s.backlog ∧ t.edge = s.edge

/-- The main loop is about to block in `epoll_wait`. -/
def Waiting (s : Listening ω) : Prop :=
  s.server.main = .dispatching ∧ s.server.batch = []

/-- A call of `accept` takes the only client that waits, or an edge is pending
for the others. -/
def Drains (s : Listening ω) : Label ω → Prop
  | .accept _ => s.backlog ≤ 1 ∨ s.edge = true
  | .acceptFailed => s.backlog = 0 ∨ s.edge = true
  | _ => True

/-- At most one event for the listening socket is on its way, and there is one
if clients wait and no edge is pending. -/
structure Heard (s : Listening ω) : Prop where
  once : s.server.batch.count .listener +
    (if s.server.main = .accepting then 1 else 0) ≤ 1
  heard : s.edge = false → 0 < s.backlog →
    .listener ∈ s.server.batch ∨ s.server.main = .accepting

/-- Clients wait, and nothing will tell the main loop. -/
structure Forgotten (s : Listening ω) : Prop where
  edge : s.edge = false
  backlog_pos : 0 < s.backlog
  batch : .listener ∉ s.server.batch
  main : s.server.main ≠ .accepting

variable {s t u : Listening ω}

theorem heard_start (users : ℕ → HttpConn) (backlog : ℕ) :
    (start users backlog : Listening ω).Heard where
  once := by simp [start, Server.start]
  heard := by
    intro hedge hpos
    simp only [start, decide_eq_false_iff_not] at hedge
    exact absurd hpos hedge

theorem Heard.arrive (h : s.Heard) : s.arrive.Heard where
  once := h.once
  heard := by simp [Listening.arrive]

/-- A step that takes up no event of the listening socket leaves it alone. -/
theorem listens_of_other {l : Label ω} (hl : l.listens = false)
    (h : s.Listens t l) : t.backlog = s.backlog ∧ t.edge = s.edge := by
  cases l with
  | fetch _ => cases hl
  | accept _ => cases hl
  | _ => exact h

theorem Heard.turn (h : s.Heard) {l : Label ω} (hturn : Turn s.server l t.server)
    (hlistens : s.Listens t l) (hl : s.Drains l) : t.Heard := by
  have honce := h.once
  have hheard := h.heard
  have haccept : s.server.main = .accepting →
      t.server.batch = s.server.batch → t.server.main = .dispatching →
      t.edge = s.edge → t.backlog = 0 ∨ s.edge = true → t.Heard := by
    intro hmain batch main hedge hdrained
    refine ⟨?_, ?_⟩
    · rw [batch, main]
      rw [hmain] at honce
      simp only [reduceCtorEq, if_false, if_true] at honce ⊢
      omega
    · intro hoff hpos
      rw [hedge] at hoff
      rcases hdrained with hzero | hon
      · omega
      · simp [hoff] at hon
  cases hturn with
  | fetch hmain hbatch batch main =>
      obtain ⟨hcount, -, hbacklog, hedge⟩ := hlistens
      refine ⟨by simpa [batch, main] using hcount, ?_⟩
      intro hoff hpos
      rw [hedge, Bool.and_eq_false_iff, decide_eq_false_iff_not, not_not] at hoff
      rcases hoff with hoff | hmem
      · rw [hbacklog] at hpos
        simpa [hmain, hbatch] using hheard hoff hpos
      · exact Or.inl (by rwa [batch])
  | @dispatch e _ hmain hbatch main =>
      obtain ⟨hbacklog, hedge⟩ := hlistens
      rw [hbatch, hmain, List.count_cons] at honce
      refine ⟨?_, ?_⟩
      · rw [main]
        simp only [Event.handler_eq_accepting, beq_iff_eq] at honce ⊢
        exact honce
      · intro hoff hpos
        rw [hedge] at hoff
        rw [hbacklog] at hpos
        rw [main, Event.handler_eq_accepting, or_comm]
        simpa [hmain, hbatch, eq_comm] using hheard hoff hpos
  | accept hmain batch main =>
      obtain ⟨hbacklog, hedge⟩ := hlistens
      refine haccept hmain batch main hedge ?_
      rcases hl with hle | hon
      · exact Or.inl (by omega)
      · exact Or.inr hon
  | acceptFailed hmain batch main =>
      obtain ⟨hbacklog, hedge⟩ := hlistens
      refine haccept hmain batch main hedge ?_
      rwa [hbacklog]
  | other hother batch main =>
      obtain ⟨hbacklog, hedge⟩ := listens_of_other hother hlistens
      refine ⟨?_, ?_⟩
      · simpa only [batch, main] using honce
      · rw [hbacklog, hedge, batch, main]
        exact hheard

/-- An `accept` that leaves clients behind makes the main loop forget them. -/
theorem Heard.forgotten (h : s.Heard) {l : Label ω}
    (hturn : Turn s.server l t.server) (hlistens : s.Listens t l)
    (hl : ¬ s.Drains l) : t.Forgotten := by
  have honce := h.once
  have hdone : s.server.main = .accepting → t.server.batch = s.server.batch →
      t.server.main = .dispatching → t.edge = s.edge → s.edge = false →
      0 < t.backlog → t.Forgotten := by
    intro hmain hbatch hmain' hedge hoff hpos
    refine ⟨hedge.trans hoff, hpos, ?_, by simp [hmain']⟩
    rw [hbatch, ← List.count_pos_iff]
    rw [hmain] at honce
    simp only [if_true] at honce
    omega
  cases l with
  | accept fd =>
      simp only [Drains, not_or, Nat.not_le, Bool.not_eq_true] at hl
      obtain ⟨hbacklog, hedge⟩ := hlistens
      cases hturn with
      | accept hmain batch main =>
          exact hdone hmain batch main hedge hl.2 (by omega)
      | other hother _ _ => cases hother
  | acceptFailed =>
      simp only [Drains, not_or, Bool.not_eq_true] at hl
      obtain ⟨hbacklog, hedge⟩ := hlistens
      cases hturn with
      | acceptFailed hmain batch main =>
          exact hdone hmain batch main hedge hl.2 (by omega)
      | other hother _ _ => cases hother
  | _ => exact absurd trivial hl

/-- Nothing the program does brings them back. -/
theorem Forgotten.turn (h : s.Forgotten) {l : Label ω}
    (hturn : Turn s.server l t.server) (hlistens : s.Listens t l) :
    t.Forgotten := by
  cases hturn with
  | fetch hmain hbatch batch main =>
      obtain ⟨-, hedge, hbacklog, hoff⟩ := hlistens
      refine ⟨by rw [hoff, h.edge, Bool.false_and], by
        rw [hbacklog]
        exact h.backlog_pos, ?_, by simp [main]⟩
      rw [batch]
      intro hmem
      have hon := hedge hmem
      rw [h.edge] at hon
      cases hon
  | dispatch hmain hbatch main =>
      obtain ⟨hbacklog, hedge⟩ := hlistens
      have hnot := h.batch
      rw [hbatch, List.mem_cons, not_or] at hnot
      refine ⟨hedge.trans h.edge, hbacklog ▸ h.backlog_pos, hnot.2, ?_⟩
      rw [main, ne_eq, Event.handler_eq_accepting]
      exact Ne.symm hnot.1
  | accept hmain _ _ => exact absurd hmain h.main
  | acceptFailed hmain _ _ => exact absurd hmain h.main
  | other hother batch main =>
      obtain ⟨hbacklog, hedge⟩ := listens_of_other hother hlistens
      exact ⟨hedge.trans h.edge, hbacklog ▸ h.backlog_pos, by
        rw [batch]
        exact h.batch, by
        rw [ne_eq, main]
        exact h.main⟩

/-! ## Runs -/

variable [DecidableEq ω]

def Serves (s : Listening ω) (l : Label ω) (t : Listening ω) : Prop :=
  LoopStep s.server l t.server ∧ s.Listens t l

/-- If every call of `accept` takes the only client that waits, or finds an edge
pending, no client waits when the main loop blocks without one.  After a call
that does not, clients wait until another one arrives. -/
theorem backlog_eq_zero (users : ℕ → HttpConn) (backlog : ℕ)
    (hrun : ReflTransGen
      (fun s t => t = s.arrive ∨ ∃ l, s.Serves l t ∧ s.Drains l)
      (start users backlog) s) :
    (s.Waiting → s.edge = false → s.backlog = 0) ∧
      ∀ l t u, s.Serves l t → ¬ s.Drains l →
        ReflTransGen (fun s t => ∃ l, s.Serves l t) t u →
          u.edge = false ∧ 0 < u.backlog := by
  have hheard : s.Heard := by
    apply invariant_of_run hrun (heard_start users backlog)
    rintro s t hs (rfl | ⟨l, ⟨hstep, hlistens⟩, hl⟩)
    · exact hs.arrive
    · exact hs.turn (Server.turn_of_loopStep hstep) hlistens hl
  constructor
  · rintro ⟨hmain, hbatch⟩ hoff
    by_contra hne
    have hsome := hheard.heard hoff (Nat.pos_of_ne_zero hne)
    simp [hmain, hbatch] at hsome
  · intro l t u hserves hl hrest
    obtain ⟨hstep, hlistens⟩ := hserves
    have hfirst : t.Forgotten :=
      hheard.forgotten (Server.turn_of_loopStep hstep) hlistens hl
    have hlast : u.Forgotten := by
      apply invariant_of_run hrest hfirst
      rintro s t hs ⟨l, hstep, hlistens⟩
      exact hs.turn (Server.turn_of_loopStep hstep) hlistens
    exact ⟨hlast.edge, hlast.backlog_pos⟩

/-- Told of `k + 1` clients by one event, the main loop accepts one of them. -/
theorem accepts_one {k : ℕ} :
    ∃ s t : Listening (Fin 8), s.backlog = k + 1 ∧ s.edge = false ∧
      t.Waiting ∧ t.backlog = k ∧ t.edge = false ∧
      s.Serves (.accept 5) t ∧
      ReflTransGen (fun s t => ∃ l, s.Serves l t ∧ s.Drains l)
        ⟨.start fun _ => HttpConn.blank, k + 1, true⟩ s := by
  let s₀ : Server (Fin 8) := .start fun _ => HttpConn.blank
  let s₁ := s₀.fetch [.listener]
  let s₂ : Server (Fin 8) := Server.arriving fun _ => HttpConn.blank
  have h₁ : Move s₀ (.fetch [.listener]) s₁ :=
    .fetch rfl rfl (by decide) (by simp [Server.Reports]) (by decide)
  have h₂ : Move s₁ .dispatch s₂ :=
    @Move.dispatch _ _ s₁ .listener [] rfl rfl
  have h₃ : Move s₂ (.accept 5) (s₂.accept 5) := .accept rfl rfl (by decide)
  have hroom : ¬ maxFd ≤ s₂.userCount := by decide
  have hfetch : Serves ⟨s₀, k + 1, true⟩ (.fetch [.listener])
      ⟨s₁, k + 1, false⟩ :=
    ⟨.step ⟨_, h₁, rfl⟩, by decide, by simp, rfl, by simp⟩
  have hdispatch : Serves ⟨s₁, k + 1, false⟩ .dispatch ⟨s₂, k + 1, false⟩ :=
    ⟨.step ⟨_, h₂, rfl⟩, rfl, rfl⟩
  refine ⟨⟨s₂, k + 1, false⟩, ⟨(s₂.accept 5).overrun 6, k, false⟩, rfl, rfl,
    ⟨rfl, rfl⟩, rfl, rfl, ⟨.step ⟨_, h₃, (if_neg hroom).symm⟩, rfl, rfl⟩, ?_⟩
  exact (ReflTransGen.single ⟨_, hfetch, trivial⟩).tail ⟨_, hdispatch, trivial⟩

/-- One client, who is accepted. -/
theorem backlog_eq_zero_one :
    ∃ t : Listening (Fin 8), t.Waiting ∧ t.edge = false ∧ t.backlog = 0 := by
  obtain ⟨s, t, hs, -, hwaiting, -, hedge, hserves, hrun⟩ := accepts_one (k := 0)
  have hstart : ReflTransGen
      (fun s t : Listening (Fin 8) =>
        t = s.arrive ∨ ∃ l, s.Serves l t ∧ s.Drains l)
      (start (fun _ => HttpConn.blank) 1) s :=
    ReflTransGen.mono (fun _ _ hstep => Or.inr hstep) _ _ hrun
  have hlast := hstart.tail (Or.inr ⟨_, hserves, Or.inl (by omega)⟩)
  exact ⟨t, hwaiting, hedge,
    (backlog_eq_zero _ _ hlast).1 hwaiting hedge⟩

/-- Two clients arrive before the main loop is told of the first: it blocks with
one of them still in the queue. -/
theorem backlog_forgotten :
    ∃ t : Listening (Fin 8),
      ReflTransGen (fun s t => t = s.arrive ∨ ∃ l, s.Serves l t)
        (start (fun _ => HttpConn.blank) 0) t ∧
      t.Waiting ∧ t.edge = false ∧ t.backlog = 1 := by
  obtain ⟨s, t, -, -, hwaiting, hback, hedge, hserves, hrun⟩ :=
    accepts_one (k := 1)
  have harrive : ReflTransGen
      (fun s t : Listening (Fin 8) => t = s.arrive ∨ ∃ l, s.Serves l t)
      (start (fun _ => HttpConn.blank) 0)
      ⟨.start fun _ => HttpConn.blank, 2, true⟩ :=
    .head (b := (start (fun _ => HttpConn.blank) 0).arrive) (Or.inl rfl)
      (.single (Or.inl rfl))
  have hmain : ReflTransGen
      (fun s t : Listening (Fin 8) => t = s.arrive ∨ ∃ l, s.Serves l t)
      ⟨.start fun _ => HttpConn.blank, 2, true⟩ s := by
    refine ReflTransGen.mono ?_ _ _ hrun
    rintro s t ⟨l, hstep, -⟩
    exact Or.inr ⟨l, hstep⟩
  exact ⟨t, (harrive.trans hmain).tail (Or.inr ⟨_, hserves⟩), hwaiting, hedge,
    hback⟩

end Listening

end BackendLab.Proactor
