import BackendLab.Proactor.System.Changes
import BackendLab.Proactor.System.Guarantees

/-!
# The life of a connection

The main thread and the workers make their calls for a connection one behind the
other: `read()`, `process()`, `write()` and again, as the results of the calls
before ask for.  So what the threads leave of a connection, in whatever order they
run and whatever they do for other connections, is what the same calls leave of a
connection that is alone.
-/

namespace BackendLab.Proactor

open Support Relation

/-! ## A connection alone -/

/-- The calls that are made for an open connection. -/
inductive Call where
  | read (outcomes : List RecvOutcome)
  | process (fs : FileSystem)
  | write (outcomes : List HttpConn.WritevOutcome)

/-- The call that comes next, if the connection is not closed before. -/
inductive Next where
  | read
  | process
  | write
  | close
  deriving DecidableEq, Repr

/-- The call that follows when epoll reports what it was asked for. -/
def Interest.next : Interest → Next
  | .input => .read
  | .output => .write

/-- What `main` does behind `write()`. -/
def HttpConn.WriteExit.next (linger : Bool) (exit : HttpConn.WriteExit) : Next :=
  if exit.returns linger then (exit.rearms.map Interest.next).getD .close
  else .close

/-- A connection with what has been sent on it. -/
structure Life where
  conn : HttpConn
  next : Next
  sent : Bytes

namespace Life

/-- The connection that `accept` has returned as `fd`. -/
def start (fd : ℕ) : Life := ⟨{ HttpConn.blank with sockfd := fd }, .read, []⟩

/-- A call in its turn. -/
def call (x : Life) : Call → Option Life
  | .read outcomes =>
      if x.next = .read then
        (x.conn.parser.read outcomes).map fun r =>
          { x with
            conn := x.conn.withParser r.2, next := if r.1 then .process else .close }
      else none
  | .process fs =>
      if x.next = .process then
        some { x with
          conn := (x.conn.process fs).2, next := (x.conn.process fs).1.interest.next }
      else none
  | .write outcomes =>
      if x.next = .write then
        (x.conn.write outcomes).map fun r =>
          ⟨r.conn, r.exit.next x.conn.parser.linger, x.sent ++ r.sent⟩
      else none

def run (x : Life) (calls : List Call) : Option Life :=
  calls.foldlM call x

theorem run_append (x : Life) (calls more : List Call) :
    x.run (calls ++ more) = (x.run calls).bind fun y => y.run more := by
  simp only [run, List.foldlM_append, Option.bind_eq_bind]

theorem run_concat {x y : Life} {calls : List Call} (h : x.run calls = some y)
    (k : Call) : x.run (calls ++ [k]) = y.call k := by
  rw [run_append, h, Option.bind_some, run, List.foldlM_cons]
  simp

end Life

/-! ## The calls of the threads -/

variable {ω : Type*}

/-- The server with the calls that have been made for each descriptor, and the
bytes that have been sent on it, since `accept` has returned it last. -/
structure Traced (ω : Type*) where
  server : Server ω
  calls : ℕ → List Call
  sent : ℕ → Bytes

def Traced.start (users : ℕ → HttpConn) : Traced ω :=
  ⟨.start users, fun _ => [], fun _ => []⟩

/-- The calls for `fd` behind a step. -/
def Label.trace (s : Server ω) (fd : ℕ) (calls : List Call) : Label ω → List Call
  | .accept g => if g = fd ∧ s.userCount < maxFd then [] else calls
  | .read g outcomes => if g = fd then calls ++ [.read outcomes] else calls
  | .process w fs =>
      if s.workers w = .holding fd then calls ++ [.process fs] else calls
  | .write g outcomes => if g = fd then calls ++ [.write outcomes] else calls
  | _ => calls

/-- The bytes that have been sent on `fd` behind a step. -/
def Label.wire (s : Server ω) (fd : ℕ) (sent : Bytes) : Label ω → Bytes
  | .accept g => if g = fd ∧ s.userCount < maxFd then [] else sent
  | .write g outcomes =>
      if g = fd then
        sent ++ (((s.users fd).write outcomes).map HttpConn.WriteResult.sent).getD []
      else sent
  | _ => sent

/-! ## What a step touches -/

/-- The connections that change their place or their state in a step. -/
def Label.Touches (s : Server ω) : Label ω → ℕ → Prop
  | .fetch events, fd => fd ∈ slots events
  | .dispatch, fd => ∃ mask rest, s.batch = .ready fd mask :: rest
  | .accept g, fd | .read g _, fd | .append g, fd | .write g _, fd
  | .closeconn g, fd => g = fd
  | .take _, fd => ∃ rest, s.workqueue = fd :: rest
  | .process w _, fd | .finish w, fd => (s.workers w).slot = some fd
  | .acceptFailed, _ | .post, _ | .wake _, _ => False

namespace Server

variable {s t : Server ω}

theorem untouched_main {m : MainThread} {fd : ℕ} (hs : s.main.slot ≠ some fd)
    (hm : m.slot ≠ some fd) (n : ℤ) (k : ℕ) :
    Untouched s { s with main := m, userCount := n, queuestat := k } fd :=
  ⟨rfl, rfl, rfl, fun _ => Iff.rfl, .inr ⟨hm, hs⟩, Iff.rfl, fun _ => .inl rfl⟩

/-- A step in which the main thread goes on with a connection, and perhaps changes
its object and what epoll waits for. -/
theorem untouched_of_main {m : MainThread} {users : ℕ → HttpConn}
    {armed : ℕ → Option Interest} {n : ℤ} {fd g : ℕ} (hs : s.main.slot = some g)
    (hm : m.slot = some g ∨ m.slot = none) (hne : g ≠ fd)
    (husers : users fd = s.users fd) (harmed : armed fd = s.armed fd) :
    Untouched s { s with users := users, armed := armed, userCount := n, main := m }
      fd := by
  have hslot : s.main.slot ≠ some fd := by
    rw [hs]
    exact fun heq => hne (Option.some.inj heq)
  have hslot' : m.slot ≠ some fd := by
    rcases hm with hm | hm
    · rw [hm]
      exact fun heq => hne (Option.some.inj heq)
    · rw [hm]
      exact Option.some_ne_none fd |>.symm
  exact ⟨husers, rfl, harmed, fun _ => Iff.rfl, .inr ⟨hslot', hslot⟩, Iff.rfl,
    fun _ => .inl rfl⟩

theorem untouched_dispatch {e : Event} {rest : List Event} {fd : ℕ}
    (hmain : s.main = .dispatching) (hbatch : s.batch = e :: rest)
    (hfd : ∀ mask, e ≠ .ready fd mask) :
    Untouched s { s with batch := rest, main := e.handler } fd := by
  have hslot : s.main.slot ≠ some fd := by simp [hmain, MainThread.slot]
  have hmem (mask : EventMask) : .ready fd mask ∈ rest ↔ .ready fd mask ∈ s.batch := by
    rw [hbatch, List.mem_cons]
    exact (or_iff_right (hfd mask).symm).symm
  have hhandler : e.handler.slot ≠ some fd := by
    cases e with
    | listener => simp [Event.handler, MainThread.slot]
    | ready g mask =>
        have hne : g ≠ fd := by
          rintro rfl
          exact hfd mask rfl
        simp only [Event.handler]
        repeat' split
        all_goals simp [MainThread.slot, hne]
  exact ⟨rfl, rfl, rfl, hmem, .inr ⟨hhandler, hslot⟩, Iff.rfl, fun _ => .inl rfl⟩

theorem untouched_accept {fd g : ℕ} (hmain : s.main = .accepting) (hne : g ≠ fd) :
    Untouched s (s.accept g) fd := by
  have hslot : s.main.slot ≠ some fd := by simp [hmain, MainThread.slot]
  rw [Server.accept]
  split
  · exact untouched_main hslot (by simp [MainThread.slot]) _ _
  · exact ⟨by simp [hne.symm], by simp [hne.symm], by simp [hne.symm],
      fun _ => Iff.rfl, .inr ⟨by simp [MainThread.slot], hslot⟩, Iff.rfl,
      fun _ => .inl rfl⟩

/-- What `init()` does behind its object is out of sight of the others. -/
theorem untouched_overrun (s : Server ω) {i fd : ℕ} (hne : fd ≠ i) :
    Untouched s (s.overrun i) fd :=
  ⟨Function.update_of_ne hne _ _, rfl, rfl, fun _ => Iff.rfl, .inl rfl, Iff.rfl,
    fun _ => .inl rfl⟩

/-! ## The place of a connection and its next call -/

/-- At this place, the call that comes next is `next`. -/
def AwaitsAt (s : Server ω) (next : Next) : Place ω → ℕ → Prop
  | .epoll, fd => ∀ ev, s.armed fd = some ev → next = ev.next
  | .events, fd => ∀ mask, .ready fd mask ∈ s.batch →
      (mask.input = true → next = .read) ∧ (mask.output = true → next = .write)
  | .main, fd => (s.main = .reading fd → next = .read) ∧
      (s.main = .appending fd → next = .process) ∧
      (s.main = .writing fd → next = .write)
  | .workqueue, _ => next = .process
  | .worker w, fd => (s.workers w = .holding fd → next = .process) ∧
      ∀ exit, s.workers w = .finishing fd exit → next = exit.interest.next

/-- Where the connection is, the threads are about to make the call `next`. -/
def Awaits (s : Server ω) (fd : ℕ) (next : Next) : Prop :=
  ∀ p, s.At p fd → s.AwaitsAt next p fd

section Awaits

variable {p : Place ω} {fd : ℕ} {next : Next}

theorem Inv.awaits_of_at (h : s.Inv) (hp : s.At p fd) (hnext : s.AwaitsAt next p fd) :
    s.Awaits fd next := by
  intro q hq
  obtain rfl := h.eq_of_at hp hq
  exact hnext

theorem Untouched.awaits (h : Untouched s t fd) (hs : s.Awaits fd next) :
    t.Awaits fd next := by
  intro p hp
  have hawaits := hs p ((h.at_iff p).mp hp)
  cases p with
  | epoll =>
      intro ev hev
      exact hawaits ev (h.armed ▸ hev)
  | events =>
      intro mask hmask
      exact hawaits mask ((h.batch mask).mp hmask)
  | main =>
      rcases h.main with hmain | ⟨hslot, -⟩
      · simpa only [AwaitsAt, hmain] using hawaits
      · exact absurd hp hslot
  | workqueue => exact hawaits
  | worker w =>
      rcases h.workers w with hw | ⟨hslot, -⟩
      · simpa only [AwaitsAt, hw] using hawaits
      · exact absurd hp hslot

end Awaits

/-! ## One step -/

/-- The object of the connection is what the calls leave of a connection that is
alone, and the threads are about to make the call that then comes next. -/
def Lives (s : Server ω) (fd : ℕ) (calls : List Call) (sent : Bytes) : Prop :=
  ∃ next, (Life.start fd).run calls = some ⟨s.users fd, next, sent⟩ ∧
    s.Awaits fd next

section Lives

variable {l : Label ω} {fd : ℕ} {calls : List Call} {sent : Bytes}

theorem trace_of_not_touches (hfd : ¬ l.Touches s fd) :
    l.trace s fd calls = calls ∧ l.wire s fd sent = sent := by
  cases l with
  | accept g =>
      have hne : g ≠ fd := hfd
      simp [Label.trace, Label.wire, hne]
  | read g outcomes =>
      have hne : g ≠ fd := hfd
      simp [Label.trace, Label.wire, hne]
  | write g outcomes =>
      have hne : g ≠ fd := hfd
      simp [Label.trace, Label.wire, hne]
  | process w fs =>
      have hne : s.workers w ≠ .holding fd := by
        intro hw
        exact hfd (congrArg Worker.slot hw)
      simp [Label.trace, Label.wire, hne]
  | _ => exact ⟨rfl, rfl⟩

theorem Untouched.lives (h : Untouched s t fd) (hs : s.Lives fd calls sent) :
    t.Lives fd calls sent := by
  obtain ⟨next, hrun, hawaits⟩ := hs
  refine ⟨next, ?_, h.awaits hawaits⟩
  rw [h.users]
  exact hrun

theorem Inv.lives_fetch (h : s.Inv) {events : List Event}
    (hmain : s.main = .dispatching) (hbatch : s.batch = [])
    (hreports : ∀ e ∈ events, s.Reports e) (honce : (slots events).Nodup)
    (hfd : fd ∈ slots events) (hs : s.Lives fd calls sent) :
    (s.fetch events).Lives fd calls sent := by
  obtain ⟨next, hrun, hawaits⟩ := hs
  refine ⟨next, hrun, (h.fetch hmain hbatch hreports honce).inv.awaits_of_at
    (p := .events) hfd ?_⟩
  intro mask hmask
  obtain ⟨ev, harmed, hinput, houtput, -⟩ := hreports _ hmask
  have hnext := hawaits .epoll (at_epoll_of_reports hmain hreports hfd) ev harmed
  constructor
  · intro hmask
    rw [hnext, hinput hmask, Interest.next]
  · intro hmask
    rw [hnext, houtput hmask, Interest.next]

/-- The branch that is taken is decided by the bits of the event. -/
theorem handler_bits (fd : ℕ) (mask : EventMask) :
    ((Event.ready fd mask).handler = .reading fd → mask.input = true) ∧
      (Event.ready fd mask).handler ≠ .appending fd ∧
      ((Event.ready fd mask).handler = .writing fd → mask.output = true) := by
  obtain ⟨hangup, input, output⟩ := mask
  cases hangup <;> cases input <;> cases output <;> simp [Event.handler]

theorem Inv.lives_dispatch (h : s.Inv) {mask : EventMask} {rest : List Event}
    (hmain : s.main = .dispatching) (hbatch : s.batch = .ready fd mask :: rest)
    (hs : s.Lives fd calls sent) :
    ({ s with batch := rest, main := (Event.ready fd mask).handler } :
      Server ω).Lives fd calls sent := by
  obtain ⟨next, hrun, hawaits⟩ := hs
  have hmem : .ready fd mask ∈ s.batch := by simp [hbatch]
  have hslot := slot_handler fd (h.batch_mask hmem)
  obtain ⟨hread, hwrite⟩ := hawaits .events (mem_slots.mpr ⟨mask, hmem⟩) mask hmem
  refine ⟨next, hrun, (h.dispatch hmain hbatch).inv.awaits_of_at (p := .main) hslot ?_⟩
  obtain ⟨hinput, happend, houtput⟩ := handler_bits fd mask
  exact ⟨fun hhandler => hread (hinput hhandler),
    fun hhandler => absurd hhandler happend,
    fun hhandler => hwrite (houtput hhandler)⟩

theorem Inv.lives_accept (h : s.Inv) (hmain : s.main = .accepting)
    (hfresh : s.isOpen fd = false) (hopen : (s.accept fd).isOpen fd = true) :
    s.userCount < maxFd ∧ (s.accept fd).Lives fd [] [] := by
  have hinv := (h.accept hmain hfresh).inv
  rw [Server.accept] at hopen hinv ⊢
  split at hopen
  · rw [show s.isOpen fd = true from hopen] at hfresh
    cases hfresh
  · next hroom =>
      rw [if_neg hroom] at hinv ⊢
      refine ⟨Int.not_le.mp hroom, .read, ?_, hinv.awaits_of_at (p := .epoll) ?_ ?_⟩
      · simp only [Life.run, Life.start, List.foldlM_nil, Function.update_self]
        rfl
      · simp [At]
      · intro ev hev
        obtain rfl : .input = ev := by simpa using hev
        rfl

theorem Inv.lives_read (h : s.Inv) {outcomes : List RecvOutcome} {ok : Bool}
    {p : Parser} (hmain : s.main = .reading fd)
    (hread : (s.users fd).parser.read outcomes = some (ok, p))
    (hs : s.Lives fd calls sent) :
    (s.read fd ok p).Lives fd (calls ++ [.read outcomes]) sent := by
  obtain ⟨next, hrun, hawaits⟩ := hs
  have hslot : s.main.slot = some fd := by rw [hmain, MainThread.slot]
  obtain rfl : next = .read := (hawaits .main hslot).1 hmain
  refine ⟨if ok then .process else .close, ?_,
    (h.read ok p hmain).inv.awaits_of_at (p := .main) ?_ ?_⟩
  · rw [Life.run_concat hrun, Life.call]
    simp [hread, Server.read]
  · cases ok <;> rfl
  · cases ok <;> simp [AwaitsAt, Server.read]

theorem Inv.lives_append (h : s.Inv) (hmain : s.main = .appending fd)
    (hs : s.Lives fd calls sent) : (s.append fd).Lives fd calls sent := by
  obtain ⟨next, hrun, hawaits⟩ := hs
  have hslot : s.main.slot = some fd := by rw [hmain, MainThread.slot]
  obtain rfl : next = .process := (hawaits .main hslot).2.1 hmain
  by_cases hroom : s.workqueue.length ≤ maxRequestNum
  · have hinv := (h.append hmain hroom).inv
    rw [Server.append, if_neg (Nat.not_lt.mpr hroom)] at hinv ⊢
    exact ⟨.process, hrun, hinv.awaits_of_at (p := .workqueue)
      (List.mem_append_right _ (List.mem_singleton_self fd)) rfl⟩
  · rw [Server.append, if_pos (Nat.not_le.mp hroom)]
    refine ⟨.process, hrun, ?_⟩
    -- The connection is nowhere.
    intro p hp
    have hnot : p ≠ .main → ¬ s.At p fd := h.not_at (p := .main) hslot
    cases p <;> simp_all [At, MainThread.slot]

theorem Inv.lives_write (h : s.Inv) {outcomes : List HttpConn.WritevOutcome}
    {r : HttpConn.WriteResult} (hmain : s.main = .writing fd)
    (hwrite : (s.users fd).write outcomes = some r) (hs : s.Lives fd calls sent) :
    (s.write fd r).Lives fd (calls ++ [.write outcomes]) (sent ++ r.sent) := by
  obtain ⟨next, hrun, hawaits⟩ := hs
  have hslot : s.main.slot = some fd := by rw [hmain, MainThread.slot]
  have hopen : s.isOpen fd = true := h.isOpen_of_slot hslot
  obtain rfl : next = .write := (hawaits .main hslot).2.2 hmain
  have hinv := (h.write hmain hwrite).inv
  obtain ⟨husers, -⟩ := frame_write s fd r
  refine ⟨r.exit.next (s.users fd).parser.linger, ?_, ?_⟩
  · rw [Life.run_concat hrun, Life.call, if_pos rfl, hwrite, husers,
      Function.update_self]
    rfl
  · by_cases hreturns : r.exit.returns (s.users fd).parser.linger = true
    · obtain ⟨ev, hev⟩ : ∃ ev, r.exit.rearms = some ev := by
        cases hev : r.exit.rearms with
        | none => simp [(write_exit hwrite).2.2 hev] at hreturns
        | some ev => exact ⟨ev, rfl⟩
      have heq : s.write fd r = { s with
          users := Function.update s.users fd r.conn
          armed := Function.update s.armed fd (some ev)
          main := .dispatching } := by
        rw [Server.write, hev, h.sockfd_eq hopen]
        simp only [hreturns, if_true]
        exact modifyfd_of_isOpen hopen
      apply hinv.awaits_of_at (p := .epoll)
      · simp [At, heq]
      · intro ev' hev'
        obtain rfl : ev = ev' := by simpa [heq] using hev'
        rw [HttpConn.WriteExit.next, if_pos hreturns, hev]
        rfl
    · have hclosing : (s.write fd r).main = .closing fd := by
        rw [Server.write]
        cases r.exit.rearms with
        | none => simp [hreturns]
        | some ev =>
            simp only [hreturns, modifyfd]
            split <;> rfl
      apply hinv.awaits_of_at (p := .main)
      · simp [At, hclosing, MainThread.slot]
      · simp [AwaitsAt, hclosing]

/-! ### The workers -/

section Workers

variable [DecidableEq ω] {w : ω}

theorem Inv.lives_take (h : s.Inv) {rest : List ℕ} (hw : s.workers w = .awake)
    (hqueue : s.workqueue = fd :: rest) (hs : s.Lives fd calls sent) :
    (s.take w).Lives fd calls sent := by
  obtain ⟨next, hrun, hawaits⟩ := hs
  obtain rfl : next = .process := hawaits .workqueue (by simp [At, hqueue])
  have hinv := (h.take hw).inv
  rw [Server.take, hqueue] at hinv ⊢
  refine ⟨.process, hrun, hinv.awaits_of_at (p := .worker w) ?_ ?_⟩
  · simp [At, Worker.slot]
  · simp [AwaitsAt]

theorem Inv.lives_process (h : s.Inv) (fs : FileSystem)
    (hw : s.workers w = .holding fd) (hs : s.Lives fd calls sent) :
    (s.process w fd fs).Lives fd (calls ++ [.process fs]) sent := by
  obtain ⟨next, hrun, hawaits⟩ := hs
  have hslot : (s.workers w).slot = some fd := by rw [hw, Worker.slot]
  obtain rfl : next = .process := (hawaits (.worker w) hslot).1 hw
  have hinv := (h.process fs hw).inv
  rw [h.process_eq fs hw] at hinv ⊢
  refine ⟨((s.users fd).process fs).1.interest.next, ?_,
    hinv.awaits_of_at (p := .worker w) ?_ ?_⟩
  · rw [Life.run_concat hrun, Life.call, if_pos rfl]
    simp only [Function.update_self]
  · simp [At, Worker.slot]
  · simp [AwaitsAt]

theorem Inv.lives_finish (h : s.Inv) {exit : HttpConn.ProcessExit}
    (hw : s.workers w = .finishing fd exit) (hs : s.Lives fd calls sent) :
    (s.finish w fd exit).Lives fd calls sent := by
  obtain ⟨next, hrun, hawaits⟩ := hs
  have hslot : (s.workers w).slot = some fd := by rw [hw, Worker.slot]
  have hopen : s.isOpen fd = true := h.isOpen_of_at (p := .worker w) hslot
  obtain rfl : next = exit.interest.next := (hawaits (.worker w) hslot).2 exit hw
  have hmain : s.main ≠ .closing fd := by
    intro hclosing
    exact h.not_at (p := .worker w) (q := .main) hslot (by simp)
      (by simp [At, hclosing, MainThread.slot])
  have hinv := (h.finish hw).inv
  rw [Server.finish, h.sockfd_eq hopen, modifyfd_of_isOpen (by exact hopen)] at hinv ⊢
  refine ⟨_, hrun, hinv.awaits_of_at (p := .epoll) ?_ ?_⟩
  · simp [At, hmain]
  · intro ev hev
    obtain rfl : exit.interest = ev := by simpa using hev
    rfl

theorem untouched_worker {w : ω} {x : Worker} {fd : ℕ}
    (hs : (s.workers w).slot ≠ some fd) (hx : x.slot ≠ some fd) (k : ℕ) :
    Untouched s
      { s with queuestat := k, workers := Function.update s.workers w x } fd :=
  ⟨rfl, rfl, rfl, fun _ => Iff.rfl, .inl rfl, Iff.rfl, workers_update hs hx⟩

/-- A step leaves alone what it does not touch. -/
theorem Inv.untouched (h : s.Inv) {l : Label ω} (hmove : Move s l t) {fd : ℕ}
    (hfd : ¬ l.Touches s fd) : Untouched s t fd := by
  cases hmove with
  | fetch hmain hbatch _ _ _ => exact untouched_fetch hbatch hfd
  | dispatch hmain hbatch =>
      apply untouched_dispatch hmain hbatch
      rintro mask rfl
      exact hfd ⟨mask, _, hbatch⟩
  | accept hmain _ _ => exact untouched_accept hmain hfd
  | acceptFailed hmain =>
      have hslot : s.main.slot ≠ some fd := by simp [hmain, MainThread.slot]
      rw [Server.acceptFailed]
      split
      · exact untouched_main hslot (by simp [MainThread.slot]) _ _
      · exact untouched_main hslot (by simp [MainThread.slot]) _ _
  | @read g outcomes ok p hmain _ =>
      have hslot : s.main.slot = some g := by rw [hmain, MainThread.slot]
      refine untouched_of_main hslot ?_ hfd ?_ rfl
      · left
        cases ok <;> rfl
      · simp [Ne.symm hfd]
  | @append g hmain =>
      have hslot : s.main.slot = some g := by rw [hmain, MainThread.slot]
      rw [Server.append]
      split
      · exact untouched_of_main hslot (.inr rfl) hfd rfl rfl
      · have hne : g ≠ fd := hfd
        exact ⟨rfl, rfl, rfl, fun _ => Iff.rfl,
          .inr ⟨by simp [MainThread.slot], by simpa [hslot] using hne⟩,
          by simp [hne.symm], fun _ => .inl rfl⟩
  | post hmain =>
      exact untouched_main (by simp [hmain, MainThread.slot])
        (by simp [MainThread.slot]) _ _
  | @write g outcomes r hmain hwrite =>
      have hslot : s.main.slot = some g := by rw [hmain, MainThread.slot]
      obtain ⟨armed, main, heq, harmed, hcase⟩ :=
        h.write_eq (h.isOpen_of_slot hslot) hwrite
      rw [heq]
      refine untouched_of_main hslot ?_ hfd ?_ (harmed fd (Ne.symm hfd))
      · rcases hcase with rfl | ⟨rfl, -⟩
        · exact .inl rfl
        · exact .inr rfl
      · simp [Ne.symm hfd]
  | @closeconn g hmain =>
      have hslot : s.main.slot = some g := by rw [hmain, MainThread.slot]
      have hne : g ≠ fd := hfd
      rw [h.closeconn_eq hmain]
      exact ⟨by simp [hne.symm], by simp [hne.symm], by simp [hne.symm],
        fun _ => Iff.rfl,
        .inr ⟨by simp [MainThread.slot], by simpa [hslot] using hne⟩, Iff.rfl,
        fun _ => .inl rfl⟩
  | wake hw _ =>
      exact untouched_worker (by simp [hw, Worker.slot]) (by simp [Worker.slot]) _
  | @take w hw =>
      have hslot : (s.workers w).slot ≠ some fd := by simp [hw, Worker.slot]
      rw [Server.take]
      split
      · exact untouched_worker hslot (by simp [Worker.slot]) s.queuestat
      · next g rest hqueue =>
          have hne : g ≠ fd := by
            rintro rfl
            exact hfd ⟨rest, hqueue⟩
          exact ⟨rfl, rfl, rfl, fun _ => Iff.rfl, .inl rfl,
            by simp [hqueue, hne.symm],
            workers_update hslot (by simpa [Worker.slot] using hne)⟩
  | @process w g fs hw =>
      have hslot : (s.workers w).slot = some g := by rw [hw, Worker.slot]
      have hne : g ≠ fd := by
        rintro rfl
        exact hfd hslot
      rw [h.process_eq fs hw]
      exact ⟨by simp [hne.symm], rfl, rfl, fun _ => Iff.rfl, .inl rfl, Iff.rfl,
        workers_update hfd (by simpa [Worker.slot] using hne)⟩
  | @finish w g exit hw =>
      have hslot : (s.workers w).slot = some g := by rw [hw, Worker.slot]
      have hne : g ≠ fd := by
        rintro rfl
        exact hfd hslot
      have hopen : s.isOpen g = true := h.isOpen_of_at (p := .worker w) hslot
      rw [Server.finish, h.sockfd_eq hopen, modifyfd_of_isOpen (by exact hopen)]
      exact ⟨rfl, rfl, by simp [hne.symm], fun _ => Iff.rfl, .inl rfl, Iff.rfl,
        workers_update hfd (by simp [Worker.slot])⟩

/-- A step leads the life of every connection on. -/
theorem Inv.lives_step (h : s.Inv) (hmove : Move s l t)
    (hs : s.isOpen fd = true → s.Lives fd calls sent) (hopen : t.isOpen fd = true) :
    t.Lives fd (l.trace s fd calls) (l.wire s fd sent) := by
  by_cases hfd : l.Touches s fd
  · cases hmove with
    | fetch hmain hbatch _ hreports honce =>
        exact h.lives_fetch hmain hbatch hreports honce hfd (hs hopen)
    | dispatch hmain hbatch =>
        obtain ⟨mask, rest, hready⟩ := hfd
        obtain ⟨rfl, rfl⟩ := List.cons.inj (hbatch.symm.trans hready)
        exact h.lives_dispatch hmain hbatch (hs hopen)
    | accept hmain hfresh _ =>
        obtain rfl := hfd
        obtain ⟨hroom, hlives⟩ := h.lives_accept hmain hfresh hopen
        simpa only [Label.trace, Label.wire, hroom, and_self, if_true] using hlives
    | acceptFailed hmain => exact hfd.elim
    | read hmain hread =>
        obtain rfl := hfd
        simpa only [Label.trace, Label.wire, if_true] using
          h.lives_read hmain hread (hs hopen)
    | append hmain =>
        obtain rfl := hfd
        refine h.lives_append hmain (hs ?_)
        rw [← hopen, Server.append]
        split <;> rfl
    | post hmain => exact hfd.elim
    | write hmain hwrite =>
        obtain rfl := hfd
        rw [(frame_write s _ _).2.1] at hopen
        simpa only [Label.trace, Label.wire, if_true, hwrite, Option.map_some,
          Option.getD_some] using h.lives_write hmain hwrite (hs hopen)
    | closeconn hmain =>
        obtain rfl := hfd
        rw [h.closeconn_eq hmain] at hopen
        simp at hopen
    | wake hw _ => exact hfd.elim
    | take hw =>
        obtain ⟨rest, hqueue⟩ := hfd
        refine h.lives_take hw hqueue (hs ?_)
        rw [← hopen, Server.take, hqueue]
    | @process w g fs hw =>
        obtain rfl : g = fd := by
          rw [Label.Touches, hw, Worker.slot] at hfd
          exact Option.some.inj hfd
        rw [h.process_eq fs hw] at hopen
        simpa only [Label.trace, Label.wire, hw, if_true] using
          h.lives_process fs hw (hs hopen)
    | @finish w g exit hw =>
        obtain rfl : g = fd := by
          rw [Label.Touches, hw, Worker.slot] at hfd
          exact Option.some.inj hfd
        refine h.lives_finish hw (hs ?_)
        rw [← hopen, Server.finish, isOpen_modifyfd]
  · have huntouched := h.untouched hmove hfd
    obtain ⟨htrace, hwire⟩ := trace_of_not_touches hfd
    rw [htrace, hwire]
    exact huntouched.lives (hs (huntouched.isOpen ▸ hopen))

end Workers

end Lives

end Server

/-! ## Whole runs -/

section Runs

variable [DecidableEq ω]

/-- The step writes into no object in use but its own.  A full queue is no
matter. -/
def Spares (s : Server ω) (l : Label ω) : Prop :=
  (∀ fd, l ≠ .append fd) → Careful s l

theorem Server.eq_or_overrun_of_spares {s t u : Server ω} {l : Label ω}
    (hmove : Move s l t) (hstrays : Strays s t u l) (hspares : Spares s l) :
    u = t ∨ ∃ i, t.isOpen i = false ∧ u = t.overrun i := by
  by_cases happend : ∃ fd, l = .append fd
  · obtain ⟨fd, rfl⟩ := happend
    exact .inl hstrays
  · exact eq_or_overrun hmove hstrays (hspares (not_exists.mp happend))

/-- A step of the program that spares the objects in use. -/
def TracedMove (r r' : Traced ω) : Prop :=
  ∃ l, Step r.server l r'.server ∧ Spares r.server l ∧
    (r'.calls = fun fd => l.trace r.server fd (r.calls fd)) ∧
    r'.sent = fun fd => l.wire r.server fd (r.sent fd)

def TracedReachable (r : Traced ω) : Prop :=
  ∃ users, ReflTransGen TracedMove (.start users) r

/-- The run leads the life of every open connection. -/
structure Traced.Inv (r : Traced ω) : Prop where
  server : r.server.Inv
  lives : ∀ fd, r.server.isOpen fd = true →
    r.server.Lives fd (r.calls fd) (r.sent fd)

theorem Traced.Inv.move {r r' : Traced ω} (h : r.Inv) (hmove : TracedMove r r') :
    r'.Inv := by
  obtain ⟨l, ⟨t, hmove, hstrays⟩, hspares, hcalls, hsent⟩ := hmove
  have hinv := h.server.move hmove
  have hlives : ∀ fd, t.isOpen fd = true →
      t.Lives fd (r'.calls fd) (r'.sent fd) := by
    intro fd hopen
    rw [hcalls, hsent]
    exact h.server.lives_step hmove (h.lives fd) hopen
  rcases Server.eq_or_overrun_of_spares hmove hstrays hspares with
    heq | ⟨i, hi, heq⟩
  · constructor
    · rwa [heq]
    · rwa [heq]
  · constructor
    · rw [heq]
      exact hinv.overrun hi
    · intro fd hopen
      rw [heq] at hopen ⊢
      have hne : fd ≠ i := by
        rintro rfl
        rw [show t.isOpen fd = true from hopen] at hi
        cases hi
      exact (t.untouched_overrun hne).lives (hlives fd hopen)

theorem TracedReachable.inv {r : Traced ω} (h : TracedReachable r) : r.Inv := by
  obtain ⟨users, hrun⟩ := h
  refine invariant_of_run (I := Traced.Inv) hrun ?_ fun _ _ => Traced.Inv.move
  refine ⟨Server.start_inv users, ?_⟩
  intro fd hopen
  cases hopen

/-- Under every interleaving of the main thread and the workers in which no step
writes into another object in use, the object of an open connection and the bytes
sent on it are those of a connection that is alone and has had the same calls made
one behind the other, each in its turn; and the threads are about to make the call
that is next. -/
theorem TracedReachable.runs_alone {r : Traced ω} (h : TracedReachable r) {fd : ℕ}
    (hopen : r.server.isOpen fd = true) :
    ∃ next, (Life.start fd).run (r.calls fd) =
        some ⟨r.server.users fd, next, r.sent fd⟩ ∧
      r.server.Awaits fd next :=
  h.inv.lives fd hopen

theorem exists_traced {users : ℕ → HttpConn} {s : Server ω}
    (hrun : ReflTransGen Quiet (.start users) s) :
    ∃ r, TracedReachable r ∧ r.server = s := by
  induction hrun with
  | refl => exact ⟨.start users, ⟨users, .refl⟩, rfl⟩
  | tail _ hquiet ih =>
      obtain ⟨r, ⟨users, hrun⟩, rfl⟩ := ih
      obtain ⟨l, -, hstep, hcareful⟩ := hquiet
      exact ⟨⟨_, fun fd => l.trace r.server fd (r.calls fd),
        fun fd => l.wire r.server fd (r.sent fd)⟩,
        ⟨users, hrun.tail ⟨l, hstep, fun _ => hcareful, rfl, rfl⟩⟩, rfl⟩

/-- A client has sent a byte, which has been read. -/
theorem TracedReachable.runs_alone_filled :
    ∃ r : Traced (Fin 8), r.server.isOpen 5 = true ∧
      ∃ next, (Life.start 5).run (r.calls 5) =
        some ⟨pendingConn 5, next, r.sent 5⟩ := by
  obtain ⟨r, hreach, heq⟩ :=
    exists_traced (start_reaches_filled (ω := Fin 8) (k := 1) (by decide))
  have hopen : r.server.isOpen 5 = true := by
    rw [heq]
    decide
  obtain ⟨next, hrun, -⟩ := hreach.runs_alone hopen
  have husers : r.server.users 5 = pendingConn 5 := by
    rw [heq]
    rfl
  rw [husers] at hrun
  exact ⟨r, hopen, next, hrun⟩

end Runs

end BackendLab.Proactor
