import BackendLab.Proactor.Responses.Fetching
import BackendLab.Proactor.System.Lives

/-!
# Clients of the running server

Any number of connections are served by one main thread and any number of
workers.  What a client reads on its own connection is still decided by its own
requests: the calls that the threads make for the connection are those that a
connection alone would have, and so are the responses.
-/

namespace BackendLab.Proactor

open Support Relation

/-! ## The calls for one request -/

/-- What the kernel reports while a request is served: for each `read()` the
pieces that its `recv` calls find, the last one completing the request, and for
each `write()` what its `writev` calls report. -/
structure Exchange where
  reads : List (List Bytes)
  last : List Bytes
  calls : List (List HttpConn.WritevOutcome)

/-- The `recv` calls of a `read()` that finds these pieces. -/
def received (pieces : List Bytes) : List RecvOutcome :=
  pieces.map .data ++ [.eagain]

namespace Exchange

def turn (x : Exchange) : HttpConn.Turn :=
  ⟨x.reads.map List.flatten, x.last.flatten, x.calls⟩

/-- The calls for a request, with the file system that `process()` finds. -/
def log (fs : FileSystem) (x : Exchange) : List Call :=
  (x.reads.flatMap fun pieces => [.read (received pieces), .process fs]) ++
    ([.read (received x.last), .process fs] ++ x.calls.map .write)

/-- The exchange is about a request, and no `recv` returns zero. -/
structure Carries (fs : FileSystem) (x : Exchange) (request : Bytes) : Prop where
  turn : x.turn.Carries fs request
  pieces : ∀ pieces ∈ x.reads, pieces ≠ [] ∧ ∀ bytes ∈ pieces, bytes ≠ []
  last : ∀ bytes ∈ x.last, bytes ≠ []

end Exchange

theorem readLoop_received {c : Parser} {pieces : List Bytes}
    (hpieces : ∀ bytes ∈ pieces, bytes ≠ [])
    (hfit : c.readIdx + pieces.flatten.length ≤ readBufferSize) :
    c.readLoop (received pieces) = some (true, c.receive pieces.flatten) := by
  induction pieces generalizing c with
  | nil =>
      have hsame : c.receive [] = c := by simp [Parser.receive, store]
      rw [List.flatten_nil, hsame]
      rfl
  | cons bytes pieces ih =>
      obtain ⟨hbytes, hpieces⟩ := List.forall_mem_cons.mp hpieces
      rw [List.flatten_cons, List.length_append] at hfit
      have htake : bytes.take (readBufferSize - c.readIdx) = bytes :=
        List.take_of_length_le (by omega)
      have hnext := @ih (c.receive bytes) hpieces (by
        rw [Parser.receive_readIdx]
        omega)
      rw [Parser.receive_receive, ← List.flatten_cons] at hnext
      rw [received, List.map_cons, List.cons_append, Parser.readLoop, htake,
        if_neg hbytes]
      exact hnext

theorem read_received {c : Parser} {pieces : List Bytes} (hne : pieces ≠ [])
    (hpieces : ∀ bytes ∈ pieces, bytes ≠ [])
    (hfit : c.readIdx + pieces.flatten.length ≤ readBufferSize) :
    c.read (received pieces) = some (true, c.receive pieces.flatten) := by
  obtain ⟨bytes, hbytes⟩ := List.exists_mem_of_ne_nil pieces hne
  have hpos : 0 < pieces.flatten.length := by
    apply List.length_pos_iff.mpr
    intro hnil
    exact hpieces bytes hbytes (List.flatten_eq_nil_iff.mp hnil bytes hbytes)
  rw [Parser.read, if_neg (by omega)]
  exact readLoop_received hpieces hfit

/-! ## The life of a connection during a request -/

section Requests

variable {fs : FileSystem} {c conn : HttpConn} {xs : List Bytes}
  {reads : List (List Bytes)} {r last sent : Bytes}

theorem run_read_process {d : HttpConn} {p : Parser} {outcomes : List RecvOutcome}
    {exit : HttpConn.ProcessExit} (hread : c.parser.read outcomes = some (true, p))
    (hprocess : (c.withParser p).process fs = (exit, d)) (sent : Bytes) :
    (⟨c, .read, sent⟩ : Life).run [.read outcomes, .process fs] =
      some ⟨d, exit.interest.next, sent⟩ := by
  simp [Life.run, Life.call, hread, hprocess]

/-- The reads before the last one. -/
theorem run_reads (fs : FileSystem) (hp : HttpConn.Pending c conn xs r)
    {h : Head} (hhead : parseHead r = .complete h []) (hfit : r.length ≤ readBufferSize)
    (hbytes : xs.flatten ++ ((reads.map List.flatten).flatten ++ last) = r)
    (hlast : last ≠ [])
    (hpieces : ∀ pieces ∈ reads, pieces ≠ [] ∧ ∀ bytes ∈ pieces, bytes ≠ [])
    (sent : Bytes) :
    ∃ d, (⟨c, .read, sent⟩ : Life).run
        (reads.flatMap fun pieces => [.read (received pieces), .process fs]) =
          some ⟨d, .read, sent⟩ ∧
      HttpConn.Pending d conn (xs ++ reads.map List.flatten) r := by
  induction reads generalizing c xs with
  | nil =>
      refine ⟨c, rfl, ?_⟩
      rwa [List.map_nil, List.append_nil]
  | cons pieces reads ih =>
      obtain ⟨⟨hne, hfound⟩, hpieces⟩ := List.forall_mem_cons.mp hpieces
      rw [List.map_cons, List.flatten_cons, List.append_assoc,
        ← List.append_assoc] at hbytes
      have hrest : (reads.map List.flatten).flatten ++ last ≠ [] := by
        intro hnil
        exact hlast (List.append_eq_nil_iff.mp hnil).2
      obtain ⟨d, hwait, hd⟩ := hp.process_more fs hhead hfit hbytes hrest
      have hlen := congrArg List.length hbytes
      rw [List.length_append, List.length_append] at hlen
      have hread := read_received (c := c.parser) hne hfound (by
        rw [hp.readIdx (by omega)]
        omega)
      have hflat : (xs ++ [pieces.flatten]).flatten =
          xs.flatten ++ pieces.flatten := by
        simp
      obtain ⟨e, he, hpending⟩ := ih hd (by rw [hflat]; exact hbytes) hpieces
      rw [List.append_assoc, List.singleton_append] at hpending
      refine ⟨e, ?_, hpending⟩
      rw [List.flatMap_cons, Life.run_append, run_read_process hread hwait]
      exact he

/-- `write()` is not called out of its turn. -/
theorem eq_nil_of_run_write {x y : Life}
    {calls : List (List HttpConn.WritevOutcome)} (hx : x.next ≠ .write)
    (hrun : x.run (calls.map .write) = some y) : calls = [] ∧ y = x := by
  cases calls with
  | nil => exact ⟨rfl, (Option.some.inj hrun).symm⟩
  | cons outcomes calls =>
      rw [List.map_cons, Life.run, List.foldlM_cons, Life.call, if_neg hx] at hrun
      cases hrun

/-- The calls of `write()`, up to the completion branch. -/
theorem respond_of_run {calls : List (List HttpConn.WritevOutcome)} {y : Life}
    (hpos : 0 < c.writeIdx)
    (hrun : (⟨c, .write, sent⟩ : Life).run (calls.map .write) = some y)
    (hnext : y.next = .read) :
    ∃ wire, c.respond calls = some (wire, y.conn) ∧ y.sent = sent ++ wire := by
  induction calls generalizing sent with
  | nil =>
      obtain rfl := Option.some.inj hrun
      cases hnext
  | cons outcomes calls ih =>
      rw [List.map_cons, Life.run, List.foldlM_cons, Option.bind_eq_bind,
        Option.bind_eq_some_iff] at hrun
      obtain ⟨z, hcall, hrun⟩ := hrun
      rw [Life.call, if_pos rfl] at hcall
      obtain ⟨w, hwrite, rfl⟩ := Option.map_eq_some_iff.mp hcall
      obtain ⟨exit, conn, bytes⟩ := w
      rw [HttpConn.respond]
      rcases HttpConn.write_cases hwrite hpos with ⟨hexit, hconn, -⟩ |
        ⟨hexit, -⟩ | ⟨hexit, -⟩
      · obtain ⟨rfl, rfl⟩ : exit = .again ∧ conn = c := ⟨hexit, hconn⟩
        obtain ⟨wire, hwire, hsent⟩ := ih hrun
        refine ⟨bytes ++ wire, ?_, ?_⟩
        · simp only [hwrite, hwire, Option.map_some]
        · rw [hsent, List.append_assoc]
      · obtain rfl : exit = .failed := hexit
        obtain ⟨-, rfl⟩ := eq_nil_of_run_write (fun h => by cases h) hrun
        cases hnext
      · obtain rfl : exit = .completed := hexit
        have hturn : HttpConn.WriteExit.completed.next c.parser.linger ≠ .write := by
          cases c.parser.linger <;> decide
        obtain ⟨rfl, rfl⟩ := eq_nil_of_run_write hturn hrun
        refine ⟨bytes, ?_, rfl⟩
        simp only [hwrite, if_true]

section Exchanges

variable {x : Exchange} (hr : HttpConn.IsKeepAliveRequest r)
  (hopen : Openable fs (requestPath r)) (hx : x.Carries fs r)

include hr hopen hx

/-- Behind the calls for a request, its answer has been sent and the connection is
as it was at first. -/
theorem run_log {y : Life}
    (hrun : (⟨conn.init, .read, sent⟩ : Life).run (x.log fs) = some y)
    (hnext : y.next = .read) :
    y = ⟨conn.init, .read, sent ++ (answerFor fs (requestPath r)).text⟩ := by
  have hbytes : ([] : List Bytes).flatten ++
      ((x.reads.map List.flatten).flatten ++ x.last.flatten) = r := hx.turn.bytes
  have hnil := hr.ne_nil
  obtain ⟨h, hhead, hlength, hlinger⟩ := hr
  obtain ⟨c, hreads, hpending⟩ := run_reads fs
    (HttpConn.pending_init conn hnil) hhead hx.turn.fits hbytes hx.turn.last
    hx.pieces sent
  obtain ⟨d, header, file, hprocess, hprepared, htext, -, hfinish⟩ :=
    hpending.process_last hhead hlength hx.turn.fits hx.turn.bytes hopen
  rw [hlinger, ← text_eq] at htext
  have hfinish := hfinish hlinger
  have hne : x.last ≠ [] := by
    intro hnil
    apply hx.turn.last
    rw [Exchange.turn, hnil, List.flatten_nil]
  have hlen := congrArg List.length hx.turn.bytes
  rw [List.length_append] at hlen
  have hfits := hx.turn.fits
  have hread := read_received (c := c.parser) hne hx.last (by
    rw [hpending.readIdx]
    all_goals
      simp only [List.nil_append]
      simp only [Exchange.turn] at hlen
      omega)
  rw [Exchange.log, Life.run_append, hreads, Option.bind_some, Life.run_append,
    run_read_process hread hprocess, Option.bind_some] at hrun
  obtain ⟨wire, hrespond, hsent⟩ :=
    respond_of_run hprepared.writeIdx_pos hrun hnext
  have hall := hx.turn.accepted
  rw [← htext] at hall
  obtain ⟨rfl, hconn⟩ := hprepared.wire_eq hrespond hall
  obtain ⟨yconn, ynext, ysent⟩ := y
  simp only at hnext hsent hconn
  rw [hnext, hsent, hconn, hfinish, htext]

end Exchanges

/-- An exchange begins with a read. -/
theorem next_of_run_log {x : Exchange} {more : List Call} {y z : Life}
    (hrun : y.run (x.log fs ++ more) = some z) : y.next = .read := by
  obtain ⟨outcomes, rest, hlog⟩ : ∃ outcomes rest,
      x.log fs = .read outcomes :: rest := by
    rw [Exchange.log]
    cases x.reads with
    | nil => exact ⟨_, _, rfl⟩
    | cons pieces reads => exact ⟨_, _, rfl⟩
  rw [hlog, List.cons_append, Life.run, List.foldlM_cons, Life.call] at hrun
  by_contra hnext
  rw [if_neg hnext] at hrun
  cases hrun

theorem run_logs {requests : List Bytes} {exchanges : List Exchange} {y : Life}
    (hrequests : ∀ r ∈ requests,
      HttpConn.IsKeepAliveRequest r ∧ Openable fs (requestPath r))
    (hexchanges : List.Forall₂ (fun r x => x.Carries fs r) requests exchanges)
    (hrun : (⟨conn.init, .read, sent⟩ : Life).run
      (exchanges.flatMap fun x => x.log fs) = some y) (hnext : y.next = .read) :
    y.sent = sent ++ requests.flatMap fun r =>
      (answerFor fs (requestPath r)).text := by
  induction hexchanges generalizing sent with
  | nil =>
      obtain rfl := Option.some.inj hrun
      rw [List.flatMap_nil, List.append_nil]
  | @cons r x requests exchanges hx hexchanges ih =>
      obtain ⟨⟨hr, hopen⟩, hrequests⟩ := List.forall_mem_cons.mp hrequests
      rw [List.flatMap_cons, Life.run_append, Option.bind_eq_some_iff] at hrun
      obtain ⟨z, hfirst, hrun⟩ := hrun
      -- Either the next exchange follows, or this one was the last.
      have hz : z.next = .read := by
        cases exchanges with
        | nil =>
            obtain rfl := Option.some.inj hrun
            exact hnext
        | cons x' exchanges =>
            rw [List.flatMap_cons] at hrun
            exact next_of_run_log hrun
      obtain rfl := run_log hr hopen hx hfirst hz
      rw [ih hrequests hrun, List.flatMap_cons, List.append_assoc]

end Requests

/-! ## What a client reads -/

section Clients

variable {ω : Type*} [DecidableEq ω] {fs : FileSystem}

end Clients

/-! ## A client that asks for a page -/

open HttpConn (rootRequest isKeepAliveRequest_rootRequest smallSite
  requestPath_rootRequest openable_smallSite length_smallSite)

section Runs

variable {ω : Type*} [DecidableEq ω] {s t : Server ω} {fd : ℕ} {calls : List Call}
  {sent : Bytes}

/-- A run leads to the state, with these calls for the connection and these bytes
sent on it. -/
def Comes (s : Server ω) (fd : ℕ) (calls : List Call) (sent : Bytes) : Prop :=
  ∃ r : Traced ω, TracedReachable r ∧ r.server = s ∧ r.calls fd = calls ∧
    r.sent fd = sent

theorem Comes.step {l : Label ω} (h : Comes s fd calls sent) (hmove : Move s l t)
    (hstrays : Strays s t t l) (hspares : Spares s l) :
    Comes t fd (l.trace s fd calls) (l.wire s fd sent) := by
  obtain ⟨r, ⟨users, hrun⟩, rfl, rfl, rfl⟩ := h
  exact ⟨⟨t, fun fd => l.trace r.server fd (r.calls fd),
    fun fd => l.wire r.server fd (r.sent fd)⟩,
    ⟨users, hrun.tail ⟨l, ⟨t, hmove, hstrays⟩, hspares, rfl, rfl⟩⟩, rfl, rfl, rfl⟩

theorem Comes.inv (h : Comes s fd calls sent) : s.Inv := by
  obtain ⟨r, hreach, rfl, -⟩ := h
  exact hreach.inv.server

end Runs

/-- The request has come in one piece, and the socket has taken the response. -/
def smallExchange : Exchange := ⟨[], [rootRequest], [[.accepted 1000]]⟩

def outputMask : EventMask := ⟨false, false, true⟩

theorem Server.overrun_blank_slot {ω : Type*} {s : Server ω} {i : ℕ}
    (h : s.users i = HttpConn.blank) : s.overrun i = s := by
  rw [Server.overrun, h, Proactor.overrun_blank, ← h, Function.update_eq_self]

/-- The first request of a client has been queued and taken by a worker. -/
theorem comes_holding {outcomes : List RecvOutcome} {p : Parser}
    (hread : Parser.fresh.read outcomes = some (true, p)) :
    ∃ s : Server (Fin 8), Comes s 5 [.read outcomes] [] ∧
      s.main = .dispatching ∧ s.batch = [] ∧ s.workers 0 = .holding 5 ∧
      s.isOpen 5 = true ∧ s.isOpen 6 = false ∧ s.users 6 = HttpConn.blank ∧
      s.users 5 = { HttpConn.blank with sockfd := 5, parser := p } := by
  let s₀ : Server (Fin 8) := .start fun _ => HttpConn.blank
  let s₁ := s₀.fetch [.listener]
  let s₂ : Server (Fin 8) := { s₁ with batch := [], main := .accepting }
  let s₃ := s₂.accept 5
  let s₄ := s₃.fetch [.ready 5 inputMask]
  let s₅ : Server (Fin 8) := { s₄ with batch := [], main := .reading 5 }
  let s₆ := s₅.read 5 true p
  let s₇ := s₆.append 5
  let s₈ := s₇.post
  let s₉ := s₈.wake 0
  have h₁ : Move s₀ (.fetch [.listener]) s₁ :=
    .fetch rfl rfl (by decide) (by simp [Server.Reports]) (by decide)
  have h₂ : Move s₁ .dispatch s₂ :=
    @Move.dispatch _ _ s₁ .listener [] rfl rfl
  have h₃ : Move s₂ (.accept 5) s₃ := .accept rfl rfl (by decide)
  have h₃' : Strays s₂ s₃ s₃ (.accept 5) := by
    rw [Strays, Server.overrun_blank_slot rfl, ite_self]
  have h₄ : Move s₃ (.fetch [.ready 5 inputMask]) s₄ := by
    refine .fetch rfl rfl (by decide) ?_ (by decide)
    intro e he
    rw [List.mem_singleton.mp he]
    exact ⟨.input, rfl, by simp, by simp [inputMask], by simp [inputMask]⟩
  have h₅ : Move s₄ .dispatch s₅ :=
    @Move.dispatch _ _ s₄ (.ready 5 inputMask) [] rfl rfl
  have h₆ : Move s₅ (.read 5 outcomes) s₆ := .read rfl hread
  have h₇ : Move s₆ (.append 5) s₇ := .append rfl
  have h₈ : Move s₇ .post s₈ := .post rfl
  have h₉ : Move s₈ (.wake 0) s₉ := .wake rfl Nat.one_pos
  have h₁₀ : Move s₉ (.take 0) (s₉.take 0) := .take rfl
  have hstart : Comes s₀ 5 [] [] :=
    ⟨.start fun _ => HttpConn.blank, ⟨_, .refl⟩, rfl, rfl, rfl⟩
  have hrun := ((((hstart.step h₁ rfl fun _ => trivial).step h₂ rfl
    fun _ => trivial).step h₃ h₃' fun _ _ => rfl).step h₄ rfl
    fun _ => trivial).step h₅ rfl fun _ => trivial
  have hrun' := (((((hrun.step h₆ rfl fun _ => trivial).step h₇ rfl
    fun h => absurd rfl (h 5)).step h₈ rfl fun _ => trivial).step h₉ rfl
    fun _ => trivial).step h₁₀ rfl fun _ => trivial)
  exact ⟨s₉.take 0, hrun', rfl, rfl, rfl, rfl, rfl, rfl, rfl⟩


theorem carries_smallExchange : smallExchange.Carries smallSite rootRequest := by
  refine ⟨⟨rfl, by decide, by decide, ?_⟩, by simp [smallExchange], ?_⟩
  · intro outcomes houtcomes n hn
    obtain rfl := List.mem_singleton.mp houtcomes
    obtain rfl : n = 1000 := by simpa using hn
    rw [requestPath_rootRequest]
    exact .inr length_smallSite
  · intro bytes hbytes
    obtain rfl := List.mem_singleton.mp hbytes
    decide

/-- A worker has prepared the response, and epoll waits for the socket. -/
theorem comes_responding :
    ∃ (s : Server (Fin 8)) (header file : Bytes),
      Comes s 5 [.read (received [rootRequest]), .process smallSite] [] ∧
      s.main = .dispatching ∧ s.batch = [] ∧ s.isOpen 5 = true ∧
      s.isOpen 6 = false ∧ s.users 6 = HttpConn.blank ∧
      s.armed 5 = some .output ∧ (s.users 5).Prepared header file ∧
      header ++ file = (answerFor smallSite (requestPath rootRequest)).text ∧
      (s.users 5).parser.linger = true := by
  obtain ⟨s, hcomes, hmain, hbatch, hw, hopen, hclosed, hblank, husers⟩ :=
    comes_holding (@Parser.read_data_eagain Parser.fresh rootRequest (by decide)
      (by decide +kernel))
  have hinv := hcomes.inv
  obtain ⟨head, hhead, hlength, hkept⟩ := isKeepAliveRequest_rootRequest
  obtain ⟨p, hdone⟩ := Parser.exists_doRequest (by decide) hhead hlength
  obtain ⟨d, header, file, hprocess, hprepared, htext, hlinger, -⟩ :=
    (HttpConn.pending_init { HttpConn.blank with sockfd := 5 }
      isKeepAliveRequest_rootRequest.ne_nil).process_last hhead hlength
      (by decide) (List.nil_append _) (requestPath_rootRequest ▸ openable_smallSite)
  rw [hkept, ← text_eq] at htext
  rw [hkept] at hlinger
  have hresult : (s.users 5).process smallSite = (.responding, d) := by
    rw [husers]
    exact hprocess
  let t : Server (Fin 8) :=
    { s with
      users := Function.update s.users 5 d
      workers := Function.update s.workers 0 (.finishing 5 .responding) }
  have h₁ : Move s (.process 0 smallSite) t := by
    have hmove : Move s (.process 0 smallSite) (s.process 0 5 smallSite) :=
      .process hw
    rwa [hinv.process_eq smallSite hw, hresult] at hmove
  have hspares : Spares s (.process 0 smallSite) := by
    intro _ fd hfd
    obtain rfl : (5 : ℕ) = fd := Worker.holding.inj (hw.symm.trans hfd)
    rintro ⟨i, hi, -⟩
    rw [husers] at hi
    exact absurd (hi.symm.trans (congrArg Prod.fst hdone)) (by simp)
  have hcomes₁ := hcomes.step h₁ ⟨5, hw, .inl rfl⟩ hspares
  have hw' : t.workers 0 = .finishing 5 .responding := by simp [t]
  have h₂ : Move t (.finish 0) (t.finish 0 5 .responding) := .finish hw'
  rw [Server.finish, hcomes₁.inv.sockfd_eq (by exact hopen),
    Server.modifyfd_of_isOpen (by exact hopen)] at h₂
  rw [Label.trace, if_pos hw] at hcomes₁
  refine ⟨_, header, file, hcomes₁.step h₂ rfl fun _ => trivial, hmain, hbatch, hopen,
    hclosed, ?_, ?_, ?_, htext, ?_⟩
  · simpa [t] using hblank
  · simp [HttpConn.ProcessExit.interest]
  · simpa [t] using hprepared
  · simpa [t] using hlinger

/-- The request has been answered, and epoll waits for the next one. -/
theorem comes_served :
    ∃ (s : Server (Fin 8)) (sent : Bytes),
      Comes s 5 (smallExchange.log smallSite) sent ∧
      s.main = .dispatching ∧ s.isOpen 5 = true ∧ s.armed 5 = some .input := by
  obtain ⟨s, header, file, hcomes, hmain, hbatch, hopen, hclosed, hblank, harmed,
    hprepared, htext, hlinger⟩ := comes_responding
  have hwrite : (s.users 5).write [.accepted 1000] =
      some ⟨.completed, (s.users 5).finish, header ++ file⟩ := by
    apply hprepared.write_all
    rw [htext, requestPath_rootRequest]
    exact length_smallSite
  let s₁ := s.fetch [.ready 5 outputMask]
  let s₂ : Server (Fin 8) := { s₁ with batch := [], main := .writing 5 }
  let s₃ := s₂.write 5 ⟨.completed, (s.users 5).finish, header ++ file⟩
  have h₁ : Move s (.fetch [.ready 5 outputMask]) s₁ := by
    refine .fetch hmain hbatch (by decide) ?_ (by decide)
    intro e he
    rw [List.mem_singleton.mp he]
    exact ⟨.output, harmed, by simp [outputMask], by simp, by simp [outputMask]⟩
  have h₂ : Move s₁ .dispatch s₂ :=
    @Move.dispatch _ _ s₁ (.ready 5 outputMask) [] hmain rfl
  have h₃ : Move s₂ (.write 5 [.accepted 1000]) s₃ := .write rfl hwrite
  have hcomes₂ := (hcomes.step h₁ rfl fun _ => trivial).step h₂ rfl fun _ => trivial
  have heq : s₃ = { s₂ with
      users := Function.update s.users 5 (s.users 5).finish
      armed := Function.update s₂.armed 5 (some .input)
      main := .dispatching } := by
    have hsockfd : (s₂.users 5).sockfd = (5 : ℕ) := hcomes₂.inv.sockfd_eq hopen
    have hkept : (s₂.users 5).parser.linger = true := hlinger
    simp only [s₃, Server.write, HttpConn.WriteExit.rearms, hsockfd, hkept,
      HttpConn.WriteExit.returns, if_true]
    exact Server.modifyfd_of_isOpen hopen
  have hstrays : Strays s₂ s₃ s₃ (.write 5 [.accepted 1000]) := by
    refine ⟨_, hwrite, ?_⟩
    rw [Server.overrun_blank_slot, ite_self]
    rw [heq]
    simpa using hblank
  have hspares : Spares s₂ (.write 5 [.accepted 1000]) := fun _ _ _ _ => hclosed
  refine ⟨s₃, _, hcomes₂.step h₃ hstrays hspares, ?_, ?_, ?_⟩
  · rw [heq]
  · rw [heq]
    exact hopen
  · rw [heq]
    simp

end BackendLab.Proactor
