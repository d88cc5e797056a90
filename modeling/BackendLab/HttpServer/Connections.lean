import BackendLab.HttpServer.Response
import BackendLab.Support.Lanes
import BackendLab.Support.Runs
import Mathlib.Data.List.Nodup
import Mathlib.Logic.Function.Basic

/-!
# The connections of the HTTP server

`http_server` accepts connections; each of them reads one request, writes one
response, and has a timer that closes its socket.  All handlers run on the one
thread of the `io_context`, in any order that the operating system and the
clients bring about, and share the counter of `program_state`.

A connection is held by the handlers of its outstanding operations; when none is
left, it is destroyed, and its socket with it.
-/

namespace BackendLab.HttpServer

open Support Relation

/-! ## A connection -/

/-- The operation on the socket that is outstanding: `async_read`, or
`async_write` with the bytes that it has still to send. -/
inductive Stage where
  | reading
  | writing (left : Bytes)
  | ended
  deriving DecidableEq, Repr

/-- The `async_wait` of the timer: it may have its handler queued, without or with
an error, and the handler may have run. -/
inductive Timer where
  | waiting
  | expired
  | aborted
  | done
  deriving DecidableEq, Repr

/-- `cancel`: a handler that is queued already is not affected. -/
def Timer.cancel : Timer → Timer
  | .waiting => .aborted
  | timer => timer

structure Connection where
  stage : Stage
  timer : Timer
  opened : Bool
  shut : Bool
  sent : Bytes
  deriving DecidableEq, Repr

namespace Connection

/-- `start`: `read_request` and `check_deadline`. -/
def start : Connection := ⟨.reading, .waiting, true, false, []⟩

/-- Some handler has a reference to the connection. -/
def Held (c : Connection) : Prop := c.stage ≠ .ended ∨ c.timer ≠ .done

instance (c : Connection) : Decidable c.Held :=
  inferInstanceAs (Decidable (_ ∨ _))

/-- The end of a handler: if it was the last one, the socket is closed by its
destructor. -/
def release (c : Connection) : Connection :=
  if c.Held then c else { c with opened := false }

/-- The handler of `read_request` with an error. -/
def readFails (c : Connection) : Connection :=
  { c with stage := .ended }.release

/-- The handler of `read_request` without an error: the write of the response is
started. -/
def processed (c : Connection) (r : Response) : Connection :=
  { c with stage := .writing r.serialize }

/-- Of the bytes that `async_write` has to send, `n` are sent. -/
def transmit (c : Connection) (left : Bytes) (n : ℕ) : Connection :=
  { c with stage := .writing (left.drop n), sent := c.sent ++ left.take n }

/-- The handler of `write_response`, which does not look at the error. -/
def written (c : Connection) : Connection :=
  { c with
    stage := .ended, timer := c.timer.cancel, shut := c.shut || c.opened }.release

def expire (c : Connection) : Connection := { c with timer := .expired }

/-- The handler of `check_deadline` without an error. -/
def deadline (c : Connection) : Connection :=
  { c with timer := .done, opened := false }.release

/-- The handler of `check_deadline` with an error. -/
def waitAborted (c : Connection) : Connection :=
  { c with timer := .done }.release

end Connection

/-- The steps of a connection in which nothing is processed.  A read or a write
may complete, either way, after the socket has been closed, but nothing is sent
then. -/
inductive ConnectionStep : Connection → Connection → Prop
  | readFails {c : Connection} (h : c.stage = .reading) :
      ConnectionStep c c.readFails
  | transmit {c : Connection} {left : Bytes} (n : ℕ)
      (h : c.stage = .writing left) (hopened : c.opened = true) :
      ConnectionStep c (c.transmit left n)
  | written {c : Connection} {left : Bytes} (h : c.stage = .writing left) :
      ConnectionStep c c.written
  | expire {c : Connection} (h : c.timer = .waiting) : ConnectionStep c c.expire
  | deadline {c : Connection} (h : c.timer = .expired) :
      ConnectionStep c c.deadline
  | waitAborted {c : Connection} (h : c.timer = .aborted) :
      ConnectionStep c c.waitAborted

/-! ## The server -/

/-- A request that has been processed, the time at which it was, and the
response. -/
structure Entry where
  request : Request
  now : ℤ
  response : Response
  deriving DecidableEq, Repr

/-- The connections that have been accepted, the counter, and what has been
processed so far. -/
structure Server (ι : Type*) where
  connection : ι → Option Connection
  count : ℕ
  processed : List (ι × Entry)

variable {ι : Type*} [DecidableEq ι]

namespace Server

def start : Server ι := ⟨fun _ => none, 0, []⟩

def setConnection (s : Server ι) (i : ι) (c : Connection) : Server ι :=
  { s with connection := Function.update s.connection i (some c) }

/-- `process_request` and `write_response` of a connection. -/
def process (s : Server ι) (i : ι) (c : Connection) (request : Request) (now : ℤ) :
    Server ι :=
  let result := respond request s.count now
  { s.setConnection i (c.processed result.1) with
    count := result.2,
    processed := s.processed ++ [(i, ⟨request, now, result.1⟩)] }

end Server

/-- A handler runs, bytes are sent, or a timer expires. -/
inductive Step : Server ι → Server ι → Prop
  | accept {s : Server ι} {i : ι} (h : s.connection i = none) :
      Step s (s.setConnection i .start)
  | acceptFails {s : Server ι} : Step s s
  | process {s : Server ι} {i : ι} {c : Connection} (request : Request) (now : ℤ)
      (h : s.connection i = some c) (hstage : c.stage = .reading) :
      Step s (s.process i c request now)
  | own {s : Server ι} {i : ι} {c d : Connection} (h : s.connection i = some c)
      (hstep : ConnectionStep c d) : Step s (s.setConnection i d)

def Reachable (s : Server ι) : Prop :=
  ReflTransGen Step .start s

/-! ## What a connection has sent -/

namespace Connection

@[simp] theorem release_stage (c : Connection) : c.release.stage = c.stage := by
  rw [release]
  split <;> rfl

@[simp] theorem release_timer (c : Connection) : c.release.timer = c.timer := by
  rw [release]
  split <;> rfl

@[simp] theorem release_shut (c : Connection) : c.release.shut = c.shut := by
  rw [release]
  split <;> rfl

@[simp] theorem release_sent (c : Connection) : c.release.sent = c.sent := by
  rw [release]
  split <;> rfl

theorem release_of_not_held {c : Connection} (h : ¬ c.Held) :
    c.release = { c with opened := false } := by
  rw [release, if_neg h]

theorem opened_release {c : Connection} (h : c.opened = false) :
    c.release.opened = false := by
  rw [release]
  split
  · exact h
  · rfl

end Connection

/-- A connection and what has been processed for it.  The socket is open only as
long as the handler of the timer has not run, and the timer is cancelled, and the
sending side shut down, only after a response has been written. -/
structure Coherent (c : Connection) (entries : List Entry) : Prop where
  reading : c.stage = .reading → entries = []
  writing : ∀ left, c.stage = .writing left →
    ∃ e, entries = [e] ∧ c.sent ++ left = e.response.serialize
  sent : (entries = [] ∧ c.sent = []) ∨
    ∃ e, entries = [e] ∧ c.sent <+: e.response.serialize
  guarded : c.timer = .done → c.opened = false
  aborted : c.timer = .aborted → c.stage = .ended ∧ entries ≠ []
  shut : c.shut = true → c.stage = .ended ∧ entries ≠ []

namespace Coherent

variable {c d : Connection} {entries : List Entry}

theorem start : Coherent .start [] where
  reading := fun _ => rfl
  writing := fun _ h => by cases h
  sent := .inl ⟨rfl, rfl⟩
  guarded := fun h => by cases h
  aborted := fun h => by cases h
  shut := fun h => by cases h

theorem release (h : Coherent c entries) : Coherent c.release entries where
  reading := by simpa using h.reading
  writing := by simpa using h.writing
  sent := by simpa using h.sent
  guarded := by
    rw [Connection.release_timer]
    intro hover
    exact Connection.opened_release (h.guarded hover)
  aborted := by simpa using h.aborted
  shut := by simpa using h.shut

theorem processed (h : Coherent c []) (e : Entry) :
    Coherent (c.processed e.response) [e] := by
  have hsent : c.sent = [] := by
    rcases h.sent with hsent | ⟨e, he, -⟩
    · exact hsent.2
    · cases he
  have hempty {p : Prop} (hp : p → c.stage = .ended ∧ ([] : List Entry) ≠ []) : ¬ p :=
    fun h => (hp h).2 rfl
  refine ⟨?_, ?_, ?_, h.guarded, ?_, ?_⟩
  · intro hreading
    cases hreading
  · intro left hleft
    obtain rfl : e.response.serialize = left := Stage.writing.inj hleft
    refine ⟨e, rfl, ?_⟩
    rw [show (c.processed e.response).sent = [] from hsent, List.nil_append]
  · refine .inr ⟨e, rfl, ?_⟩
    rw [show (c.processed e.response).sent = [] from hsent]
    exact List.nil_prefix
  · intro haborted
    exact absurd haborted (hempty h.aborted)
  · intro hshut
    exact absurd hshut (hempty h.shut)

theorem readFails (h : Coherent c entries) : Coherent c.readFails entries := by
  apply release
  refine ⟨?_, ?_, h.sent, h.guarded, ?_, ?_⟩
  · intro hstage
    cases hstage
  · intro left hstage
    cases hstage
  · intro haborted
    exact ⟨rfl, (h.aborted haborted).2⟩
  · intro hshut
    exact ⟨rfl, (h.shut hshut).2⟩

theorem transmit {left : Bytes} (h : Coherent c entries)
    (hstage : c.stage = .writing left) (n : ℕ) :
    Coherent (c.transmit left n) entries := by
  obtain ⟨e, he, hall⟩ := h.writing left hstage
  have hsplit : (c.sent ++ left.take n) ++ left.drop n = e.response.serialize := by
    rw [List.append_assoc, List.take_append_drop, hall]
  have hrunning {p : Prop} (hp : p → c.stage = .ended ∧ entries ≠ []) : ¬ p := by
    intro h
    have hended := (hp h).1
    rw [hstage] at hended
    cases hended
  refine ⟨?_, ?_, .inr ⟨e, he, _, hsplit⟩, h.guarded, ?_, ?_⟩
  · intro hreading
    cases hreading
  · intro rest hrest
    obtain rfl : left.drop n = rest := Stage.writing.inj hrest
    exact ⟨e, he, hsplit⟩
  · intro haborted
    exact absurd haborted (hrunning h.aborted)
  · intro hshut
    exact absurd hshut (hrunning h.shut)

theorem written {left : Bytes} (h : Coherent c entries)
    (hstage : c.stage = .writing left) : Coherent c.written entries := by
  obtain ⟨e, he, -⟩ := h.writing left hstage
  have hne : entries ≠ [] := by
    rw [he]
    exact List.cons_ne_nil e []
  apply release
  refine ⟨?_, ?_, h.sent, ?_, fun _ => ⟨rfl, hne⟩, fun _ => ⟨rfl, hne⟩⟩
  · intro hreading
    cases hreading
  · intro rest hrest
    cases hrest
  · intro hover
    apply h.guarded
    cases htimer : c.timer with
    | done => rfl
    | waiting | expired | aborted =>
        simp only [htimer, Timer.cancel] at hover
        cases hover

theorem expire (h : Coherent c entries) : Coherent c.expire entries where
  reading := h.reading
  writing := h.writing
  sent := h.sent
  guarded := fun hover => by cases hover
  aborted := fun haborted => by cases haborted
  shut := h.shut

theorem deadline (h : Coherent c entries) : Coherent c.deadline entries := by
  apply release
  refine ⟨h.reading, h.writing, h.sent, fun _ => rfl, ?_, h.shut⟩
  intro haborted
  cases haborted

theorem waitAborted (h : Coherent c entries) (htimer : c.timer = .aborted) :
    Coherent c.waitAborted entries := by
  -- A cancelled timer was the last to hold the connection.
  have hfree : ¬ { c with timer := Timer.done }.Held := by
    rintro (hstage | hover)
    · exact hstage (h.aborted htimer).1
    · exact hover rfl
  rw [Connection.waitAborted, Connection.release_of_not_held hfree]
  refine ⟨h.reading, h.writing, h.sent, fun _ => rfl, ?_, h.shut⟩
  intro haborted
  cases haborted

theorem step (h : Coherent c entries) (hstep : ConnectionStep c d) :
    Coherent d entries := by
  cases hstep with
  | readFails hstage => exact h.readFails
  | transmit n hstage hopened => exact h.transmit hstage n
  | written hstage => exact h.written hstage
  | expire htimer => exact h.expire
  | deadline htimer => exact h.deadline
  | waitAborted htimer => exact h.waitAborted htimer

end Coherent

/-! ## What has been processed -/

/-- `create_response` asks for the counter. -/
def Request.counts (request : Request) : Bool :=
  request.method = .get ∧ request.target = ascii "/count"

theorem respond_count (request : Request) (count : ℕ) (now : ℤ) :
    (respond request count now).2 =
      if request.counts then requestCount count else count := by
  simp only [respond, processRequest]
  cases hmethod : request.method with
  | get =>
      by_cases htarget : request.target = ascii "/count"
      · simp [createResponse, Request.counts, hmethod, htarget]
      · simp only [createResponse, Request.counts, hmethod, htarget, if_false]
        split <;> simp
  | post | other => simp [Request.counts, hmethod]

/-- A request that counts is told the new value of the counter. -/
theorem respond_body {request : Request} (h : request.counts = true) (count : ℕ)
    (now : ℤ) :
    (respond request count now).1.body = page (natText (requestCount count)) := by
  simp only [Request.counts, decide_eq_true_eq] at h
  simp only [respond, processRequest, h.1, createResponse, h.2, if_true]
  cases request.version <;> rfl

theorem page_injective : Function.Injective page := by
  intro xs ys h
  simpa only [page, List.append_assoc, List.append_cancel_left_eq,
    List.append_cancel_right_eq] using h

/-- How many of the processed requests ask for the counter. -/
def counted (entries : List (ι × Entry)) : ℕ :=
  entries.countP fun e => e.2.request.counts

/-- The bodies of the responses with the counter, in the order in which the
requests were processed. -/
def tellings (entries : List (ι × Entry)) : List Bytes :=
  (entries.filter fun e => e.2.request.counts).map fun e => e.2.response.body

/-- The responses are those of a server that takes the requests one by one. -/
structure Sequential (s : Server ι) : Prop where
  count : s.count = counted s.processed % 2 ^ 64
  response : ∀ before i e after, s.processed = before ++ (i, e) :: after →
    e.response = (respond e.request (counted before % 2 ^ 64) e.now).1
  tellings : tellings s.processed = (List.range (counted s.processed)).map
    fun k => page (natText ((k + 1) % 2 ^ 64))

omit [DecidableEq ι] in
theorem sequential_start : Sequential (Server.start : Server ι) := by
  refine ⟨rfl, ?_, rfl⟩
  intro before i e after h
  cases (List.append_eq_nil_iff.mp h.symm).2

omit [DecidableEq ι] in
theorem counted_append_singleton (entries : List (ι × Entry)) (i : ι) (e : Entry) :
    counted (entries ++ [(i, e)]) =
      if e.request.counts then counted entries + 1 else counted entries := by
  rw [counted, List.countP_append, List.countP_singleton]
  split <;> rfl

omit [DecidableEq ι] in
theorem tellings_append_singleton (entries : List (ι × Entry)) (i : ι) (e : Entry) :
    tellings (entries ++ [(i, e)]) =
      if e.request.counts then tellings entries ++ [e.response.body]
      else tellings entries := by
  by_cases hcounts : e.request.counts = true
  · simp [tellings, hcounts]
  · simp [tellings, hcounts]

theorem Sequential.process {s : Server ι} (hs : Sequential s) (i : ι)
    (c : Connection) (request : Request) (now : ℤ) :
    Sequential (s.process i c request now) := by
  have hprocessed : (s.process i c request now).processed =
      s.processed ++ [(i, ⟨request, now, (respond request s.count now).1⟩)] := rfl
  refine ⟨?_, ?_, ?_⟩
  · rw [hprocessed, counted_append_singleton]
    change (respond request s.count now).2 = _
    rw [respond_count]
    split
    · rw [requestCount, hs.count, Nat.mod_add_mod]
    · exact hs.count
  · intro before k e after h
    rw [hprocessed] at h
    rcases List.eq_nil_or_concat after with rfl | ⟨more, last, rfl⟩
    · obtain ⟨rfl, hlast⟩ := List.append_inj' h rfl
      obtain ⟨rfl, rfl⟩ := Prod.mk.inj (List.singleton_inj.mp hlast)
      rw [hs.count]
    · rw [List.concat_eq_append, ← List.cons_append, ← List.append_assoc] at h
      exact hs.response before k e more (List.append_inj' h rfl).1
  · rw [hprocessed, tellings_append_singleton, counted_append_singleton, hs.tellings]
    split
    · next hcounts =>
        rw [respond_body hcounts, hs.count, requestCount, Nat.mod_add_mod,
          List.range_succ, List.map_append]
        rfl
    · rfl

theorem Sequential.step {s t : Server ι} (hs : Sequential s) (h : Step s t) :
    Sequential t := by
  cases h with
  | accept h | own h hstep => exact ⟨hs.count, hs.response, hs.tellings⟩
  | acceptFails => exact hs
  | process request now h hstage => exact hs.process _ _ request now

theorem Reachable.sequential {s : Server ι} (h : Reachable s) : Sequential s := by
  apply invariant_of_run h sequential_start
  intro s t hs hstep
  exact hs.step hstep

/-- The `k`-th request for the counter is told `k`, whatever came between, and so
no two are told the same as long as the counter does not overflow. -/
theorem Reachable.told_in_order {s : Server ι} (h : Reachable s) :
    tellings s.processed = (List.range (counted s.processed)).map
        (fun k => page (natText ((k + 1) % 2 ^ 64))) ∧
      (counted s.processed < 2 ^ 64 → (tellings s.processed).Nodup) := by
  have hs := h.sequential
  refine ⟨hs.tellings, ?_⟩
  intro hbelow
  rw [hs.tellings]
  apply List.Nodup.map_on _ List.nodup_range
  intro k hk l hl hsame
  rw [List.mem_range] at hk hl
  have hmod := natText_injective (page_injective hsame)
  rw [Nat.mod_eq_of_lt (by omega), Nat.mod_eq_of_lt (by omega)] at hmod
  exact Nat.succ_injective hmod

/-! ### Two clients that ask for the counter -/

def countRequest : Request := ⟨.http11, ascii "GET", ascii "/count"⟩

/-- The second client is the first one whose request is read. -/
def asked : Server Bool :=
  (((Server.start.setConnection false .start).setConnection true .start).process
    true .start countRequest 0).process false .start countRequest 0

theorem reachable_asked : Reachable asked := by
  have haccept : Reachable
      ((Server.start.setConnection false .start).setConnection true .start) :=
    (ReflTransGen.single (.accept rfl)).tail (.accept (i := true) rfl)
  exact (haccept.tail (.process countRequest 0 rfl rfl)).tail
    (.process countRequest 0 rfl rfl)

theorem told_in_order_asked :
    tellings asked.processed = [page (natText 1), page (natText 2)] ∧
      (tellings asked.processed).Nodup := by
  have hcounted : counted asked.processed = 2 := by decide
  obtain ⟨htold, hnodup⟩ := reachable_asked.told_in_order
  refine ⟨?_, hnodup (by rw [hcounted]; decide)⟩
  rw [htold, hcounted]
  rfl

/-! ## Every client gets its own response -/

/-- What has been processed for a connection agrees with its state. -/
structure Accounted (s : Server ι) (i : ι) : Prop where
  unaccepted : s.connection i = none → lane i s.processed = []
  accepted : ∀ c, s.connection i = some c → Coherent c (lane i s.processed)

theorem accounted_start (i : ι) : Accounted Server.start i := by
  constructor
  · intro _
    rfl
  · intro c h
    cases h

namespace Server

theorem connection_setConnection_self (s : Server ι) (i : ι) (c : Connection) :
    (s.setConnection i c).connection i = some c := by
  simp only [setConnection, Function.update_self]

theorem connection_setConnection_of_ne {i k : ι} (h : i ≠ k) (s : Server ι)
    (c : Connection) : (s.setConnection k c).connection i = s.connection i := by
  simp only [setConnection, Function.update_of_ne h]

end Server

namespace Accounted

variable {s t : Server ι} {i : ι}

theorem of_coherent {c : Connection} (hc : s.connection i = some c)
    (h : Coherent c (lane i s.processed)) : Accounted s i := by
  constructor
  · intro hnone
    rw [hc] at hnone
    cases hnone
  · intro d hd
    obtain rfl : c = d := Option.some.inj (hc.symm.trans hd)
    exact h

theorem of_eq (hs : Accounted s i) (hconnection : t.connection i = s.connection i)
    (hlane : lane i t.processed = lane i s.processed) : Accounted t i := by
  constructor
  · rw [hconnection, hlane]
    exact hs.unaccepted
  · rw [hconnection, hlane]
    exact hs.accepted

theorem step (hs : Accounted s i) (h : Step s t) : Accounted t i := by
  cases h with
  | @accept k h =>
      by_cases hik : i = k
      · subst hik
        apply of_coherent (s.connection_setConnection_self i _)
        rw [show (s.setConnection i .start).processed = s.processed from rfl,
          hs.unaccepted h]
        exact Coherent.start
      · exact hs.of_eq (Server.connection_setConnection_of_ne hik s _) rfl
  | acceptFails => exact hs
  | @process k c request now h hstage =>
      by_cases hik : i = k
      · subst hik
        have hc := hs.accepted c h
        rw [hc.reading hstage] at hc
        have hself : (s.process i c request now).connection i = some _ :=
          s.connection_setConnection_self i _
        apply of_coherent hself
        rw [Server.process, lane_append, lane_singleton_self,
          (hs.accepted c h).reading hstage, List.nil_append]
        exact hc.processed ⟨request, now, _⟩
      · have hother : (s.process k c request now).connection i = s.connection i :=
          Server.connection_setConnection_of_ne hik s _
        apply hs.of_eq hother
        rw [Server.process, lane_append, lane_singleton_of_ne (Ne.symm hik),
          List.append_nil]
  | @own k c d h hstep =>
      by_cases hik : i = k
      · subst hik
        apply of_coherent (s.connection_setConnection_self i _)
        exact (hs.accepted c h).step hstep
      · exact hs.of_eq (Server.connection_setConnection_of_ne hik s _) rfl

end Accounted

namespace Reachable

variable {s : Server ι} {i : ι} {c : Connection}

theorem coherent (h : Reachable s) (hc : s.connection i = some c) :
    Coherent c (lane i s.processed) := by
  have hs : Accounted s i := by
    apply invariant_of_run h (accounted_start i)
    intro s t hs hstep
    exact hs.step hstep
  exact hs.accepted c hc

/-- Under every interleaving, a connection that has sent anything has had exactly
one request processed.  What it has sent is a part of the response that a server
would give which had taken the requests one by one, and a client that reads a
whole message has read that response. -/
theorem own_response (h : Reachable s) (hc : s.connection i = some c) :
    c.sent = [] ∨
      ∃ before e after, s.processed = before ++ (i, e) :: after ∧
        (∀ other ∈ before ++ after, other.1 ≠ i) ∧
        e.response = (respond e.request (counted before % 2 ^ 64) e.now).1 ∧
        c.sent <+: e.response.serialize ∧
        ∀ lines body rest,
          readMessage lengthMark c.sent = some (lines, body, rest) →
            c.sent = e.response.serialize ∧ body = e.response.body ∧ rest = [] := by
  rcases (h.coherent hc).sent with hnone | ⟨e, he, hsent⟩
  · exact .inl hnone.2
  · obtain ⟨before, after, hsplit, hothers⟩ := exists_split_of_lane he
    have hresponse := h.sequential.response before i e after hsplit
    refine .inr ⟨before, e, after, hsplit, hothers, hresponse, hsent, ?_⟩
    intro lines body rest hread
    have hwhole : readMessage lengthMark e.response.serialize =
        some (e.response.lines, e.response.body, []) := by
      have hback := readMessage_respond e.request (counted before % 2 ^ 64) e.now []
      rw [← hresponse, List.append_nil] at hback
      exact hback
    exact eq_of_readMessage_isPrefix hsent hwhole hread

end Reachable

/-- The response to the second client has been sent. -/
def answered : Server Bool :=
  let r := (respond countRequest 0 0).1
  asked.setConnection true
    ((Connection.start.processed r).transmit r.serialize r.serialize.length)

theorem reachable_answered : Reachable answered :=
  reachable_asked.tail (.own rfl (.transmit _ rfl rfl))

/-- Its client has the whole response to its own request. -/
theorem own_response_answered :
    ∃ c before e after, answered.connection true = some c ∧
      answered.processed = before ++ (true, e) :: after ∧
      e.response = (respond e.request (counted before % 2 ^ 64) e.now).1 ∧
      c.sent = e.response.serialize := by
  let r := (respond countRequest 0 0).1
  have hc : answered.connection true = some
      ((Connection.start.processed r).transmit r.serialize r.serialize.length) := rfl
  have hsent : ((Connection.start.processed r).transmit r.serialize
      r.serialize.length).sent = r.serialize := by
    rw [Connection.transmit, List.take_length]
    rfl
  have hread := readMessage_respond countRequest 0 0 []
  rw [List.append_nil] at hread
  rcases reachable_answered.own_response hc with hnone | hown
  · rw [hsent] at hnone
    rw [hnone] at hread
    cases hread
  · obtain ⟨before, e, after, hsplit, -, hresponse, -, hwhole⟩ := hown
    rw [hsent] at hwhole
    exact ⟨_, before, e, after, hc, hsplit, hresponse,
      hsent.trans (hwhole _ _ _ hread).1⟩

/-! ## No connection is held for ever -/

/-- A step that needs no client: the timer expires, a handler of the timer runs, or
the operation on the socket comes to an end because the socket has been closed or
all bytes have been sent. -/
inductive OwnStep : Connection → Connection → Prop
  | expire {c : Connection} (h : c.timer = .waiting) : OwnStep c c.expire
  | deadline {c : Connection} (h : c.timer = .expired) : OwnStep c c.deadline
  | waitAborted {c : Connection} (h : c.timer = .aborted) : OwnStep c c.waitAborted
  | readFails {c : Connection} (h : c.stage = .reading) (hclosed : c.opened = false) :
      OwnStep c c.readFails
  | written {c : Connection} {left : Bytes} (h : c.stage = .writing left)
      (hover : left = [] ∨ c.opened = false) : OwnStep c c.written

theorem OwnStep.connectionStep {c d : Connection} (h : OwnStep c d) :
    ConnectionStep c d := by
  cases h with
  | expire h => exact .expire h
  | deadline h => exact .deadline h
  | waitAborted h => exact .waitAborted h
  | readFails h hclosed => exact .readFails h
  | written h hover => exact .written h

/-- How many handlers of a connection have still to run, if nothing more is
processed, where an expiry counts as one. -/
def Connection.rank (c : Connection) : ℕ :=
  (if c.stage = .ended then 0 else 1) +
    match c.timer with
    | .waiting => 2
    | .expired | .aborted => 1
    | .done => 0

/-- Something of a connection that is held can go on without the client.  The timer
comes first: when its handler has run, the socket is closed. -/
theorem Coherent.exists_ownStep {c : Connection} {entries : List Entry}
    (h : Coherent c entries) (hheld : c.Held) :
    ∃ d, OwnStep c d ∧ d.sent = c.sent ∧ d.rank < c.rank := by
  cases htimer : c.timer with
  | waiting =>
      refine ⟨_, .expire htimer, rfl, ?_⟩
      rw [Connection.rank, Connection.rank, htimer]
      exact Nat.add_lt_add_left Nat.one_lt_two _
  | expired =>
      refine ⟨_, .deadline htimer, Connection.release_sent _, ?_⟩
      simp [Connection.rank, Connection.deadline, htimer]
  | aborted =>
      refine ⟨_, .waitAborted htimer, Connection.release_sent _, ?_⟩
      simp [Connection.rank, Connection.waitAborted, htimer]
  | done =>
      have hclosed := h.guarded htimer
      cases hstage : c.stage with
      | reading =>
          refine ⟨_, .readFails hstage hclosed, Connection.release_sent _, ?_⟩
          simp [Connection.rank, Connection.readFails, hstage]
      | writing left =>
          refine ⟨_, .written hstage (.inr hclosed), Connection.release_sent _, ?_⟩
          simp [Connection.rank, Connection.written, hstage, htimer, Timer.cancel]
      | ended =>
          exact absurd hheld (not_or.mpr ⟨not_not.mpr hstage, not_not.mpr htimer⟩)

theorem Coherent.exists_released {c : Connection} {entries : List Entry}
    (h : Coherent c entries) :
    ∃ d, ReflTransGen OwnStep c d ∧
      (Coherent d entries ∧ d.sent = c.sent) ∧ ¬ d.Held := by
  refine exists_run_to_goal (I := fun d => Coherent d entries ∧ d.sent = c.sent)
    Connection.rank ?_ ⟨h, rfl⟩
  rintro d ⟨hd, hsent⟩ hheld
  rw [not_not] at hheld
  obtain ⟨e, hstep, hsame, hrank⟩ := hd.exists_ownStep hheld
  exact ⟨e, .single hstep, ⟨hd.step hstep.connectionStep, hsame.trans hsent⟩, hrank⟩

/-- What a connection can do alone, it can do among the others. -/
theorem run_setConnection {s : Server ι} {i : ι} {c d : Connection}
    (hc : s.connection i = some c) (h : ReflTransGen ConnectionStep c d) :
    ReflTransGen Step s (s.setConnection i d) := by
  induction h with
  | refl =>
      rw [Server.setConnection, ← hc, Function.update_eq_self]
  | @tail d e _ hstep ih =>
      have hown := Step.own (s.connection_setConnection_self i d) hstep
      have hsame : (s.setConnection i d).setConnection i e = s.setConnection i e := by
        simp only [Server.setConnection, Function.update_idem]
      rw [hsame] at hown
      exact ih.tail hown

/-- In every state that a run reaches, the socket of a connection is open only as
long as the handler of its timer is still to run; the timer is cancelled, and the
socket shut down, only behind the write of a response.  Whatever the client does or
does not do, steps that need no client lead to a state in which nothing holds the
connection and its socket is closed, with nothing sent on the way. -/
theorem Reachable.can_release {s : Server ι} {i : ι} {c : Connection}
    (h : Reachable s) (hc : s.connection i = some c) :
    (c.opened = true → c.timer ≠ .done) ∧
      (c.timer = .aborted ∨ c.shut = true → c.stage = .ended ∧
        ∃ e, lane i s.processed = [e] ∧ c.sent <+: e.response.serialize) ∧
      ∃ d, ReflTransGen OwnStep c d ∧ ReflTransGen Step s (s.setConnection i d) ∧
        ¬ d.Held ∧ d.opened = false ∧ d.sent = c.sent := by
  have hcoherent := h.coherent hc
  refine ⟨?_, ?_, ?_⟩
  · intro hopened hover
    rw [hcoherent.guarded hover] at hopened
    cases hopened
  · intro hover
    obtain ⟨hended, hne⟩ : c.stage = .ended ∧ lane i s.processed ≠ [] := by
      rcases hover with haborted | hshut
      · exact hcoherent.aborted haborted
      · exact hcoherent.shut hshut
    rcases hcoherent.sent with hnone | hsent
    · exact absurd hnone.1 hne
    · exact ⟨hended, hsent⟩
  · obtain ⟨d, hrun, ⟨hd, hsent⟩, hfree⟩ := hcoherent.exists_released
    have hover : d.timer = .done := not_not.mp (not_or.mp hfree).2
    have hsteps : ReflTransGen ConnectionStep c d :=
      ReflTransGen.mono (fun _ _ hstep => hstep.connectionStep) _ _ hrun
    exact ⟨d, hrun, run_setConnection hc hsteps, hfree, hd.guarded hover, hsent⟩

/-- A client that has been accepted and never sends anything. -/
theorem can_release_silent :
    ∃ d, ReflTransGen OwnStep .start d ∧
      ReflTransGen Step (Server.start.setConnection () .start)
        ((Server.start.setConnection () .start).setConnection () d) ∧
      ¬ d.Held ∧ d.opened = false ∧ d.sent = [] := by
  have hreachable : Reachable (Server.start.setConnection () .start) :=
    ReflTransGen.single (.accept rfl)
  have hc := Server.start.connection_setConnection_self () .start
  exact (hreachable.can_release hc).2.2

end BackendLab.HttpServer
