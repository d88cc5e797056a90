import BackendLab.Proactor.Connection.Response
import BackendLab.Proactor.Memory.Layout
import Mathlib.Logic.Function.Basic
import Mathlib.Logic.Relation

/-!
# The running server

The state of the whole program while `main` is in its event loop: the array
`users`, the kernel's side of the sockets, the events still to be handled, the
work queue with its semaphore, and where the main thread and the workers stand.
A step is one statement of the main thread or of a worker that another thread
can observe.

`Move` is what the statements do as long as every method stays inside its own
object.  `Step` adds what `init()` and `parse_content` do to the memory of
other objects.
-/

namespace BackendLab.Proactor

open Support

/-- `MAX_EVENT_NUM`. -/
def maxEventNum : ℕ := 10000

/-- `m_maxrequestnum`, with the default value of the constructor. -/
def maxRequestNum : ℕ := 10000

/-- The bits of an event that the main loop tests; `hangup` stands for
`EPOLLRDHUP | EPOLLHUP | EPOLLERR`. -/
structure EventMask where
  hangup : Bool
  input : Bool
  output : Bool
  deriving DecidableEq, Repr

inductive Event where
  | listener
  | ready (fd : ℕ) (mask : EventMask)
  deriving DecidableEq, Repr

/-- Where the main thread stands: at the head of the `for` loop, or before the
named call. -/
inductive MainThread where
  | dispatching
  | accepting
  | reading (fd : ℕ)
  | appending (fd : ℕ)
  | posting
  | writing (fd : ℕ)
  | closing (fd : ℕ)
  deriving DecidableEq, Repr

/-- Where a worker stands: at `m_queuestat.wait()`, before it locks the queue,
before `process()`, and before the last `modifyfd` of `process()`. -/
inductive Worker where
  | idle
  | awake
  | holding (fd : ℕ)
  | finishing (fd : ℕ) (exit : HttpConn.ProcessExit)
  deriving DecidableEq, Repr

structure Server (ω : Type*) where
  users : ℕ → HttpConn
  userCount : ℤ
  /-- The descriptors that `accept` returned and nobody has closed. -/
  isOpen : ℕ → Bool
  /-- What epoll still waits for on a descriptor. -/
  armed : ℕ → Option Interest
  /-- The entries of `events` that the loop has not reached. -/
  batch : List Event
  main : MainThread
  workqueue : List ℕ
  queuestat : ℕ
  workers : ω → Worker

/-- The connection that an event is about. -/
def Event.slot : Event → Option ℕ
  | .listener => none
  | .ready fd _ => some fd

/-- The branch that the main loop takes for an event. -/
def Event.handler : Event → MainThread
  | .listener => .accepting
  | .ready fd mask =>
      if mask.hangup then .closing fd
      else if mask.input then .reading fd
      else if mask.output then .writing fd
      else .dispatching

/-- The connections that a list of events is about. -/
def slots (events : List Event) : List ℕ :=
  events.filterMap Event.slot

/-- The argument of the last `modifyfd` of `process()`. -/
def HttpConn.ProcessExit.interest : HttpConn.ProcessExit → Interest
  | .waiting => .input
  | .responding | .closing => .output

namespace Server

variable {ω : Type*} (s : Server ω)

/-- The state in which `main` enters its loop.  `new http_conn[MAX_FD]` leaves
the members as they happen to be. -/
def start (users : ℕ → HttpConn) : Server ω where
  users := users
  userCount := 0
  isOpen := fun _ => false
  armed := fun _ => none
  batch := []
  main := .dispatching
  workqueue := []
  queuestat := 0
  workers := fun _ => .idle

/-! ## epoll -/

/-- `modifyfd`, which has no effect on a descriptor that is not registered. -/
def modifyfd (fd : ℤ) (ev : Interest) : Server ω :=
  if 0 ≤ fd ∧ s.isOpen fd.toNat then
    { s with armed := Function.update s.armed fd.toNat (some ev) }
  else s

def removefd (fd : ℤ) : Server ω :=
  if 0 ≤ fd then
    { s with
      isOpen := Function.update s.isOpen fd.toNat false
      armed := Function.update s.armed fd.toNat none }
  else s

/-- epoll may report the event: the descriptor is armed, and the bits are
among those asked for. -/
def Reports : Event → Prop
  | .listener => True
  | .ready fd mask =>
      ∃ ev, s.armed fd = some ev ∧
        (mask.input → ev = .input) ∧ (mask.output → ev = .output) ∧
          (mask.hangup ∨ mask.input ∨ mask.output)

/-- `epoll_wait`: a reported descriptor is disarmed. -/
def fetch (events : List Event) : Server ω :=
  { s with
    batch := events
    armed := fun fd => if fd ∈ slots events then none else s.armed fd }

/-! ## The main thread -/

/-- `accept` returns the descriptor `fd`, and the connection is initialised or
refused. -/
def accept (fd : ℕ) : Server ω :=
  if maxFd ≤ s.userCount then { s with main := .dispatching }
  else
    { s with
      users := Function.update s.users fd
        { (s.users fd).init with sockfd := fd }
      userCount := s.userCount + 1
      isOpen := Function.update s.isOpen fd true
      armed := Function.update s.armed fd (some .input)
      main := .dispatching }

/-- `accept` returns -1: the result is not looked at, and `init` is called on
`users[-1]`. -/
def acceptFailed : Server ω :=
  if maxFd ≤ s.userCount then { s with main := .dispatching }
  else { s with userCount := s.userCount + 1, main := .dispatching }

def read (fd : ℕ) (ok : Bool) (p : Parser) : Server ω :=
  { s with
    users := Function.update s.users fd ((s.users fd).withParser p)
    main := if ok then .appending fd else .closing fd }

/-- `append`, up to the call of `m_queuestat.post()`. -/
def append (fd : ℕ) : Server ω :=
  if maxRequestNum < s.workqueue.length then { s with main := .dispatching }
  else { s with workqueue := s.workqueue ++ [fd], main := .posting }

def post : Server ω :=
  { s with queuestat := s.queuestat + 1, main := .dispatching }

def write (fd : ℕ) (r : HttpConn.WriteResult) : Server ω :=
  let t : Server ω :=
    { s with
      users := Function.update s.users fd r.conn
      main := if r.exit.returns (s.users fd).parser.linger then .dispatching
        else .closing fd }
  match r.exit.rearms with
  | none => t
  | some ev => t.modifyfd (s.users fd).sockfd ev

def closeconn (fd : ℕ) : Server ω :=
  if (s.users fd).sockfd = -1 then { s with main := .dispatching }
  else
    { s.removefd (s.users fd).sockfd with
      users := Function.update s.users fd { s.users fd with sockfd := -1 }
      userCount := s.userCount - 1
      main := .dispatching }

/-! ## The workers -/

variable [DecidableEq ω]

def wake (w : ω) : Server ω :=
  { s with
    queuestat := s.queuestat - 1
    workers := Function.update s.workers w .awake }

def take (w : ω) : Server ω :=
  match s.workqueue with
  | [] => { s with workers := Function.update s.workers w .idle }
  | fd :: rest =>
      { s with
        workqueue := rest
        workers := Function.update s.workers w (.holding fd) }

/-- `process()` up to its last statement. -/
def process (w : ω) (fd : ℕ) (fs : FileSystem) : Server ω :=
  let (exit, c) := (s.users fd).process fs
  let t : Server ω :=
    { s with
      users := Function.update s.users fd c
      workers := Function.update s.workers w (.finishing fd exit) }
  if exit = .closing ∧ (s.users fd).sockfd ≠ -1 then
    { t.removefd (s.users fd).sockfd with userCount := s.userCount - 1 }
  else t

/-- The last statement of `process()`. -/
def finish (w : ω) (fd : ℕ) (exit : HttpConn.ProcessExit) : Server ω :=
  { s with workers := Function.update s.workers w .idle }.modifyfd
    (s.users fd).sockfd exit.interest

end Server

/-! ## Steps -/

/-- One step of some thread, with what the kernel reports to it. -/
inductive Label (ω : Type*) where
  | fetch (events : List Event)
  | dispatch
  | accept (fd : ℕ)
  | acceptFailed
  | read (fd : ℕ) (outcomes : List RecvOutcome)
  | append (fd : ℕ)
  | post
  | write (fd : ℕ) (outcomes : List HttpConn.WritevOutcome)
  | closeconn (fd : ℕ)
  | wake (w : ω)
  | take (w : ω)
  | process (w : ω) (fs : FileSystem)
  | finish (w : ω)

/-- The connection on which the main thread runs `init`, `read`, `write` or
`closeconn` in a step. -/
def Label.mainSlot {ω : Type*} : Label ω → Option ℕ
  | .accept fd | .read fd _ | .write fd _ | .closeconn fd => some fd
  | _ => none

section

variable {ω : Type*} [DecidableEq ω]

/-- The steps of the threads, every method inside its own object.  `accept`
returns a descriptor that is not open and for which there is an object. -/
inductive Move : Server ω → Label ω → Server ω → Prop
  | fetch {s : Server ω} {events : List Event} (hmain : s.main = .dispatching)
      (hbatch : s.batch = []) (hlen : events.length ≤ maxEventNum)
      (hreports : ∀ e ∈ events, s.Reports e) (honce : (slots events).Nodup) :
      Move s (.fetch events) (s.fetch events)
  | dispatch {s : Server ω} {e : Event} {rest : List Event}
      (hmain : s.main = .dispatching) (hbatch : s.batch = e :: rest) :
      Move s .dispatch { s with batch := rest, main := e.handler }
  | accept {s : Server ω} {fd : ℕ} (hmain : s.main = .accepting)
      (hfresh : s.isOpen fd = false) (hfd : fd < maxFd) :
      Move s (.accept fd) (s.accept fd)
  | acceptFailed {s : Server ω} (hmain : s.main = .accepting) :
      Move s .acceptFailed s.acceptFailed
  | read {s : Server ω} {fd : ℕ} {outcomes : List RecvOutcome} {ok : Bool}
      {p : Parser} (hmain : s.main = .reading fd)
      (hread : (s.users fd).parser.read outcomes = some (ok, p)) :
      Move s (.read fd outcomes) (s.read fd ok p)
  | append {s : Server ω} {fd : ℕ} (hmain : s.main = .appending fd) :
      Move s (.append fd) (s.append fd)
  | post {s : Server ω} (hmain : s.main = .posting) : Move s .post s.post
  | write {s : Server ω} {fd : ℕ} {outcomes : List HttpConn.WritevOutcome}
      {r : HttpConn.WriteResult} (hmain : s.main = .writing fd)
      (hwrite : (s.users fd).write outcomes = some r) :
      Move s (.write fd outcomes) (s.write fd r)
  | closeconn {s : Server ω} {fd : ℕ} (hmain : s.main = .closing fd) :
      Move s (.closeconn fd) (s.closeconn fd)
  | wake {s : Server ω} {w : ω} (hw : s.workers w = .idle)
      (hpermit : 0 < s.queuestat) : Move s (.wake w) (s.wake w)
  | take {s : Server ω} {w : ω} (hw : s.workers w = .awake) :
      Move s (.take w) (s.take w)
  | process {s : Server ω} {w : ω} {fd : ℕ} {fs : FileSystem}
      (hw : s.workers w = .holding fd) :
      Move s (.process w fs) (s.process w fd fs)
  | finish {s : Server ω} {w : ω} {fd : ℕ} {exit : HttpConn.ProcessExit}
      (hw : s.workers w = .finishing fd exit) :
      Move s (.finish w) (s.finish w fd exit)

/-! ## Writes outside the object -/

/-- `init()` has been called on the object before `users[i]`. -/
def Server.overrun (s : Server ω) (i : ℕ) : Server ω :=
  { s with users := Function.update s.users i (s.users i).overrun }

/-- The exits of `write()` that run `init()`. -/
def HttpConn.WriteExit.inits (linger : Bool) : HttpConn.WriteExit → Bool
  | .nothing => true
  | .completed => linger
  | .again | .failed => false

/-- The NUL of `parse_content` is stored outside the read buffer. -/
def HttpConn.StrayStore (c : HttpConn) : Prop :=
  ∃ i : ℤ, c.parser.readRequest.1 = .doRequest (some i) ∧
    ¬ (0 ≤ i ∧ i < readBufferSize)

/-- What a step from `s` to `t` does to the objects of other connections: the
state becomes `u`.  A stray NUL can fall into any object. -/
def Strays (s : Server ω) (t u : Server ω) : Label ω → Prop
  | .accept fd =>
      u = if maxFd ≤ s.userCount then t else t.overrun (fd + 1)
  | .acceptFailed => u = if maxFd ≤ s.userCount then t else t.overrun 0
  | .write fd outcomes =>
      ∃ r, (s.users fd).write outcomes = some r ∧
        u = if r.exit.inits (s.users fd).parser.linger then t.overrun (fd + 1)
          else t
  | .process w _ =>
      ∃ fd, s.workers w = .holding fd ∧
        (u = t ∨ (s.users fd).StrayStore ∧
          ∃ users, u = { t with users := users })
  | _ => u = t

/-- The steps of the program as it is. -/
def Step (s : Server ω) (l : Label ω) (u : Server ω) : Prop :=
  ∃ t, Move s l t ∧ Strays s t u l

/-- The step meets no defect: `append` finds room, the object behind one on
which `init()` is called is not in use, and the NUL of `parse_content` falls
into the read buffer. -/
def Careful (s : Server ω) : Label ω → Prop
  | .append _ => s.workqueue.length ≤ maxRequestNum
  | .accept fd => s.userCount < maxFd → s.isOpen (fd + 1) = false
  | .acceptFailed => s.userCount < maxFd → s.isOpen 0 = false
  | .write fd outcomes =>
      ∀ r, (s.users fd).write outcomes = some r →
        r.exit.inits (s.users fd).parser.linger → s.isOpen (fd + 1) = false
  | .process w _ =>
      ∀ fd, s.workers w = .holding fd → ¬ (s.users fd).StrayStore
  | _ => True

end

end BackendLab.Proactor
