import BackendLab.Support.CString
import BackendLab.Support.Variables

/-!
# The WebSocket connection

`AsyncSend`, `SendCallBack` and its completion handler, run by any number of
threads.  Every `std::string` is a variable of its own: the elements of
`_send_que`, the parameters and the local `send_msg`.  A step is what a thread
does under the lock, the call of `async_write`, or the end of the lifetime of a
variable.
-/

namespace BackendLab.WebSocket

open Support

/-- Where a thread stands: outside; in `AsyncSend`, before the locked section;
between a locked section and `async_write`, with the message in the parameter
`msg` or in `send_msg`; or behind it, with the variables that are destroyed as
the functions return. -/
inductive Frame where
  | idle
  | entered (msg : ℕ)
  | elected (msg : ℕ)
  | returning (locals : List ℕ)
  deriving DecidableEq, Repr

/-- The variables that belong to the functions a thread is in. -/
def Frame.variables : Frame → List ℕ
  | .idle => []
  | .entered msg | .elected msg => [msg]
  | .returning locals => locals

/-- An `async_write` that has been initiated and has not completed: the variable
to whose characters its buffer refers, the strings that its handler captures, and
the characters at the initiation. -/
structure Write where
  buffer : ℕ
  captured : List ℕ
  bytes : Bytes
  deriving DecidableEq, Repr

/-- A connection that is used by the threads `ω`.  The messages that were pushed
and, with the option they were sent with, those whose write was initiated are kept
in order. -/
structure Connection (ω : Type*) where
  strings : Variables Bytes
  sendQue : List ℕ
  /-- The option of the stream that `text()` sets. -/
  text : Bool
  outstanding : List Write
  threads : ω → Frame
  pushed : List Bytes
  initiated : List (Bytes × Bool)

namespace Connection

variable {ω : Type*}

/-- Messages are sent as text unless the option is changed. -/
def start : Connection ω where
  strings := .empty
  sendQue := []
  text := true
  outstanding := []
  threads := fun _ => .idle
  pushed := []
  initiated := []

/-- The characters of a string, which is alive whenever the code reads it. -/
def read (s : Connection ω) (c : ℕ) : Bytes :=
  (s.strings.value c).getD []

variable [DecidableEq ω] (s : Connection ω) (w : ω)

/-- `AsyncSend` is called: its parameter is constructed. -/
def asyncSend (msg : Bytes) : Connection ω :=
  { s with
    strings := s.strings.make msg
    threads := Function.update s.threads w (.entered s.strings.next) }

/-- The locked section of `AsyncSend`, with its parameter at `msg`. -/
def push (msg : ℕ) : Connection ω :=
  { s with
    strings := s.strings.make (s.read msg)
    sendQue := s.sendQue ++ [s.strings.next]
    pushed := s.pushed ++ [s.read msg]
    threads := Function.update s.threads w
      (if 0 < s.sendQue.length then .returning [msg] else .elected msg) }

/-- `SendCallBack(std::move(_))` up to the call of `async_write`.  The handler
captures `self` only. -/
def sendCallBack (msg : ℕ) : Connection ω :=
  { s with
    strings := (s.strings.make (s.read msg)).assign msg []
    outstanding := s.outstanding ++ [⟨s.strings.next, [], s.read msg⟩]
    initiated := s.initiated ++ [(s.read msg, s.text)]
    threads := Function.update s.threads w
      (.returning [s.strings.next, msg]) }

/-- A variable is destroyed when its function returns. -/
def leave (c : ℕ) (locals : List ℕ) : Connection ω :=
  { s with
    strings := s.strings.destroy c
    threads := Function.update s.threads w (.returning locals) }

def rest : Connection ω :=
  { s with threads := Function.update s.threads w .idle }

/-- The locked section of the handler of the write `x`: `pop`, and a copy of the
front into `send_msg` if there is one.  To pop an empty queue is undefined. -/
def complete (x : Write) : Connection ω :=
  match s.sendQue with
  | [] => { s with outstanding := s.outstanding.erase x }
  | [front] =>
      { s with
        strings := s.strings.destroy front
        sendQue := []
        outstanding := s.outstanding.erase x }
  | front :: next :: rest =>
      { s with
        strings := (s.strings.destroy front).make (s.read next)
        sendQue := next :: rest
        outstanding := s.outstanding.erase x
        threads := Function.update s.threads w (.elected s.strings.next) }

end Connection

/-- One step of a thread. -/
inductive Action (ω : Type*) where
  | asyncSend (w : ω) (msg : Bytes)
  | push (w : ω)
  | sendCallBack (w : ω)
  | leave (w : ω)
  | complete (w : ω) (x : Write)

/-- The thread that makes the step. -/
def Action.thread {ω : Type*} : Action ω → ω
  | .asyncSend w _ | .push w | .sendCallBack w | .leave w | .complete w _ => w

/-- The steps of the threads.  Writes complete without an error, in any order, and
a handler is run by a thread that does nothing else. -/
inductive Step {ω : Type*} [DecidableEq ω] :
    Connection ω → Action ω → Connection ω → Prop
  | asyncSend {s : Connection ω} {w : ω} {msg : Bytes}
      (hw : s.threads w = .idle) : Step s (.asyncSend w msg) (s.asyncSend w msg)
  | push {s : Connection ω} {w : ω} {msg : ℕ}
      (hw : s.threads w = .entered msg) : Step s (.push w) (s.push w msg)
  | sendCallBack {s : Connection ω} {w : ω} {msg : ℕ}
      (hw : s.threads w = .elected msg) :
      Step s (.sendCallBack w) (s.sendCallBack w msg)
  | leave {s : Connection ω} {w : ω} {c : ℕ} {locals : List ℕ}
      (hw : s.threads w = .returning (c :: locals)) :
      Step s (.leave w) (s.leave w c locals)
  | rest {s : Connection ω} {w : ω} (hw : s.threads w = .returning []) :
      Step s (.leave w) (s.rest w)
  | complete {s : Connection ω} {w : ω} {x : Write}
      (hw : s.threads w = .idle) (hx : x ∈ s.outstanding) :
      Step s (.complete w x) (s.complete w x)

end BackendLab.WebSocket
