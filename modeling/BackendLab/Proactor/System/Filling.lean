import BackendLab.Proactor.System.Server

/-!
# A queue that nobody empties

The runs in which clients connect one after the other, each sends one byte, and
no worker is scheduled.  After `k` clients the state is `filled k`.  Connections
are accepted with ascending descriptors, so that what `init()` clears behind its
object has not been used yet.
-/

namespace BackendLab.Proactor

open Support

/-- The lowest descriptor that `accept` returns: the standard streams, the
listening socket and epoll have the lower ones. -/
def firstFd : ℕ := 5

/-- A connection that has received one byte. -/
def pendingConn (fd : ℕ) : HttpConn :=
  { HttpConn.blank with
    sockfd := fd
    parser := Parser.fresh.receive [71] }

variable {ω : Type*}

/-- The state in which the first `k` connections wait in the queue. -/
def filled (k : ℕ) : Server ω where
  users := fun fd =>
    if firstFd ≤ fd ∧ fd < firstFd + k then pendingConn fd else HttpConn.blank
  userCount := k
  isOpen := fun fd => decide (firstFd ≤ fd ∧ fd < firstFd + k)
  armed := fun _ => none
  batch := []
  main := .dispatching
  workqueue := List.range' firstFd k
  queuestat := k
  workers := fun _ => .idle

/-- One more connection has sent its byte, and is about to be queued. -/
def arrived (k : ℕ) : Server ω :=
  { filled (k + 1) with
    main := .appending (firstFd + k)
    workqueue := List.range' firstFd k
    queuestat := k }

/-- The main thread is about to accept the next connection. -/
def accepting (k : ℕ) : Server ω :=
  { filled k with main := .accepting }

/-- It has accepted it. -/
def accepted (k : ℕ) : Server ω :=
  { filled (k + 1) with
    users := Function.update (filled k : Server ω).users (firstFd + k)
      { HttpConn.blank with sockfd := (firstFd + k : ℕ) }
    armed := Function.update (fun _ => none) (firstFd + k) (some .input)
    workqueue := List.range' firstFd k
    queuestat := k }

theorem filled_zero :
    (filled 0 : Server ω) = Server.start fun _ => HttpConn.blank := by
  have hnot : ∀ fd, ¬ (firstFd ≤ fd ∧ fd < firstFd) := fun fd => by omega
  simp only [filled, Server.start, Nat.add_zero, hnot, if_false, decide_false,
    List.range'_zero]
  rfl

theorem overrun_blank : HttpConn.blank.overrun = HttpConn.blank := by
  have hbuf : HttpConn.blank.overrun.parser.readBuf =
      HttpConn.blank.parser.readBuf := by
    rw [← Vector.toList_inj]
    apply List.ext_getElem?
    intro k
    rw [HttpConn.getElem?_readBuf_overrun]
    split
    · next hlt =>
      have hlen : overrunLength - httpConn.offset .readBuf ≤ readBufferSize := by
        decide
      have hk : k < readBufferSize := by omega
      simp [HttpConn.blank, Parser.fresh, hk]
    · rfl
  have heq : HttpConn.blank.overrun =
      { HttpConn.blank with
        parser := { HttpConn.blank.parser with
          readBuf := HttpConn.blank.overrun.parser.readBuf } } := by
    rw [HttpConn.overrun, HttpConn.blank]
  rw [heq, hbuf]

variable {k : ℕ}

theorem users_filled_succ :
    (filled (k + 1) : Server ω).users =
      Function.update (filled k : Server ω).users (firstFd + k)
        (pendingConn (firstFd + k)) := by
  funext fd
  by_cases hfd : fd = firstFd + k
  · subst hfd
    rw [Function.update_self]
    exact if_pos ⟨by omega, by omega⟩
  · rw [Function.update_of_ne hfd]
    have hiff : firstFd ≤ fd ∧ fd < firstFd + (k + 1) ↔
        firstFd ≤ fd ∧ fd < firstFd + k := by omega
    simp only [filled, hiff]

theorem isOpen_filled_succ :
    (filled (k + 1) : Server ω).isOpen =
      Function.update (filled k : Server ω).isOpen (firstFd + k) true := by
  funext fd
  by_cases hfd : fd = firstFd + k
  · subst hfd
    rw [Function.update_self]
    exact decide_eq_true ⟨by omega, by omega⟩
  · rw [Function.update_of_ne hfd]
    have hiff : firstFd ≤ fd ∧ fd < firstFd + (k + 1) ↔
        firstFd ≤ fd ∧ fd < firstFd + k := by omega
    simp only [filled, hiff]

theorem users_filled_of_le {fd : ℕ} (h : firstFd + k ≤ fd) :
    (filled k : Server ω).users fd = HttpConn.blank :=
  if_neg fun hlt => by omega

theorem isOpen_filled_of_le {fd : ℕ} (h : firstFd + k ≤ fd) :
    (filled k : Server ω).isOpen fd = false :=
  decide_eq_false fun hlt => by omega

theorem accept_accepting (hk : k < maxFd) :
    (accepting k : Server ω).accept (firstFd + k) = accepted k := by
  have hcount : ¬ ((maxFd : ℤ) ≤ (accepting k : Server ω).userCount) := by
    simp only [accepting, filled]
    omega
  have hinit : { ((accepting k : Server ω).users (firstFd + k)).init with
        sockfd := (firstFd + k : ℕ) } =
      { HttpConn.blank with sockfd := (firstFd + k : ℕ) } := rfl
  rw [Server.accept, if_neg hcount, hinit, accepted, isOpen_filled_succ]
  rfl

theorem overrun_accepted :
    (accepted k : Server ω).overrun (firstFd + k + 1) = accepted k := by
  have hblank : (accepted k : Server ω).users (firstFd + k + 1) =
      HttpConn.blank := by
    have hne : firstFd + k + 1 ≠ firstFd + k := by omega
    simp only [accepted, Function.update_of_ne hne]
    exact users_filled_of_le (by omega)
  rw [Server.overrun, hblank, overrun_blank, ← hblank, Function.update_eq_self]

/-- The bits of an event that reports input. -/
def inputMask : EventMask := ⟨false, true, false⟩

/-- The main thread is about to read the byte. -/
def reading (k : ℕ) : Server ω :=
  { accepted k with armed := fun _ => none, main := .reading (firstFd + k) }

theorem fetch_accepted :
    (accepted k : Server ω).fetch [.ready (firstFd + k) inputMask] =
      { accepted k with
        armed := fun _ => none
        batch := [.ready (firstFd + k) inputMask] } := by
  have harmed : (fun fd => if fd ∈ slots [.ready (firstFd + k) inputMask]
      then none else (accepted k : Server ω).armed fd) = fun _ => none := by
    funext fd
    by_cases hfd : fd = firstFd + k
    · simp [slots, Event.slot, hfd]
    · simp [slots, Event.slot, hfd, accepted]
  rw [Server.fetch, harmed]

theorem read_reading :
    (reading k : Server ω).read (firstFd + k) true (Parser.fresh.receive [71]) =
      arrived k := by
  rw [Server.read, reading, accepted, arrived, users_filled_succ]
  simp only [Function.update_self, Function.update_idem]
  rfl

theorem post_append_arrived (hk : k ≤ maxRequestNum) :
    ((arrived k : Server ω).append (firstFd + k)).post = filled (k + 1) := by
  have hroom : ¬ maxRequestNum < (arrived k : Server ω).workqueue.length := by
    simpa [arrived] using hk
  rw [Server.append, if_neg hroom, Server.post]
  simp only [arrived, filled, List.range'_concat, Nat.one_mul]

/-! ## The runs -/

section Runs

variable [DecidableEq ω]

/-- A step that stays inside the objects, and meets no defect. -/
def Quiet (s t : Server ω) : Prop :=
  ∃ l, Move s l t ∧ Step s l t ∧ Careful s l

theorem quiet_of_move {s t : Server ω} {l : Label ω} (hmove : Move s l t)
    (hstrays : Strays s t t l) (hcareful : Careful s l) : Quiet s t :=
  ⟨l, hmove, ⟨t, hmove, hstrays⟩, hcareful⟩

open Relation in
/-- The main thread takes up the listening socket and accepts. -/
theorem filled_accepts (hk : firstFd + k < maxFd) :
    ReflTransGen Quiet (filled k : Server ω) (accepted k) := by
  have hfetch : Move (filled k : Server ω) (.fetch [.listener])
      ((filled k).fetch [.listener]) :=
    .fetch rfl rfl (by decide) (by simp [Server.Reports]) (by decide)
  have hdispatch : Move ((filled k : Server ω).fetch [.listener]) .dispatch
      (accepting k) :=
    @Move.dispatch ω _ _ .listener [] rfl rfl
  have hclosed : ∀ fd, firstFd + k ≤ fd →
      (accepting k : Server ω).isOpen fd = false := by
    intro fd hle
    have hfilled : (filled k : Server ω).isOpen fd = false :=
      isOpen_filled_of_le hle
    exact hfilled
  have haccept : Move (accepting k : Server ω) (.accept (firstFd + k))
      (accepted k) := by
    rw [← accept_accepting (by omega)]
    exact .accept rfl (hclosed _ (by omega)) hk
  have hstrays : Strays (accepting k : Server ω) (accepted k) (accepted k)
      (.accept (firstFd + k)) := by
    rw [Strays, overrun_accepted, ite_self]
  have h1 := quiet_of_move hfetch rfl trivial
  have h2 := quiet_of_move hdispatch rfl trivial
  have h3 : Quiet (accepting k : Server ω) (accepted k) :=
    quiet_of_move haccept hstrays fun _ => hclosed _ (by omega)
  exact ((ReflTransGen.single h1).tail h2).tail h3

open Relation in
/-- The byte arrives, and the main thread reads it. -/
theorem filled_arrives (hk : firstFd + k < maxFd) :
    ReflTransGen Quiet (filled k : Server ω) (arrived k) := by
  have hreports : (accepted k : Server ω).Reports
      (.ready (firstFd + k) inputMask) :=
    ⟨.input, by simp [accepted], by simp, by simp [inputMask],
      by simp [inputMask]⟩
  have hfetch : Move (accepted k : Server ω)
      (.fetch [.ready (firstFd + k) inputMask])
      ((accepted k).fetch [.ready (firstFd + k) inputMask]) :=
    .fetch rfl rfl (by simp [maxEventNum])
      (by
        intro e he
        rw [List.mem_singleton.mp he]
        exact hreports)
      (List.pairwise_singleton _ _)
  have hdispatch : Move
      ((accepted k : Server ω).fetch [.ready (firstFd + k) inputMask])
      .dispatch (reading k) := by
    rw [fetch_accepted]
    exact @Move.dispatch ω _ _ (.ready (firstFd + k) inputMask) [] rfl rfl
  have hread : Move (reading k : Server ω)
      (.read (firstFd + k) [.data [71], .eagain]) (arrived k) := by
    rw [← read_reading]
    refine .read rfl ?_
    have hconn : ((reading k : Server ω).users (firstFd + k)).parser =
        Parser.fresh := by
      simp [reading, accepted, HttpConn.blank]
    rw [hconn]
    exact Parser.read_data_eagain (by decide) (by decide)
  exact (((filled_accepts hk).tail (quiet_of_move hfetch rfl trivial)).tail
    (quiet_of_move hdispatch rfl trivial)).tail
    (quiet_of_move hread rfl trivial)

open Relation in
theorem filled_reaches_succ (hk : k ≤ maxRequestNum) :
    ReflTransGen Quiet (filled k : Server ω) (filled (k + 1)) := by
  have hfd : firstFd + k < maxFd := by
    simp only [maxRequestNum, firstFd, maxFd] at *
    omega
  have happend : Move (arrived k : Server ω) (.append (firstFd + k))
      ((arrived k).append (firstFd + k)) := .append rfl
  have hmain : ((arrived k : Server ω).append (firstFd + k)).main = .posting := by
    have hroom : ¬ maxRequestNum < (arrived k : Server ω).workqueue.length := by
      simpa [arrived] using hk
    rw [Server.append, if_neg hroom]
  have hpost : Move ((arrived k : Server ω).append (firstFd + k)) .post
      (filled (k + 1)) := by
    rw [← post_append_arrived hk]
    exact .post hmain
  have hcareful : Careful (arrived k : Server ω) (.append (firstFd + k)) := by
    simpa [Careful, arrived] using hk
  exact ((filled_arrives hfd).tail (quiet_of_move happend rfl hcareful)).tail
    (quiet_of_move hpost rfl trivial)

open Relation in
/-- The queue fills up to one entry more than `m_maxrequestnum`. -/
theorem start_reaches_filled (hk : k ≤ maxRequestNum + 1) :
    ReflTransGen Quiet (Server.start fun _ => HttpConn.blank : Server ω)
      (filled k) := by
  induction k with
  | zero =>
      rw [filled_zero]
  | succ k ih => exact (ih (by omega)).trans (filled_reaches_succ (by omega))

end Runs

end BackendLab.Proactor
