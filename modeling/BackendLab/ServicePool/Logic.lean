import BackendLab.Support.Runs
import Mathlib.Data.List.Basic
import Mathlib.Tactic.Common

/-!
# The logic system

The queue of `LogicSystem`, with the threads that work on it: the I/O threads,
which call `PostMsgToQue`, the worker, which runs `DealMsg`, and the thread that
destroys the system.  A step is a section under the mutex, or one statement
outside of it; the section in which the worker waits is cut in two, since the
destructor, which takes no lock, can store `_b_stop` and notify between the test
of the condition and the wait.
-/

namespace BackendLab.ServicePool

open Support Relation

/-- Where the worker stands in `DealMsg`.

* `entering`, `relocking`: before it locks the mutex, at the head of the `for`
  loop or behind a callback of the draining loop;
* `checking`: at the condition of the waiting loop;
* `parking`: the condition was true, and `wait` has not yet been entered;
* `blocked`: in `wait`, with a notification or without;
* `waking`: woken, and about to lock the mutex again;
* `testing`: at `if (_b_stop)`;
* `draining`: at the condition of the draining loop;
* `running`: in the callback for a message, of the draining loop or not. -/
inductive Worker (μ : Type*) where
  | entering
  | checking
  | parking
  | blocked (notified : Bool)
  | waking
  | testing
  | draining
  | running (stopping : Bool) (msg : μ)
  | relocking
  | exited
  deriving DecidableEq, Repr

/-- Where `~LogicSystem` stands. -/
inductive Destructor where
  | alive
  | stored
  | joining
  | joined
  deriving DecidableEq, Repr

structure LogicSystem (μ : Type*) where
  msgQue : List μ
  bStop : Bool
  worker : Worker μ
  destructor : Destructor
  /-- The messages posted and those for which the callback has run, in order. -/
  posted : List μ
  dispatched : List μ
  deriving DecidableEq, Repr

namespace Worker

variable {μ : Type*}

/-- The worker holds the mutex. -/
def locks : Worker μ → Bool
  | checking | parking | testing | draining => true
  | entering | blocked _ | waking | running _ _ | relocking | exited => false

/-- The message in the worker's hand. -/
def hand : Worker μ → List μ
  | running _ msg => [msg]
  | entering | checking | parking | blocked _ | waking | testing | draining
  | relocking | exited => []

/-- The worker has read that `_b_stop` is set. -/
def stopping : Worker μ → Bool
  | running stopping _ => stopping
  | draining | relocking | exited => true
  | entering | checking | parking | blocked _ | waking | testing => false

/-- `notify_one`: only a thread that is in `wait` is notified. -/
def notifyOne : Worker μ → Worker μ
  | blocked _ => blocked true
  | w => w

end Worker

namespace LogicSystem

variable {μ : Type*}

def start : LogicSystem μ := ⟨[], false, .entering, .alive, [], []⟩

def postMsgToQue (s : LogicSystem μ) (msg : μ) : LogicSystem μ :=
  { s with
    msgQue := s.msgQue ++ [msg],
    posted := s.posted ++ [msg],
    worker :=
      if (s.msgQue ++ [msg]).length = 1 then s.worker.notifyOne else s.worker }

/-- The front of the queue is taken and its callback begins. -/
def popFront (s : LogicSystem μ) (stopping : Bool) : Option (LogicSystem μ) :=
  match s.msgQue with
  | [] => none
  | msg :: rest =>
      some { s with msgQue := rest, worker := .running stopping msg }

/-- One step of `DealMsg`.  A worker in `wait` can go on without having been
notified.  There is no step in which `front` is called on an empty queue. -/
def dealMsg (s : LogicSystem μ) : Option (LogicSystem μ) :=
  match s.worker with
  | .entering => some { s with worker := .checking }
  | .checking =>
      if s.msgQue.isEmpty && !s.bStop then some { s with worker := .parking }
      else some { s with worker := .testing }
  | .parking => some { s with worker := .blocked false }
  | .blocked _ => some { s with worker := .waking }
  | .waking => some { s with worker := .checking }
  | .testing =>
      if s.bStop then some { s with worker := .draining }
      else s.popFront false
  | .draining =>
      if s.msgQue.isEmpty then some { s with worker := .exited }
      else s.popFront true
  | .running stopping msg =>
      some { s with
        dispatched := s.dispatched ++ [msg],
        worker := if stopping then .relocking else .entering }
  | .relocking => some { s with worker := .draining }
  | .exited => none

end LogicSystem

/-- What happens next: a call of `PostMsgToQue`, a step of the worker, or one of
the three statements of the destructor. -/
inductive Action (μ : Type*) where
  | post (msg : μ)
  | deal
  | store
  | notify
  | join
  deriving DecidableEq, Repr

variable {μ : Type*}

inductive LogicStep : LogicSystem μ → Action μ → LogicSystem μ → Prop
  | post {s : LogicSystem μ} (msg : μ) (h : s.worker.locks = false) :
      LogicStep s (.post msg) (s.postMsgToQue msg)
  | deal {s t : LogicSystem μ} (h : s.dealMsg = some t) :
      LogicStep s .deal t
  | store {s : LogicSystem μ} (h : s.destructor = .alive) :
      LogicStep s .store { s with bStop := true, destructor := .stored }
  | notify {s : LogicSystem μ} (h : s.destructor = .stored) :
      LogicStep s .notify
        { s with worker := s.worker.notifyOne, destructor := .joining }
  | join {s : LogicSystem μ} (h : s.destructor = .joining)
      (hw : s.worker = .exited) :
      LogicStep s .join { s with destructor := .joined }

def LogicReachable (s : LogicSystem μ) : Prop :=
  ReflTransGen (fun s t => ∃ a, LogicStep s a t) LogicSystem.start s

/-! ## What a step of the worker does -/

/-- The worker goes on to `w`, with the queue as it is. -/
structure Moves (s : LogicSystem μ) (w : Worker μ) : Prop where
  hand : s.worker.hand = []
  hand_next : w.hand = []
  parking : w = .parking → s.msgQue = [] ∧ s.bStop = false
  blocked : ∀ {b}, w = .blocked b → s.worker = .parking
  testing : w = .testing → s.msgQue ≠ [] ∨ s.bStop = true
  exited : w = .exited → s.msgQue = []
  stopping : w.stopping = true → s.worker.stopping = true ∨ s.bStop = true

/-- A step of the worker is a move, or takes a message, or ends a callback. -/
inductive Deals (s : LogicSystem μ) : LogicSystem μ → Prop
  | moves {w : Worker μ} (h : Moves s w) : Deals s { s with worker := w }
  | takes {stopping : Bool} {msg : μ} {rest : List μ}
      (hand : s.worker.hand = []) (hque : s.msgQue = msg :: rest)
      (hstop : stopping = true → s.worker.stopping = true) :
      Deals s { s with msgQue := rest, worker := .running stopping msg }
  | dispatches {stopping : Bool} {msg : μ}
      (h : s.worker = .running stopping msg) :
      Deals s { s with
        dispatched := s.dispatched ++ [msg],
        worker := if stopping then .relocking else .entering }

theorem deals_of_popFront {s t : LogicSystem μ} {stopping : Bool}
    (hand : s.worker.hand = [])
    (hstop : stopping = true → s.worker.stopping = true)
    (h : s.popFront stopping = some t) : Deals s t := by
  rw [LogicSystem.popFront] at h
  split at h
  · cases h
  · next msg rest hque =>
      rw [← Option.some.inj h]
      exact .takes hand hque hstop

/-- A move to a place at which nothing is known of the queue. -/
theorem Moves.plain {s : LogicSystem μ} {w : Worker μ}
    (hand : s.worker.hand = [])
    (hw : w = .checking ∨ w = .waking) : Moves s w := by
  rcases hw with rfl | rfl
  all_goals
    exact ⟨hand, rfl, by simp, by simp, by simp, by simp,
      by simp [Worker.stopping]⟩

theorem deals_of_dealMsg {s t : LogicSystem μ} (h : s.dealMsg = some t) :
    Deals s t := by
  cases hw : s.worker with
  | entering =>
      simp only [LogicSystem.dealMsg, hw, Option.some.injEq] at h
      rw [← h]
      exact .moves (.plain (by rw [hw, Worker.hand]) (.inl rfl))
  | checking =>
      simp only [LogicSystem.dealMsg, hw] at h
      split at h
      · next hwait =>
          simp only [Bool.and_eq_true, List.isEmpty_iff,
            Bool.not_eq_true'] at hwait
          rw [← Option.some.inj h]
          refine .moves ?_
          constructor <;> simp [hw, Worker.hand, Worker.stopping, hwait]
      · next hgo =>
          have htest : s.msgQue ≠ [] ∨ s.bStop = true := by
            by_contra hboth
            simp at hboth
            simp [hboth] at hgo
          rw [← Option.some.inj h]
          refine .moves ?_
          constructor <;> simp [hw, Worker.hand, Worker.stopping]
          exact htest
  | parking =>
      simp only [LogicSystem.dealMsg, hw, Option.some.injEq] at h
      rw [← h]
      refine .moves ?_
      constructor <;> simp [hw, Worker.hand, Worker.stopping]
  | blocked notified =>
      simp only [LogicSystem.dealMsg, hw, Option.some.injEq] at h
      rw [← h]
      exact .moves (.plain (by rw [hw, Worker.hand]) (.inr rfl))
  | waking =>
      simp only [LogicSystem.dealMsg, hw, Option.some.injEq] at h
      rw [← h]
      exact .moves (.plain (by rw [hw, Worker.hand]) (.inl rfl))
  | testing =>
      simp only [LogicSystem.dealMsg, hw] at h
      split at h
      · next hstop =>
          rw [← Option.some.inj h]
          refine .moves ?_
          constructor <;> simp [hw, Worker.hand, Worker.stopping, hstop]
      · exact deals_of_popFront (by rw [hw, Worker.hand]) (by simp) h
  | draining =>
      simp only [LogicSystem.dealMsg, hw] at h
      split at h
      · next hempty =>
          rw [List.isEmpty_iff] at hempty
          rw [← Option.some.inj h]
          refine .moves ?_
          constructor <;> simp [hw, Worker.hand, Worker.stopping, hempty]
      · exact deals_of_popFront (by rw [hw, Worker.hand])
          (fun _ => by rw [hw, Worker.stopping]) h
  | running stopping msg =>
      simp only [LogicSystem.dealMsg, hw, Option.some.injEq] at h
      rw [← h]
      exact .dispatches hw
  | relocking =>
      simp only [LogicSystem.dealMsg, hw, Option.some.injEq] at h
      rw [← h]
      refine .moves ?_
      constructor <;> simp [hw, Worker.hand, Worker.stopping]
  | exited =>
      simp only [LogicSystem.dealMsg, hw] at h
      cases h

/-! ## Messages are handled in order -/

/-- What holds in every state.  A worker that waits, or is about to, has left
nothing in the queue. -/
structure LogicInvariant (s : LogicSystem μ) : Prop where
  order : s.dispatched ++ s.worker.hand ++ s.msgQue = s.posted
  parked : s.worker = .parking ∨ s.worker = .blocked false → s.msgQue = []
  tested : s.worker = .testing → s.msgQue ≠ [] ∨ s.bStop = true
  stopped : s.worker.stopping = true → s.bStop = true

@[simp] theorem Worker.hand_notifyOne (w : Worker μ) :
    w.notifyOne.hand = w.hand := by
  cases w <;> rfl

@[simp] theorem Worker.stopping_notifyOne (w : Worker μ) :
    w.notifyOne.stopping = w.stopping := by
  cases w <;> rfl

@[simp] theorem Worker.locks_notifyOne (w : Worker μ) :
    w.notifyOne.locks = w.locks := by
  cases w <;> rfl

theorem Worker.notifyOne_ne_blocked (w : Worker μ) :
    w.notifyOne ≠ .blocked false := by
  cases w <;> simp [notifyOne]

theorem Worker.notifyOne_eq {w : Worker μ} {v : Worker μ}
    (hv : ∀ b, v ≠ .blocked b) (h : w.notifyOne = v) : w = v := by
  cases w with
  | blocked b => exact absurd h.symm (hv true)
  | _ => exact h

theorem logicInvariant_start : LogicInvariant (LogicSystem.start : LogicSystem μ) := by
  constructor <;> simp [LogicSystem.start, Worker.hand, Worker.stopping]

theorem LogicInvariant.post {s : LogicSystem μ} (hs : LogicInvariant s)
    (msg : μ) (h : s.worker.locks = false) :
    LogicInvariant (s.postMsgToQue msg) := by
  have hhand : (s.postMsgToQue msg).worker.hand = s.worker.hand := by
    simp only [LogicSystem.postMsgToQue]
    split <;> simp
  have hstopping : (s.postMsgToQue msg).worker.stopping = s.worker.stopping := by
    simp only [LogicSystem.postMsgToQue]
    split <;> simp
  have hlocks : (s.postMsgToQue msg).worker.locks = false := by
    simp only [LogicSystem.postMsgToQue]
    split <;> simp [h]
  constructor
  · rw [hhand]
    simp only [LogicSystem.postMsgToQue, ← hs.order, List.append_assoc]
  · intro hw
    rcases hw with hw | hw
    · rw [hw] at hlocks
      cases hlocks
    -- A worker in `wait` had left the queue empty, so it has been notified.
    · simp only [LogicSystem.postMsgToQue] at hw
      split at hw
      · exact absurd hw s.worker.notifyOne_ne_blocked
      · next hlen =>
          rw [hs.parked (.inr hw)] at hlen
          exact absurd rfl hlen
  · intro hw
    rw [hw] at hlocks
    cases hlocks
  · rw [hstopping]
    exact hs.stopped

theorem LogicInvariant.deal {s t : LogicSystem μ} (hs : LogicInvariant s)
    (h : Deals s t) : LogicInvariant t := by
  cases h with
  | @moves w h =>
      constructor
      · rw [← hs.order, h.hand, h.hand_next]
      · intro hw
        rcases hw with hw | hw
        · exact (h.parking hw).1
        · exact hs.parked (.inl (h.blocked hw))
      · exact h.testing
      · intro hw
        rcases h.stopping hw with hw | hstop
        · exact hs.stopped hw
        · exact hstop
  | @takes stopping msg rest hand hque hstop =>
      constructor
      · rw [← hs.order, hand, hque]
        simp [Worker.hand]
      · simp
      · simp
      · intro hw
        exact hs.stopped (hstop hw)
  | @dispatches stopping msg h =>
      have horder := hs.order
      have hstopped := hs.stopped
      rw [h] at horder hstopped
      cases stopping with
      | false => constructor <;> simp_all [Worker.hand, Worker.stopping]
      | true => constructor <;> simp_all [Worker.hand, Worker.stopping]

theorem LogicInvariant.notify {s : LogicSystem μ} (hs : LogicInvariant s) :
    LogicInvariant
      { s with worker := s.worker.notifyOne, destructor := .joining } := by
  constructor
  · simp only [Worker.hand_notifyOne, hs.order]
  · intro hw
    rcases hw with hw | hw
    · exact hs.parked (.inl (Worker.notifyOne_eq (by simp) hw))
    · exact absurd hw s.worker.notifyOne_ne_blocked
  · intro hw
    exact hs.tested (Worker.notifyOne_eq (by simp) hw)
  · simp only [Worker.stopping_notifyOne]
    exact hs.stopped

theorem LogicInvariant.step {s t : LogicSystem μ} {a : Action μ}
    (hs : LogicInvariant s) (h : LogicStep s a t) : LogicInvariant t := by
  cases h with
  | post msg h => exact hs.post msg h
  | deal h => exact hs.deal (deals_of_dealMsg h)
  | store h => exact ⟨hs.order, hs.parked, fun _ => .inr rfl, fun _ => rfl⟩
  | notify h => exact hs.notify
  | join h hw => exact ⟨hs.order, hs.parked, hs.tested, hs.stopped⟩

theorem LogicReachable.invariant {s : LogicSystem μ} (h : LogicReachable s) :
    LogicInvariant s := by
  apply invariant_of_run h logicInvariant_start
  intro s t hs hstep
  obtain ⟨a, hstep⟩ := hstep
  exact hs.step hstep

/-- The worker can go on until it has left its loop: it never calls `front` on an
empty queue. -/
theorem LogicReachable.exists_dealMsg {s : LogicSystem μ} (h : LogicReachable s)
    (hw : s.worker ≠ .exited) : ∃ t, s.dealMsg = some t := by
  have hpop {stopping : Bool} (hne : s.msgQue ≠ []) :
      ∃ t, s.popFront stopping = some t := by
    obtain ⟨msg, rest, hque⟩ := List.exists_cons_of_ne_nil hne
    simp only [LogicSystem.popFront, hque]
    exact ⟨_, rfl⟩
  rw [LogicSystem.dealMsg]
  cases hworker : s.worker with
  | exited => exact absurd hworker hw
  | checking =>
      simp only
      split <;> exact ⟨_, rfl⟩
  | testing =>
      simp only
      split
      · exact ⟨_, rfl⟩
      · next hstop => exact hpop ((h.invariant.tested hworker).resolve_right hstop)
  | draining =>
      simp only
      split
      · exact ⟨_, rfl⟩
      · next hne => exact hpop fun hnil => hne (by rw [hnil, List.isEmpty_nil])
  | _ => exact ⟨_, rfl⟩

/-- The worker leaves its loop only when the queue is empty. -/
theorem msgQue_eq_nil_of_exit {s t : LogicSystem μ} {a : Action μ}
    (h : LogicStep s a t) (hs : s.worker ≠ .exited)
    (ht : t.worker = .exited) : t.msgQue = [] := by
  cases h with
  | post msg h =>
      simp only [LogicSystem.postMsgToQue] at ht
      split at ht
      · exact absurd (Worker.notifyOne_eq (by simp) ht) hs
      · exact absurd ht hs
  | deal h =>
      cases deals_of_dealMsg h with
      | moves hmoves => exact hmoves.exited ht
      | takes hand hque hstop => cases ht
      | @dispatches stopping msg hw => cases stopping <;> cases ht
  | store h => exact absurd ht hs
  | notify h => exact absurd (Worker.notifyOne_eq (by simp) ht) hs
  | join h hw => exact absurd hw hs

/-- Every message is handled once and in order; while the system is not being
stopped, a worker that waits without a notification has an empty queue; and when
the worker leaves its loop, the system is being stopped and the queue is
empty. -/
theorem LogicReachable.delivers_in_order {s : LogicSystem μ}
    (h : LogicReachable s) :
    s.dispatched ++ s.worker.hand ++ s.msgQue = s.posted ∧
      (s.bStop = false → s.worker = .blocked false → s.msgQue = []) ∧
      (∀ a t, LogicStep s a t → s.worker ≠ .exited → t.worker = .exited →
        t.bStop = true ∧ t.msgQue = []) := by
  have hinv := h.invariant
  refine ⟨hinv.order, ?_, ?_⟩
  · intro _ hw
    exact hinv.parked (.inr hw)
  · intro a t hstep hs ht
    have hstopping : t.worker.stopping = true := by rw [ht, Worker.stopping]
    exact ⟨(hinv.step hstep).stopped hstopping,
      msgQue_eq_nil_of_exit hstep hs ht⟩

/-- A message is posted while the worker waits. -/
theorem delivers_in_order_waiting :
    LogicReachable (⟨[7], false, .blocked true, .alive, [7], []⟩ :
        LogicSystem ℕ) ∧
      ([] : List ℕ) ++ Worker.hand (.blocked true) ++ [7] = [7] := by
  have hreach : LogicReachable (⟨[7], false, .blocked true, .alive, [7], []⟩ :
      LogicSystem ℕ) := by
    have h1 : LogicStep (LogicSystem.start : LogicSystem ℕ) .deal
        ⟨[], false, .checking, .alive, [], []⟩ := .deal rfl
    have h2 : LogicStep (⟨[], false, .checking, .alive, [], []⟩ : LogicSystem ℕ)
        .deal ⟨[], false, .parking, .alive, [], []⟩ := .deal rfl
    have h3 : LogicStep (⟨[], false, .parking, .alive, [], []⟩ : LogicSystem ℕ)
        .deal ⟨[], false, .blocked false, .alive, [], []⟩ := .deal rfl
    have h4 := LogicStep.post 7 (s :=
      (⟨[], false, .blocked false, .alive, [], []⟩ : LogicSystem ℕ)) rfl
    exact (((ReflTransGen.single ⟨_, h1⟩).tail ⟨_, h2⟩).tail ⟨_, h3⟩).tail
      ⟨_, h4⟩
  exact ⟨hreach, hreach.delivers_in_order.1⟩

/-! ## Stopping -/

/-- The destructor has notified and waits for the worker, which waits without a
notification. -/
def Lost (s : LogicSystem μ) : Prop :=
  s.destructor = .joining ∧ s.worker = .blocked false

/-- The destructor does not notify between the test of the condition and the
wait. -/
def Timely (s : LogicSystem μ) (a : Action μ) : Prop :=
  a = .notify → s.worker ≠ .parking

/-- Once the destructor has notified, the worker neither waits nor is about
to. -/
structure AwakeInvariant (s : LogicSystem μ) : Prop where
  stored : s.destructor ≠ .alive → s.bStop = true
  awake : s.destructor = .joining ∨ s.destructor = .joined →
    s.worker ≠ .parking ∧ s.worker ≠ .blocked false

theorem awakeInvariant_start :
    AwakeInvariant (LogicSystem.start : LogicSystem μ) := by
  constructor <;> simp [LogicSystem.start]

theorem AwakeInvariant.deal {s t : LogicSystem μ} (hs : AwakeInvariant s)
    (h : Deals s t) : AwakeInvariant t := by
  cases h with
  | @moves w h =>
      refine ⟨hs.stored, ?_⟩
      intro hd
      have hstop : s.bStop = true := by
        apply hs.stored
        intro halive
        rcases hd with hd | hd <;> cases halive.symm.trans hd
      constructor
      · intro hw
        rw [(h.parking hw).2] at hstop
        cases hstop
      · intro hw
        exact (hs.awake hd).1 (h.blocked hw)
  | takes hand hque hstop =>
      refine ⟨hs.stored, ?_⟩
      intro _
      constructor <;> simp
  | @dispatches stopping msg h =>
      refine ⟨hs.stored, ?_⟩
      intro _
      cases stopping <;> constructor <;> simp

theorem AwakeInvariant.post {s : LogicSystem μ} (hs : AwakeInvariant s)
    (msg : μ) : AwakeInvariant (s.postMsgToQue msg) := by
  refine ⟨hs.stored, ?_⟩
  intro hd
  obtain ⟨hparking, hblocked⟩ := hs.awake hd
  simp only [LogicSystem.postMsgToQue]
  split
  · refine ⟨?_, s.worker.notifyOne_ne_blocked⟩
    intro hw
    exact hparking (Worker.notifyOne_eq (by simp) hw)
  · exact ⟨hparking, hblocked⟩

theorem AwakeInvariant.step {s t : LogicSystem μ} {a : Action μ}
    (hs : AwakeInvariant s) (h : LogicStep s a t) (ha : Timely s a) :
    AwakeInvariant t := by
  cases h with
  | post msg h => exact hs.post msg
  | deal h => exact hs.deal (deals_of_dealMsg h)
  | store h => exact ⟨fun _ => rfl, by simp⟩
  | notify h =>
      have hstop : s.bStop = true := hs.stored (by simp [h])
      refine ⟨fun _ => hstop, fun _ => ⟨?_, s.worker.notifyOne_ne_blocked⟩⟩
      intro hw
      exact ha rfl (Worker.notifyOne_eq (by simp) hw)
  | join h hw =>
      have hstop : s.bStop = true := hs.stored (by simp [h])
      exact ⟨fun _ => hstop, fun _ => hs.awake (.inl h)⟩

/-- The wake-up of the destructor is not lost in a run in which it does not fall
between the test of the condition and the wait; where it does, it is lost with
the next step of the worker. -/
theorem not_lost_of_timely :
    (∀ s : LogicSystem μ,
      ReflTransGen (fun s t => ∃ a, LogicStep s a t ∧ Timely s a)
        LogicSystem.start s → ¬ Lost s) ∧
    (∀ s t : LogicSystem μ, LogicStep s .notify t → ¬ Timely s .notify →
      ∃ u, LogicStep t .deal u ∧ Lost u) := by
  constructor
  · intro s hrun
    have hinv : AwakeInvariant s := by
      apply invariant_of_run hrun awakeInvariant_start
      intro s t hs hstep
      obtain ⟨a, hstep, ha⟩ := hstep
      exact hs.step hstep ha
    intro hlost
    exact (hinv.awake (.inl hlost.1)).2 hlost.2
  · intro s t hstep huntimely
    have hparking : s.worker = .parking := by
      by_contra hne
      exact huntimely fun _ => hne
    cases hstep with
    | notify h =>
        refine ⟨⟨s.msgQue, s.bStop, .blocked false, .joining, s.posted,
          s.dispatched⟩, .deal ?_, rfl, rfl⟩
        simp only [LogicSystem.dealMsg, hparking, Worker.notifyOne]

/-- The destructor stores and notifies while the worker is about to wait. -/
theorem lost_reachable : ∃ s : LogicSystem ℕ, LogicReachable s ∧ Lost s := by
  have h1 : LogicStep (LogicSystem.start : LogicSystem ℕ) .deal
      ⟨[], false, .checking, .alive, [], []⟩ := .deal rfl
  have h2 : LogicStep (⟨[], false, .checking, .alive, [], []⟩ : LogicSystem ℕ)
      .deal ⟨[], false, .parking, .alive, [], []⟩ := .deal rfl
  have h3 : LogicStep (⟨[], false, .parking, .alive, [], []⟩ : LogicSystem ℕ)
      .store ⟨[], true, .parking, .stored, [], []⟩ := .store rfl
  have h4 : LogicStep (⟨[], true, .parking, .stored, [], []⟩ : LogicSystem ℕ)
      .notify ⟨[], true, .parking, .joining, [], []⟩ := .notify rfl
  have h5 : LogicStep (⟨[], true, .parking, .joining, [], []⟩ : LogicSystem ℕ)
      .deal ⟨[], true, .blocked false, .joining, [], []⟩ := .deal rfl
  refine ⟨⟨[], true, .blocked false, .joining, [], []⟩, ?_, rfl, rfl⟩
  exact ((((ReflTransGen.single ⟨_, h1⟩).tail ⟨_, h2⟩).tail ⟨_, h3⟩).tail
    ⟨_, h4⟩).tail ⟨_, h5⟩

end BackendLab.ServicePool
