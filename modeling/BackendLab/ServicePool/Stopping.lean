import BackendLab.ServicePool.RoundRobin
import BackendLab.Support.Runs
import Mathlib.Algebra.BigOperators.Group.Finset.Basic
import Mathlib.Algebra.Order.BigOperators.Group.Finset

/-!
# Stopping the pool

`AsioIOServicePool::Stop` of the server with a pool of threads and of the server
with coroutines, while the threads of the pool run their services.  The first one
takes the `Work` objects away and waits for the threads; the second one also stops
the services.

`run()` returns when its service has been stopped, or when nothing keeps it: no
`Work`, no operation that waits and no handler that is ready.
-/

namespace BackendLab.ServicePool

open Support Relation

/-- What a handler does, which what has come in decides: it starts no operation, or
one that waits for something outside, or one that has what it needs, whose handler
is ready at once. -/
inductive Handler where
  | ends
  | waits
  | continues (next : Handler)
  deriving DecidableEq, Repr

/-- The handler, or one of those that follow it at once, starts an operation that
waits. -/
def Handler.comesToWait : Handler → Bool
  | .ends => false
  | .waits => true
  | .continues next => next.comesToWait

/-- The thread of a service: in `run()`, between two handlers or in one, or behind
it. -/
inductive ServiceThread where
  | running
  | handling (h : Handler)
  | returned
  deriving DecidableEq, Repr

/-- A service of the pool: whether it has its `Work` object, whether it has been
stopped, the number of operations that wait for something outside, and the handlers
that are ready. -/
structure Service where
  work : Bool
  stopped : Bool
  waiting : ℕ
  ready : List Handler
  thread : ServiceThread
  deriving DecidableEq, Repr

/-- `run()` is left. -/
def Service.MayReturn (x : Service) : Prop :=
  x.stopped = true ∨ x.work = false ∧ x.waiting = 0 ∧ x.ready = []

/-- The thread comes back from a handler. -/
def Service.finish (x : Service) : Handler → Service
  | .ends => { x with thread := .running }
  | .waits => { x with waiting := x.waiting + 1, thread := .running }
  | .continues next => { x with ready := x.ready ++ [next], thread := .running }

/-- Where the thread that calls `Stop` stands: before the call, in one of the loops
with the index of the next element, or behind it. -/
inductive Stopper where
  | idle
  | resetting (k : ℕ)
  | stopping (k : ℕ)
  | joining (k : ℕ)
  | returned
  deriving DecidableEq, Repr

structure RunningPool where
  service : ℕ → Service
  stopper : Stopper

namespace RunningPool

/-- The constructor has started the threads. -/
def start : RunningPool := ⟨fun _ => ⟨true, false, 0, [], .running⟩, .idle⟩

def setService (s : RunningPool) (i : ℕ) (x : Service) : RunningPool :=
  { s with service := Function.update s.service i x }

end RunningPool

/-- The loop behind the first one of `Stop`. -/
def Project.afterReset : Project → Stopper
  | .servicePool => .joining 0
  | .coroutine => .stopping 0

/-- What the threads of a pool with `n` services do by themselves: the next handler
is called; it returns; `run()` returns; `Stop` is called and goes on.  A reply of the
logic thread starts an operation at any time, which waits or has its handler
ready. -/
inductive Silent (project : Project) (n : ℕ) : RunningPool → RunningPool → Prop
  | dispatch {s : RunningPool} {i : ℕ} {h : Handler} {rest : List Handler} (hi : i < n)
      (hthread : (s.service i).thread = .running)
      (hstopped : (s.service i).stopped = false)
      (hready : (s.service i).ready = h :: rest) :
      Silent project n s (s.setService i
        { s.service i with ready := rest, thread := .handling h })
  | finish {s : RunningPool} {i : ℕ} {h : Handler} (hi : i < n)
      (hthread : (s.service i).thread = .handling h) :
      Silent project n s (s.setService i ((s.service i).finish h))
  | leave {s : RunningPool} {i : ℕ} (hi : i < n)
      (hthread : (s.service i).thread = .running) (hreturn : (s.service i).MayReturn) :
      Silent project n s (s.setService i { s.service i with thread := .returned })
  | send {s : RunningPool} {i : ℕ} (hi : i < n) :
      Silent project n s (s.setService i
        { s.service i with waiting := (s.service i).waiting + 1 })
  | sendReady {s : RunningPool} {i : ℕ} (hi : i < n) (h : Handler) :
      Silent project n s (s.setService i
        { s.service i with ready := (s.service i).ready ++ [h] })
  | stop {s : RunningPool} (h : s.stopper = .idle) :
      Silent project n s { s with stopper := .resetting 0 }
  | reset {s : RunningPool} {k : ℕ} (h : s.stopper = .resetting k) (hk : k < n) :
      Silent project n s
        { s.setService k { s.service k with work := false } with
          stopper := .resetting (k + 1) }
  | resetDone {s : RunningPool} {k : ℕ} (h : s.stopper = .resetting k) (hk : n ≤ k) :
      Silent project n s { s with stopper := project.afterReset }
  | halt {s : RunningPool} {k : ℕ} (h : s.stopper = .stopping k) (hk : k < n) :
      Silent project n s
        { s.setService k { s.service k with stopped := true } with
          stopper := .stopping (k + 1) }
  | haltDone {s : RunningPool} {k : ℕ} (h : s.stopper = .stopping k) (hk : n ≤ k) :
      Silent project n s { s with stopper := .joining 0 }
  | join {s : RunningPool} {k : ℕ} (h : s.stopper = .joining k) (hk : k < n)
      (hthread : (s.service k).thread = .returned) :
      Silent project n s { s with stopper := .joining (k + 1) }
  | joinDone {s : RunningPool} {k : ℕ} (h : s.stopper = .joining k) (hk : n ≤ k) :
      Silent project n s { s with stopper := .returned }

/-- A step of the threads, an operation that gets what it waits for, which decides
what its handler does, or a session that is accepted and starts to read, which ends
with the call of `Stop`. -/
inductive PoolStep (project : Project) (n : ℕ) : RunningPool → RunningPool → Prop
  | silent {s t : RunningPool} (h : Silent project n s t) : PoolStep project n s t
  | complete {s : RunningPool} {i : ℕ} (hi : i < n)
      (hwaiting : 0 < (s.service i).waiting) (h : Handler) :
      PoolStep project n s (s.setService i
        { s.service i with
          waiting := (s.service i).waiting - 1,
          ready := (s.service i).ready ++ [h] })
  | accept {s : RunningPool} {i : ℕ} (hi : i < n) (h : s.stopper = .idle) :
      PoolStep project n s (s.setService i
        { s.service i with waiting := (s.service i).waiting + 1 })

def PoolReachable (project : Project) (n : ℕ) (s : RunningPool) : Prop :=
  ReflTransGen (PoolStep project n) .start s

/-! ## How far `Stop` has come -/

namespace Stopper

/-- The number of `Work` objects that have been reset. -/
def worksReset (n : ℕ) : Stopper → ℕ
  | .idle => 0
  | .resetting k => k
  | .stopping _ | .joining _ | .returned => n

/-- The number of services that have been stopped, where `Stop` stops them. -/
def halted (n : ℕ) : Stopper → ℕ
  | .idle | .resetting _ => 0
  | .stopping k => k
  | .joining _ | .returned => n

/-- The number of threads that have been joined. -/
def joined (n : ℕ) : Stopper → ℕ
  | .idle | .resetting _ | .stopping _ => 0
  | .joining k => k
  | .returned => n

end Stopper

/-- What `Stop` has done so far.  The first server stops no service. -/
structure StopInv (project : Project) (n : ℕ) (s : RunningPool) : Prop where
  works : ∀ i < n, i < s.stopper.worksReset n → (s.service i).work = false
  halts : project = .coroutine → ∀ i < n, i < s.stopper.halted n →
    (s.service i).stopped = true
  joins : ∀ i < n, i < s.stopper.joined n → (s.service i).thread = .returned
  unstopped : project = .servicePool →
    (∀ k, s.stopper ≠ .stopping k) ∧ ∀ i, (s.service i).stopped = false

namespace RunningPool

variable (s : RunningPool) (i : ℕ) (x : Service)

@[simp] theorem stopper_setService : (s.setService i x).stopper = s.stopper := rfl

@[simp] theorem service_setService_self : (s.setService i x).service i = x := by
  simp only [setService, Function.update_self]

theorem service_setService_of_ne {k : ℕ} (h : k ≠ i) :
    (s.setService i x).service k = s.service k := by
  simp only [setService, Function.update_of_ne h]

/-- What holds of the new service and of the others as they were holds of all. -/
theorem forall_setService {P : ℕ → Service → Prop} (hi : P i x)
    (hother : ∀ k, k ≠ i → P k (s.service k)) (k : ℕ) :
    P k ((s.setService i x).service k) :=
  (Function.forall_update_iff s.service P).mpr ⟨hi, hother⟩ k

end RunningPool

namespace Service

variable (x : Service) (h : Handler)

@[simp] theorem work_finish : (x.finish h).work = x.work := by cases h <;> rfl

@[simp] theorem stopped_finish : (x.finish h).stopped = x.stopped := by cases h <;> rfl

@[simp] theorem thread_finish : (x.finish h).thread = .running := by cases h <;> rfl

end Service

section Invariant

variable {project : Project} {n : ℕ} {s t : RunningPool}

/-- A step of one service: a thread that has returned stays so, and only `Stop`
resets and stops. -/
theorem StopInv.setService (h : StopInv project n s) {i : ℕ} {x : Service}
    (hwork : x.work = (s.service i).work) (hstopped : x.stopped = (s.service i).stopped)
    (hthread : (s.service i).thread = .returned → x.thread = .returned) :
    StopInv project n (s.setService i x) := by
  have hservice : ∀ k, ((s.setService i x).service k).work = (s.service k).work ∧
      ((s.setService i x).service k).stopped = (s.service k).stopped ∧
      ((s.service k).thread = .returned →
        ((s.setService i x).service k).thread = .returned) :=
    s.forall_setService i x (P := fun k y => y.work = (s.service k).work ∧
        y.stopped = (s.service k).stopped ∧
        ((s.service k).thread = .returned → y.thread = .returned))
      ⟨hwork, hstopped, hthread⟩ fun _ _ => ⟨rfl, rfl, id⟩
  constructor
  · intro k hk hlt
    rw [(hservice k).1]
    exact h.works k hk hlt
  · intro hproject k hk hlt
    rw [(hservice k).2.1]
    exact h.halts hproject k hk hlt
  · intro k hk hlt
    exact (hservice k).2.2 (h.joins k hk hlt)
  · intro hproject
    refine ⟨(h.unstopped hproject).1, fun k => ?_⟩
    rw [(hservice k).2.1]
    exact (h.unstopped hproject).2 k

/-- `Stop` goes on without a change of the services. -/
theorem StopInv.stopper (h : StopInv project n s) {p : Stopper}
    (hworks : p.worksReset n ≤ s.stopper.worksReset n ∨ n ≤ s.stopper.worksReset n)
    (hhalts : project = .coroutine →
      p.halted n ≤ s.stopper.halted n ∨ n ≤ s.stopper.halted n)
    (hjoins : ∀ i < n, i < p.joined n → (s.service i).thread = .returned)
    (hstopping : project = .servicePool → ∀ k, p ≠ .stopping k) :
    StopInv project n { s with stopper := p } := by
  constructor
  · intro i hi hlt
    apply h.works i hi
    rcases hworks with hle | hle
    · exact Nat.lt_of_lt_of_le hlt hle
    · exact Nat.lt_of_lt_of_le hi hle
  · intro hproject i hi hlt
    apply h.halts hproject i hi
    rcases hhalts hproject with hle | hle
    · exact Nat.lt_of_lt_of_le hlt hle
    · exact Nat.lt_of_lt_of_le hi hle
  · exact hjoins
  · intro hproject
    exact ⟨hstopping hproject, (h.unstopped hproject).2⟩

theorem StopInv.reset (h : StopInv project n s) {k : ℕ}
    (hstopper : s.stopper = .resetting k) :
    StopInv project n
      { s.setService k { s.service k with work := false } with
        stopper := .resetting (k + 1) } := by
  constructor
  · refine s.forall_setService k _ (P := fun i y => i < n → i < k + 1 → y.work = false)
      (fun _ _ => rfl) fun i hik hi hlt => h.works i hi ?_
    rw [hstopper]
    exact lt_of_le_of_ne (Nat.lt_succ_iff.mp hlt) hik
  · intro _ i _ hlt
    exact absurd hlt (Nat.not_lt_zero i)
  · intro i _ hlt
    exact absurd hlt (Nat.not_lt_zero i)
  · intro hproject
    have hstopped := (h.unstopped hproject).2
    exact ⟨by simp, s.forall_setService k _ (P := fun _ y => y.stopped = false)
      (hstopped k) fun i _ => hstopped i⟩

theorem StopInv.halt (h : StopInv project n s) {k : ℕ}
    (hstopper : s.stopper = .stopping k) :
    StopInv project n
      { s.setService k { s.service k with stopped := true } with
        stopper := .stopping (k + 1) } := by
  constructor
  · have hworks : ∀ i < n, (s.service i).work = false :=
      fun i hi => h.works i hi (by rw [hstopper]; exact hi)
    intro i hi _
    exact s.forall_setService k { s.service k with stopped := true }
      (P := fun i y => i < n → y.work = false) (hworks k) (fun i _ => hworks i) i hi
  · intro hproject
    refine s.forall_setService k _
      (P := fun i y => i < n → i < k + 1 → y.stopped = true) (fun _ _ => rfl)
      fun i hik hi hlt => h.halts hproject i hi ?_
    rw [hstopper]
    exact lt_of_le_of_ne (Nat.lt_succ_iff.mp hlt) hik
  · intro i _ hlt
    exact absurd hlt (Nat.not_lt_zero i)
  · intro hproject
    exact absurd hstopper ((h.unstopped hproject).1 k)

theorem StopInv.silent (h : StopInv project n s) (hstep : Silent project n s t) :
    StopInv project n t := by
  cases hstep with
  | dispatch hi hthread _ _ =>
      exact h.setService rfl rfl (by simp [hthread])
  | finish hi hthread => exact h.setService (by simp) (by simp) (by simp [hthread])
  | leave hi hthread _ => exact h.setService rfl rfl (by simp)
  | send hi | sendReady hi h' => exact h.setService rfl rfl id
  | stop hstopper =>
      exact h.stopper (.inl (Nat.zero_le _)) (fun _ => .inl (Nat.zero_le _))
        (fun i _ hlt => absurd hlt (Nat.not_lt_zero i)) (by simp)
  | reset hstopper _ => exact h.reset hstopper
  | resetDone hstopper hk =>
      have hworks : n ≤ s.stopper.worksReset n := by rwa [hstopper]
      cases project with
      | servicePool =>
          exact h.stopper (.inr hworks) (by simp)
            (fun i _ hlt => absurd hlt (Nat.not_lt_zero i)) (by simp [Project.afterReset])
      | coroutine =>
          exact h.stopper (.inr hworks) (fun _ => .inl (Nat.zero_le _))
            (fun i _ hlt => absurd hlt (Nat.not_lt_zero i)) (by simp)
  | halt hstopper _ => exact h.halt hstopper
  | haltDone hstopper hk =>
      refine h.stopper (.inr ?_) (fun _ => .inr ?_)
        (fun i _ hlt => absurd hlt (Nat.not_lt_zero i)) (by simp)
      · rw [hstopper]
        exact Nat.le_refl n
      · rwa [hstopper]
  | @join k hstopper hk hthread =>
      refine h.stopper (.inr ?_) (fun _ => .inr ?_) ?_ (by simp)
      · rw [hstopper]
        exact Nat.le_refl n
      · rw [hstopper]
        exact Nat.le_refl n
      · intro i hi hlt
        rcases Nat.lt_succ_iff_lt_or_eq.mp hlt with hlt | rfl
        · exact h.joins i hi (by rwa [hstopper])
        · exact hthread
  | joinDone hstopper hk =>
      refine h.stopper (.inr ?_) (fun _ => .inr ?_) ?_ (by simp)
      · rw [hstopper]
        exact Nat.le_refl n
      · rw [hstopper]
        exact Nat.le_refl n
      · intro i hi _
        exact h.joins i hi (by rw [hstopper]; exact Nat.lt_of_lt_of_le hi hk)

theorem StopInv.step (h : StopInv project n s) (hstep : PoolStep project n s t) :
    StopInv project n t := by
  cases hstep with
  | silent hstep => exact h.silent hstep
  | complete hi _ _ => exact h.setService rfl rfl id
  | accept hi _ => exact h.setService rfl rfl id

theorem PoolReachable.inv (h : PoolReachable project n s) : StopInv project n s := by
  refine invariant_of_run h ?_ fun _ _ => StopInv.step
  constructor <;> simp [RunningPool.start, Stopper.worksReset, Stopper.halted,
    Stopper.joined]

end Invariant

/-! ## Whether `Stop` returns -/

/-- The handler in which the thread is, if any. -/
def ServiceThread.hand : ServiceThread → List Handler
  | .handling h => [h]
  | .running | .returned => []

/-- No operation of the service waits, and none of its handlers comes to start one
that waits. -/
structure Service.Free (x : Service) : Prop where
  waiting : x.waiting = 0
  handlers : ∀ h ∈ x.thread.hand ++ x.ready, h.comesToWait = false

theorem Service.Free.congr {x y : Service} (h : x.Free)
    (hwaiting : y.waiting = x.waiting)
    (hhandlers : y.thread.hand ++ y.ready = x.thread.hand ++ x.ready) : y.Free := by
  constructor
  · rw [hwaiting]
    exact h.waiting
  · rw [hhandlers]
    exact h.handlers

/-- A handler that is called was one of those that were ready. -/
theorem Service.free_dispatch {x : Service} {h : Handler} {rest : List Handler}
    (hthread : x.thread = .running) (hready : x.ready = h :: rest) :
    { x with ready := rest, thread := .handling h }.Free ↔ x.Free := by
  have hsame : x.thread.hand ++ x.ready = h :: rest := by
    rw [hthread, hready]
    rfl
  constructor
  · intro hfree
    exact hfree.congr rfl hsame
  · intro hfree
    exact hfree.congr rfl hsame.symm

/-- A handler that returns leaves the service as free as it was. -/
theorem Service.free_finish {x : Service} {h : Handler}
    (hthread : x.thread = .handling h) : (x.finish h).Free ↔ x.Free := by
  cases h with
  | ends =>
      constructor
      · rintro ⟨hwaiting, hhandlers⟩
        refine ⟨hwaiting, ?_⟩
        rw [hthread]
        exact List.forall_mem_cons.mpr ⟨rfl, hhandlers⟩
      · rintro ⟨hwaiting, hhandlers⟩
        rw [hthread] at hhandlers
        exact ⟨hwaiting, (List.forall_mem_cons.mp hhandlers).2⟩
  | waits =>
      constructor
      · rintro ⟨hwaiting, -⟩
        exact absurd hwaiting (Nat.succ_ne_zero _)
      · rintro ⟨-, hhandlers⟩
        rw [hthread] at hhandlers
        cases (List.forall_mem_cons.mp hhandlers).1
  | continues next =>
      have hhandlers : (∀ k ∈ x.ready ++ [next], k.comesToWait = false) ↔
          ∀ k ∈ x.thread.hand ++ x.ready, k.comesToWait = false := by
        rw [hthread, List.forall_mem_append, List.forall_mem_append, and_comm]
        exact and_congr_left' (by
          simp [ServiceThread.hand, Handler.comesToWait])
      constructor
      · intro hfree
        exact ⟨hfree.waiting, hhandlers.mp hfree.handlers⟩
      · intro hfree
        exact ⟨hfree.waiting, hhandlers.mpr hfree.handlers⟩

/-- No operation keeps `Stop` waiting: the services are stopped, or those whose
threads have not returned are free. -/
def Released (project : Project) (n : ℕ) (s : RunningPool) : Prop :=
  project = .coroutine ∨ ∀ i < n, (s.service i).thread ≠ .returned →
    (s.service i).Free

/-- What is left to be done behind a handler. -/
def Handler.rank : Handler → ℕ
  | .ends => 0
  | .waits => 4
  | .continues next => next.rank + 2

/-- What is left to be done for a service, for `Stop` and for all of them. -/
def Service.rank (x : Service) : ℕ :=
  4 * x.waiting + (x.ready.map fun h => h.rank + 2).sum +
    match x.thread with
    | .running => 1
    | .handling h => h.rank + 2
    | .returned => 0

theorem Service.rank_finish {x : Service} {h : Handler}
    (hthread : x.thread = .handling h) : (x.finish h).rank < x.rank := by
  cases h <;>
    simp only [Service.rank, Service.finish, Handler.rank, hthread, List.map_append,
      List.sum_append, List.map_singleton, List.sum_singleton] <;>
    omega

def Stopper.rank (n : ℕ) : Stopper → ℕ
  | .idle => 3 * n + 4
  | .resetting k => (n - k) + 2 * n + 3
  | .stopping k => (n - k) + n + 2
  | .joining k => (n - k) + 1
  | .returned => 0

def RunningPool.rank (n : ℕ) (s : RunningPool) : ℕ :=
  s.stopper.rank n + ∑ i ∈ Finset.range n, (s.service i).rank

section Progress

variable {project : Project} {n : ℕ} {s t : RunningPool}

/-- The step keeps the services free that are, and no thread enters `run()`
again. -/
def Calms (s t : RunningPool) : Prop :=
  ∀ i, ((s.service i).Free → (t.service i).Free) ∧
    ((s.service i).thread = .returned → (t.service i).thread = .returned)

theorem Released.calms (h : Released project n s) (hcalms : Calms s t) :
    Released project n t := by
  rcases h with h | h
  · exact .inl h
  · right
    intro i hi hthread
    exact (hcalms i).1 (h i hi (mt (hcalms i).2 hthread))

theorem calms_setService {i : ℕ} {x : Service}
    (hfree : (s.service i).Free → x.Free)
    (hthread : (s.service i).thread = .returned → x.thread = .returned) :
    Calms s (s.setService i x) :=
  s.forall_setService i x
    (P := fun k y => ((s.service k).Free → y.Free) ∧
      ((s.service k).thread = .returned → y.thread = .returned))
    ⟨hfree, hthread⟩ fun _ _ => ⟨id, id⟩

theorem rank_setService_lt {i : ℕ} {x : Service} (hi : i < n)
    (hx : x.rank < (s.service i).rank) : (s.setService i x).rank n < s.rank n := by
  apply Nat.add_lt_add_left
  apply Finset.sum_lt_sum
  · intro k _
    exact s.forall_setService i x (P := fun k y => y.rank ≤ (s.service k).rank) hx.le
      (fun _ _ => Nat.le_refl _) k
  · exact ⟨i, Finset.mem_range.mpr hi, by rwa [RunningPool.service_setService_self]⟩

/-- `Stop` goes on, and what it does to a service is no work. -/
theorem rank_stopper_lt {p : Stopper} {service : ℕ → Service}
    (hservice : ∀ i, (service i).rank = (s.service i).rank)
    (hp : p.rank n < s.stopper.rank n) :
    RunningPool.rank n ⟨service, p⟩ < s.rank n := by
  simp only [RunningPool.rank, hservice]
  exact Nat.add_lt_add_right hp _

theorem rank_update {x : Service} {i : ℕ} (hx : x.rank = (s.service i).rank) (k : ℕ) :
    ((s.setService i x).service k).rank = (s.service k).rank :=
  s.forall_setService i x (P := fun k y => y.rank = (s.service k).rank) hx
    (fun _ _ => rfl) k

/-- A thread that `Stop` waits for goes on, if need be with something that an
operation has waited for. -/
theorem StopInv.exists_step_thread (h : StopInv project n s) {k : ℕ} (hk : k < n)
    (hstopper : s.stopper = .joining k) (hthread : (s.service k).thread ≠ .returned) :
    ∃ t, PoolStep project n s t ∧ t.rank n < s.rank n ∧ t.stopper = s.stopper ∧
      Calms s t ∧ (Released project n s → Silent project n s t) := by
  have hwork : (s.service k).work = false := h.works k hk (by rw [hstopper]; exact hk)
  cases hrun : (s.service k).thread with
  | returned => exact absurd hrun hthread
  | handling h =>
      have hstep : Silent project n s _ := .finish hk hrun
      exact ⟨_, .silent hstep, rank_setService_lt hk (Service.rank_finish hrun), rfl,
        calms_setService (Service.free_finish hrun).mpr (by simp [hrun]),
        fun _ => hstep⟩
  | running =>
      by_cases hreturn : (s.service k).MayReturn
      · have hstep : Silent project n s _ := .leave hk hrun hreturn
        refine ⟨_, .silent hstep, rank_setService_lt hk ?_, rfl,
          calms_setService ?_ (by simp), fun _ => hstep⟩
        · simp [Service.rank, hrun]
        · intro hfree
          exact hfree.congr rfl (by rw [hrun]; rfl)
      · simp only [Service.MayReturn, hwork, true_and, not_or, not_and] at hreturn
        have hstopped : (s.service k).stopped = false := by simpa using hreturn.1
        have hproject : project ≠ .coroutine := by
          intro hproject
          apply hreturn.1
          exact h.halts hproject k hk (by rw [hstopper]; exact hk)
        cases hready : (s.service k).ready with
        | nil =>
            have hwaiting : 0 < (s.service k).waiting := by
              apply Nat.pos_of_ne_zero
              intro hzero
              exact hreturn.2 hzero hready
            refine ⟨_, .complete hk hwaiting .ends, rank_setService_lt hk ?_, rfl,
              calms_setService ?_ id, ?_⟩
            · simp only [Service.rank, Handler.rank, hready, List.nil_append,
                List.map_nil, List.sum_nil, List.map_singleton, List.sum_singleton]
              omega
            · intro hfree
              exact absurd hfree.waiting hwaiting.ne'
            · rintro (hcoroutine | hall)
              · exact absurd hcoroutine hproject
              · exact absurd (hall k hk hthread).waiting hwaiting.ne'
        | cons first rest =>
            have hstep : Silent project n s _ := .dispatch hk hrun hstopped hready
            refine ⟨_, .silent hstep, rank_setService_lt hk ?_, rfl,
              calms_setService (Service.free_dispatch hrun hready).mpr (by simp [hrun]),
              fun _ => hstep⟩
            simp only [Service.rank, hrun, hready, List.map_cons, List.sum_cons]
            omega

theorem calms_stopper (p : Stopper) : Calms s { s with stopper := p } :=
  fun _ => ⟨id, id⟩

/-- As long as `Stop` has not returned, there is a step that brings it nearer to
its end. -/
theorem StopInv.exists_step (h : StopInv project n s) (hbegun : s.stopper ≠ .idle)
    (hnot : s.stopper ≠ .returned) :
    ∃ t, PoolStep project n s t ∧ t.rank n < s.rank n ∧ t.stopper ≠ .idle ∧
      Calms s t ∧ (Released project n s → Silent project n s t) := by
  cases hstopper : s.stopper with
  | idle => exact absurd hstopper hbegun
  | returned => exact absurd hstopper hnot
  | resetting k =>
      rcases Nat.lt_or_ge k n with hk | hk
      · have hstep : Silent project n s _ := .reset hstopper hk
        refine ⟨_, .silent hstep, rank_stopper_lt (rank_update rfl) ?_, by simp, ?_,
          fun _ => hstep⟩
        · simp only [hstopper, Stopper.rank]
          omega
        · exact calms_setService (x := { s.service k with work := false })
            (fun hfree => hfree.congr rfl rfl) id
      · have hstep : Silent project n s _ := .resetDone hstopper hk
        refine ⟨_, .silent hstep, rank_stopper_lt (fun _ => rfl) ?_, ?_,
          calms_stopper _, fun _ => hstep⟩
        · rw [hstopper]
          cases project <;> simp only [Project.afterReset, Stopper.rank] <;> omega
        · cases project <;> simp [Project.afterReset]
  | stopping k =>
      rcases Nat.lt_or_ge k n with hk | hk
      · have hstep : Silent project n s _ := .halt hstopper hk
        refine ⟨_, .silent hstep, rank_stopper_lt (rank_update rfl) ?_, by simp, ?_,
          fun _ => hstep⟩
        · simp only [hstopper, Stopper.rank]
          omega
        · exact calms_setService (x := { s.service k with stopped := true })
            (fun hfree => hfree.congr rfl rfl) id
      · have hstep : Silent project n s _ := .haltDone hstopper hk
        refine ⟨_, .silent hstep, rank_stopper_lt (fun _ => rfl) ?_, by simp,
          calms_stopper _, fun _ => hstep⟩
        simp only [hstopper, Stopper.rank]
        omega
  | joining k =>
      rcases Nat.lt_or_ge k n with hk | hk
      · by_cases hthread : (s.service k).thread = .returned
        · have hstep : Silent project n s _ := .join hstopper hk hthread
          refine ⟨_, .silent hstep, rank_stopper_lt (fun _ => rfl) ?_, by simp,
            calms_stopper _, fun _ => hstep⟩
          simp only [hstopper, Stopper.rank]
          omega
        · obtain ⟨t, hstep, hrank, hsame, hcalms, hsilent⟩ :=
            h.exists_step_thread hk hstopper hthread
          exact ⟨t, hstep, hrank, by simp [hsame, hstopper], hcalms, hsilent⟩
      · have hstep : Silent project n s _ := .joinDone hstopper hk
        refine ⟨_, .silent hstep, rank_stopper_lt (fun _ => rfl) ?_, by simp,
          calms_stopper _, fun _ => hstep⟩
        simp only [hstopper, Stopper.rank]
        omega

/-! ### A session that nobody closes -/

/-- An operation waits, or will, at a service whose thread is in `run()`. -/
def Held (i : ℕ) (s : RunningPool) : Prop :=
  (s.service i).thread ≠ .returned ∧ ¬ (s.service i).Free

theorem held_setService {i j : ℕ} {x : Service} (h : Held j s)
    (hx : i = j → x.thread ≠ .returned ∧ ¬ x.Free) :
    Held j (s.setService i x) := by
  by_cases hij : i = j
  · subst hij
    rw [Held, RunningPool.service_setService_self]
    exact hx rfl
  · rw [Held, RunningPool.service_setService_of_ne s i x (Ne.symm hij)]
    exact h

/-- In the first server an operation that waits goes on to wait, and so does the
thread of its service. -/
theorem Held.silent {j : ℕ} (h : Held j s) (hinv : StopInv .servicePool n s)
    (hstep : Silent .servicePool n s t) : Held j t := by
  cases hstep with
  | dispatch hi hthread _ hready =>
      apply held_setService h
      rintro rfl
      exact ⟨by simp, mt (Service.free_dispatch hthread hready).mp h.2⟩
  | finish hi hthread =>
      apply held_setService h
      rintro rfl
      exact ⟨by simp, mt (Service.free_finish hthread).mp h.2⟩
  | leave hi hthread hreturn =>
      apply held_setService h
      rintro rfl
      rcases hreturn with hstopped | ⟨-, hwaiting, hready⟩
      · rw [(hinv.unstopped rfl).2] at hstopped
        cases hstopped
      · refine absurd ⟨hwaiting, ?_⟩ h.2
        rw [hthread, hready]
        exact List.forall_mem_nil _
  | send hi =>
      apply held_setService h
      rintro rfl
      exact ⟨h.1, fun hfree => Nat.succ_ne_zero _ hfree.waiting⟩
  | sendReady hi next =>
      apply held_setService h
      rintro rfl
      refine ⟨h.1, fun hfree => h.2 ⟨hfree.waiting, ?_⟩⟩
      intro handler hmem
      apply hfree.handlers
      rw [← List.append_assoc]
      exact List.mem_append_left _ hmem
  | @reset k _ _ =>
      apply held_setService (x := { s.service k with work := false }) h
      rintro rfl
      exact ⟨h.1, fun hfree => h.2 (hfree.congr rfl rfl)⟩
  | @halt k _ _ =>
      apply held_setService (x := { s.service k with stopped := true }) h
      rintro rfl
      exact ⟨h.1, fun hfree => h.2 (hfree.congr rfl rfl)⟩
  | stop _ | resetDone _ _ | haltDone _ _ | join _ _ _ | joinDone _ _ => exact h

theorem Held.not_returned {j : ℕ} (h : Held j s) (hj : j < n)
    (hinv : StopInv .servicePool n s) (hrun : ReflTransGen (Silent .servicePool n) s t) :
    t.stopper ≠ .returned := by
  have hall : StopInv .servicePool n t ∧ Held j t := by
    refine invariant_of_run (I := fun t => StopInv .servicePool n t ∧ Held j t) hrun
      ⟨hinv, h⟩ ?_
    rintro s t ⟨hinv, hheld⟩ hstep
    exact ⟨hinv.silent hstep, hheld.silent hinv hstep⟩
  intro hreturned
  apply hall.2.1
  apply hall.1.joins j hj
  rw [hreturned]
  exact hj

/-! ### Both servers -/

theorem StopInv.returned (h : StopInv project n s) (hs : s.stopper = .returned) {i : ℕ}
    (hi : i < n) : (s.service i).thread = .returned :=
  h.joins i hi (by rw [hs]; exact hi)

/-- The threads bring `Stop` to its end by themselves if no operation keeps it. -/
theorem StopInv.exists_silent_run (h : StopInv project n s) (hbegun : s.stopper ≠ .idle)
    (hreleased : Released project n s) :
    ∃ t, ReflTransGen (Silent project n) s t ∧ t.stopper = .returned := by
  have hnearer : ∀ s : RunningPool,
      (StopInv project n s ∧ s.stopper ≠ .idle ∧ Released project n s) →
      ¬ s.stopper = .returned →
      ∃ t, ReflTransGen (Silent project n) s t ∧
        (StopInv project n t ∧ t.stopper ≠ .idle ∧ Released project n t) ∧
        t.rank n < s.rank n := by
    rintro s ⟨hinv, hbegun, hreleased⟩ hnot
    obtain ⟨t, -, hrank, ht, hcalms, hsilent⟩ := hinv.exists_step hbegun hnot
    have hstep := hsilent hreleased
    exact ⟨t, .single hstep, ⟨hinv.silent hstep, ht, hreleased.calms hcalms⟩, hrank⟩
  obtain ⟨t, hrun, -, hreturned⟩ :=
    exists_run_to_goal (RunningPool.rank n) hnearer ⟨h, hbegun, hreleased⟩
  exact ⟨t, hrun, hreturned⟩

/-- And if what the operations wait for comes, `Stop` comes to its end anyway. -/
theorem StopInv.exists_run (h : StopInv project n s) (hbegun : s.stopper ≠ .idle) :
    ∃ t, ReflTransGen (PoolStep project n) s t ∧ t.stopper = .returned := by
  have hnearer : ∀ s : RunningPool,
      (StopInv project n s ∧ s.stopper ≠ .idle) → ¬ s.stopper = .returned →
      ∃ t, ReflTransGen (PoolStep project n) s t ∧
        (StopInv project n t ∧ t.stopper ≠ .idle) ∧ t.rank n < s.rank n := by
    rintro s ⟨hinv, hbegun⟩ hnot
    obtain ⟨t, hstep, hrank, ht, -, -⟩ := hinv.exists_step hbegun hnot
    exact ⟨t, .single hstep, ⟨hinv.step hstep, ht⟩, hrank⟩
  obtain ⟨t, hrun, -, hreturned⟩ :=
    exists_run_to_goal (RunningPool.rank n) hnearer ⟨h, hbegun⟩
  exact ⟨t, hrun, hreturned⟩

/-- Let `Stop` have been called in a pool of any number of services, with any
operations under way.  The threads of the pool can bring it to its end by themselves
if and only if it is the second server's, or at every service whose thread is in
`run()` nothing waits and no handler comes to wait: a session that is open and silent
keeps the first server from ever being stopped.  If what the operations wait for
comes, both can return; and when `Stop` has returned, no thread of the pool runs. -/
theorem PoolReachable.stop_returns_iff (h : PoolReachable project n s)
    (hbegun : s.stopper ≠ .idle) :
    ((∃ t, ReflTransGen (Silent project n) s t ∧ t.stopper = .returned) ↔
      project = .coroutine ∨ ∀ i < n, (s.service i).thread ≠ .returned →
        (s.service i).Free) ∧
    (∃ t, ReflTransGen (PoolStep project n) s t ∧ t.stopper = .returned) ∧
    ∀ t, ReflTransGen (PoolStep project n) s t → t.stopper = .returned →
      ∀ i < n, (t.service i).thread = .returned := by
  have hinv := h.inv
  refine ⟨⟨?_, ?_⟩, ?_, ?_⟩
  · rintro ⟨t, hrun, hreturned⟩
    cases project with
    | coroutine => exact .inl rfl
    | servicePool =>
        right
        intro i hi hthread
        by_contra hfree
        have hheld : Held i s := ⟨hthread, hfree⟩
        exact hheld.not_returned hi hinv hrun hreturned
  · exact hinv.exists_silent_run hbegun
  · exact hinv.exists_run hbegun
  · intro t hrun hreturned i hi
    have ht : PoolReachable project n t := h.trans hrun
    exact ht.inv.returned hreturned hi

/-- One service with a session to which a header has come, but not the body: nothing
waits, but the handler will start to read the body.  The first server cannot be
stopped while the client is silent, and the second can. -/
theorem stop_returns_iff_session :
    (∃ s, PoolReachable .servicePool 1 s ∧ (s.service 0).waiting = 0 ∧
      ¬ ∃ t, ReflTransGen (Silent .servicePool 1) s t ∧ t.stopper = .returned) ∧
    ∃ s, PoolReachable .coroutine 1 s ∧ (s.service 0).ready = [.waits] ∧
      ∃ t, ReflTransGen (Silent .coroutine 1) s t ∧ t.stopper = .returned := by
  let x : Service := ⟨true, false, 1, [], .running⟩
  let y : Service := ⟨true, false, 0, [.waits], .running⟩
  let s : RunningPool :=
    { (RunningPool.start.setService 0 x).setService 0 y with stopper := .resetting 0 }
  have hreach : ∀ project, PoolReachable project 1 s := by
    intro project
    have haccept : PoolStep project 1 .start (RunningPool.start.setService 0 x) :=
      .accept Nat.one_pos rfl
    have hcomplete : PoolStep project 1 (RunningPool.start.setService 0 x)
        ((RunningPool.start.setService 0 x).setService 0 y) :=
      .complete Nat.one_pos Nat.one_pos .waits
    exact ((ReflTransGen.single haccept).tail hcomplete).tail (.silent (.stop rfl))
  have hservice : s.service 0 = y :=
    (RunningPool.start.setService 0 x).service_setService_self 0 y
  refine ⟨⟨s, hreach _, by rw [hservice], ?_⟩, s, hreach _, by rw [hservice], ?_⟩
  · intro hstops
    rcases ((hreach .servicePool).stop_returns_iff (by simp [s])).1.mp hstops with
      hproject | hall
    · cases hproject
    · have hfree := hall 0 Nat.one_pos (by simp [hservice, y])
      rw [hservice] at hfree
      cases hfree.handlers .waits (List.mem_singleton_self _)
  · exact ((hreach .coroutine).stop_returns_iff (by simp [s])).1.mpr (.inl rfl)

end Progress

end BackendLab.ServicePool
