import BackendLab.Coroutine.Reading
import BackendLab.Support.Runs
import Mathlib.Data.Finset.Basic

/-!
# The registry of sessions

The class `Server` of the server with an `io_context` pool and of the coroutine
server.  `HandleAccept` runs on the acceptor's thread and registers a session in
`_sessions` after it has started it; the handlers of the session run on a thread
of the pool and take it out again with `ClearSession`.  Each operation on the map
is a step of its own.
-/

namespace BackendLab.Accepting

open Support Relation

/-- The handlers of a session: what a completion does to it, and whether it calls
`ClearSession`.  There is no completion for an operation that is not
outstanding. -/
structure Handlers (σ κ : Type*) where
  start : σ
  handle : σ → κ → Option (σ × Bool)

/-- A read has completed, or a write has failed. -/
inductive SessionEvent where
  | read (c : Completion)
  | writeFailed
  deriving DecidableEq, Repr

/-- `HandleReadHead`, `HandleReadBody` and `HandleWrite`. -/
def callbackHandlers : Handlers ServicePool.ReadSession SessionEvent where
  start := .start
  handle := fun s event =>
    match event with
    | .writeFailed => some (s.close, true)
    | .read c =>
        match s.reading with
        | .head | .body _ =>
            some (s.complete c, decide ((s.complete c).reading = .closed))
        | .abandoned | .closed => none

/-- The coroutine that `Start` spawns, and `HandleWrite`. -/
def coroutineHandlers : Handlers Coroutine.Session SessionEvent where
  start := .start
  handle := fun s event =>
    match event with
    | .writeFailed => some (s.close, true)
    | .read c =>
        match s.stage with
        | .head | .body _ =>
            let s :=
              match c with
              | .failed => s.fail
              | .transferred bytes => s.resume bytes
            some (s, decide (s.stage = .ended ∨ s.stage = .closed))
        | .overrun | .ended | .closed => none

/-- Where the acceptor's thread stands: it waits for `HandleAccept` to be called,
or is before the named call of it. -/
inductive Acceptor (ι : Type*) where
  | waiting
  | starting (uuid : ι)
  | inserting (uuid : ι)
  | returning (uuid : ι)
  deriving DecidableEq, Repr

/-- The registry `_sessions`, the sessions that have been started and their
states, those that have called `ClearSession`, and those for which `HandleAccept`
has returned. -/
structure Server (ι σ : Type*) where
  acceptor : Acceptor ι
  sessions : Finset ι
  started : Finset ι
  session : ι → σ
  cleared : Finset ι
  returned : Finset ι

/-- What happens next: `HandleAccept` is called for a new session, or without one
after an error; its statements are executed; a session handles a completion,
without or with a call of `ClearSession`. -/
inductive Action (ι κ : Type*) where
  | accept (uuid : ι)
  | acceptFails
  | start
  | insert
  | returns
  | handle (uuid : ι) (event : κ)
  | clear (uuid : ι) (event : κ)
  deriving DecidableEq, Repr

variable {ι σ κ : Type*} [DecidableEq ι] {H : Handlers σ κ}

namespace Server

def init (H : Handlers σ κ) : Server ι σ :=
  ⟨.waiting, ∅, ∅, fun _ => H.start, ∅, ∅⟩

/-- `ClearSession`. -/
def clearSession (s : Server ι σ) (uuid : ι) : Server ι σ :=
  { s with
    sessions := s.sessions.erase uuid, cleared := Insert.insert uuid s.cleared }

def setSession (s : Server ι σ) (uuid : ι) (x : σ) : Server ι σ :=
  { s with session := Function.update s.session uuid x }

end Server

inductive Step (H : Handlers σ κ) :
    Server ι σ → Action ι κ → Server ι σ → Prop
  | accept {s : Server ι σ} {uuid : ι} (h : s.acceptor = .waiting)
      (hfresh : uuid ∉ s.started) :
      Step H s (.accept uuid) { s with acceptor := .starting uuid }
  | acceptFails {s : Server ι σ} (h : s.acceptor = .waiting) :
      Step H s .acceptFails s
  | start {s : Server ι σ} {uuid : ι} (h : s.acceptor = .starting uuid) :
      Step H s .start
        { s with
          acceptor := .inserting uuid, started := insert uuid s.started }
  | insert {s : Server ι σ} {uuid : ι} (h : s.acceptor = .inserting uuid) :
      Step H s .insert
        { s with
          acceptor := .returning uuid, sessions := insert uuid s.sessions }
  | returns {s : Server ι σ} {uuid : ι} (h : s.acceptor = .returning uuid) :
      Step H s .returns
        { s with acceptor := .waiting, returned := insert uuid s.returned }
  | handle {s : Server ι σ} {uuid : ι} {event : κ} {x : σ}
      (hstarted : uuid ∈ s.started)
      (h : H.handle (s.session uuid) event = some (x, false)) :
      Step H s (.handle uuid event) (s.setSession uuid x)
  | clear {s : Server ι σ} {uuid : ι} {event : κ} {x : σ}
      (hstarted : uuid ∈ s.started)
      (h : H.handle (s.session uuid) event = some (x, true)) :
      Step H s (.clear uuid event) ((s.setSession uuid x).clearSession uuid)

/-! ## Dead sessions -/

/-- A session that has called `ClearSession`, and for which `HandleAccept` has
returned, is registered. -/
def HoldsDead (s : Server ι σ) : Prop :=
  ∃ uuid, uuid ∈ s.cleared ∧ uuid ∈ s.returned ∧ uuid ∈ s.sessions

/-- The session does not call `ClearSession` while `HandleAccept` is between
`Start` and the insertion. -/
def Registered (s : Server ι σ) (a : Action ι κ) : Prop :=
  ∀ uuid event, a = .clear uuid event → s.acceptor ≠ .inserting uuid

/-- What holds as long as sessions call `ClearSession` after they have been
registered. -/
structure RegistryInvariant (s : Server ι σ) : Prop where
  started : ∀ uuid ∈ s.cleared, uuid ∈ s.started
  starting : ∀ uuid, s.acceptor = .starting uuid → uuid ∉ s.started
  inserting : ∀ uuid, s.acceptor = .inserting uuid → uuid ∉ s.cleared
  absent : ∀ uuid ∈ s.cleared, uuid ∉ s.sessions

theorem RegistryInvariant.clear {s : Server ι σ} {uuid : ι}
    (hs : RegistryInvariant s) (hstarted : uuid ∈ s.started)
    (hregistered : s.acceptor ≠ .inserting uuid) (x : σ) :
    RegistryInvariant ((s.setSession uuid x).clearSession uuid) := by
  constructor
  · intro v hv
    rcases Finset.mem_insert.mp hv with rfl | hv
    · exact hstarted
    · exact hs.started v hv
  · exact hs.starting
  · intro v hv hcleared
    rcases Finset.mem_insert.mp hcleared with rfl | hcleared
    · exact hregistered hv
    · exact hs.inserting v hv hcleared
  · intro v hv hmem
    obtain ⟨hne, hmem⟩ := Finset.mem_erase.mp hmem
    rcases Finset.mem_insert.mp hv with rfl | hv
    · exact hne rfl
    · exact hs.absent v hv hmem

theorem RegistryInvariant.step {s t : Server ι σ} {a : Action ι κ}
    (hs : RegistryInvariant s) (h : Step H s a t) (ha : Registered s a) :
    RegistryInvariant t := by
  cases h with
  | accept h hfresh =>
      refine ⟨hs.started, ?_, by simp, hs.absent⟩
      intro v hv
      rw [← Acceptor.starting.inj hv]
      exact hfresh
  | acceptFails h => exact hs
  | @start uuid h =>
      refine ⟨?_, by simp, ?_, hs.absent⟩
      · intro v hv
        exact Finset.mem_insert_of_mem (hs.started v hv)
      -- A session that is only now started has not called anything.
      · intro v hv hcleared
        rw [← Acceptor.inserting.inj hv] at hcleared
        exact hs.starting uuid h (hs.started uuid hcleared)
  | insert h =>
      refine ⟨hs.started, by simp, by simp, ?_⟩
      intro v hv hmem
      rcases Finset.mem_insert.mp hmem with rfl | hmem
      · exact hs.inserting v h hv
      · exact hs.absent v hv hmem
  | returns h => exact ⟨hs.started, by simp, by simp, hs.absent⟩
  | handle hstarted h =>
      exact ⟨hs.started, hs.starting, hs.inserting, hs.absent⟩
  | clear hstarted h => exact hs.clear hstarted (ha _ _ rfl) _

omit [DecidableEq ι] in
theorem registryInvariant_init :
    RegistryInvariant (Server.init H : Server ι σ) := by
  constructor <;> simp [Server.init]

/-- A session that calls `ClearSession` too early is left in the registry. -/
theorem exists_holdsDead {s t : Server ι σ} {a : Action ι κ}
    (h : Step H s a t) (hearly : ¬ Registered s a) :
    ∃ u v, Step H t .insert u ∧ Step H u .returns v ∧ HoldsDead v := by
  simp only [Registered, not_forall, not_not] at hearly
  obtain ⟨uuid, event, rfl, hinserting⟩ := hearly
  cases h with
  | clear hstarted h =>
      refine ⟨_, _, .insert hinserting, .returns rfl, uuid, ?_, ?_, ?_⟩
      all_goals exact Finset.mem_insert_self _ _

/-- The registry holds no dead session in a run in which every session is
registered before it calls `ClearSession`; a session that calls it before is left
in the registry. -/
theorem not_holdsDead_of_registered (H : Handlers σ κ) :
    (∀ s : Server ι σ,
      ReflTransGen (fun s t => ∃ a, Step H s a t ∧ Registered s a)
        (Server.init H) s → ¬ HoldsDead s) ∧
    (∀ (s t : Server ι σ) (a : Action ι κ), Step H s a t → ¬ Registered s a →
      ∃ u v, Step H t .insert u ∧ Step H u .returns v ∧ HoldsDead v) := by
  constructor
  · intro s hrun
    have hinv : RegistryInvariant s := by
      apply invariant_of_run hrun registryInvariant_init
      intro s t hs hstep
      obtain ⟨a, hstep, ha⟩ := hstep
      exact hs.step hstep ha
    intro hdead
    obtain ⟨uuid, hcleared, -, hmem⟩ := hdead
    exact hinv.absent uuid hcleared hmem
  · intro s t a hstep hearly
    exact exists_holdsDead hstep hearly

def Reachable (H : Handlers σ κ) (s : Server ι σ) : Prop :=
  ReflTransGen (fun s t => ∃ a, Step H s a t) (Server.init H) s

/-- A session whose first completion makes it call `ClearSession` can be left in
the registry. -/
theorem exists_reachable_holdsDead {event : κ} {x : σ} (uuid : ι)
    (h : H.handle H.start event = some (x, true)) :
    ∃ s : Server ι σ, Reachable H s ∧ HoldsDead s := by
  let s1 : Server ι σ := ⟨.starting uuid, ∅, ∅, fun _ => H.start, ∅, ∅⟩
  let s2 : Server ι σ :=
    ⟨.inserting uuid, ∅, insert uuid ∅, fun _ => H.start, ∅, ∅⟩
  have h1 : Step H (Server.init H) (.accept uuid) s1 :=
    .accept rfl (Finset.notMem_empty uuid)
  have h2 : Step H s1 .start s2 := .start rfl
  have h3 : Step H s2 (.clear uuid event)
      ((s2.setSession uuid x).clearSession uuid) :=
    .clear (Finset.mem_insert_self _ _) h
  have hearly : ¬ Registered s2 (.clear uuid event) :=
    fun hregistered => hregistered uuid event rfl rfl
  obtain ⟨u, v, hu, hv, hdead⟩ := exists_holdsDead h3 hearly
  refine ⟨v, ?_, hdead⟩
  exact ((((ReflTransGen.single ⟨_, h1⟩).tail ⟨_, h2⟩).tail ⟨_, h3⟩).tail
    ⟨_, hu⟩).tail ⟨_, hv⟩

/-- In both servers the first read of a session fails before the session is
registered. -/
theorem holdsDead_reachable :
    (∃ s : Server ℕ ServicePool.ReadSession,
      Reachable callbackHandlers s ∧ HoldsDead s) ∧
    (∃ s : Server ℕ Coroutine.Session,
      Reachable coroutineHandlers s ∧ HoldsDead s) := by
  have hcallback : callbackHandlers.handle .start (.read .failed) =
      some (ServicePool.ReadSession.start.close, true) := rfl
  have hcoroutine : coroutineHandlers.handle .start (.read .failed) =
      some (Coroutine.Session.start.close, true) := rfl
  exact ⟨exists_reachable_holdsDead 0 hcallback,
    exists_reachable_holdsDead 0 hcoroutine⟩

end BackendLab.Accepting
