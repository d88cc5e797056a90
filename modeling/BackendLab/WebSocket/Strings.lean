import BackendLab.Support.Custody
import BackendLab.Support.Runs
import BackendLab.WebSocket.Connection
import Mathlib.Data.List.Nodup

/-!
# Who owns a string

Every string that is alive belongs to the queue or to the functions that one
thread is in.  The buffer of a write refers to the parameter of `SendCallBack`,
which is destroyed when `SendCallBack` returns; the completion handler owns no
string at all.
-/

namespace BackendLab.WebSocket

open Support Relation

theorem mem_tail_iff {c d : ℕ} {cs : List ℕ} (h : c ∉ cs) :
    d ∈ cs ↔ d ∈ c :: cs ∧ d ≠ c := by
  rw [List.mem_cons]
  constructor
  · exact fun hd => ⟨Or.inr hd, fun heq => h (heq ▸ hd)⟩
  · rintro ⟨rfl | hd, hne⟩
    · exact absurd rfl hne
    · exact hd

inductive Owner (ω : Type*) where
  | queue
  | frame (w : ω)

namespace Connection

variable {ω : Type*} {s t : Connection ω} {w : ω}

def Owns (s : Connection ω) : Owner ω → ℕ → Prop
  | .queue, c => c ∈ s.sendQue
  | .frame w, c => c ∈ (s.threads w).variables

def custody (s : Connection ω) : Custody (Owner ω) ℕ where
  live := {c | s.strings.value c ≠ none}
  holds := s.Owns

structure StringsOwned (s : Connection ω) : Prop where
  exclusive : s.custody.Exclusive
  complete : s.custody.Complete
  queue_nodup : s.sendQue.Nodup
  frame_nodup : ∀ w, (s.threads w).variables.Nodup
  buffer_lt : ∀ x ∈ s.outstanding, x.buffer < s.strings.next
  buffer_notMem : ∀ x ∈ s.outstanding, x.buffer ∉ s.sendQue
  captured_eq : ∀ x ∈ s.outstanding, x.captured = []

theorem stringsOwned_start : (start : Connection ω).StringsOwned where
  exclusive := by
    constructor
    · intro p q c hp
      cases p <;> simp [custody, Owns, start, Frame.variables] at hp
    · intro p c hp
      cases p <;> simp [custody, Owns, start, Frame.variables] at hp
  complete := by
    intro c hc
    simp [custody, start, Variables.empty] at hc
  queue_nodup := List.nodup_nil
  frame_nodup := fun _ => List.nodup_nil
  buffer_lt := by simp [start]
  buffer_notMem := by simp [start]
  captured_eq := by simp [start]

namespace StringsOwned

theorem alive_of_mem (h : s.StringsOwned) {c : ℕ} (hc : c ∈ s.sendQue) :
    s.strings.value c ≠ none :=
  h.exclusive.live (p := .queue) hc

theorem alive_of_frame (h : s.StringsOwned) {c : ℕ}
    (hc : c ∈ (s.threads w).variables) : s.strings.value c ≠ none :=
  h.exclusive.live (p := .frame w) hc

theorem notMem_of_frame (h : s.StringsOwned) {c : ℕ}
    (hc : c ∈ (s.threads w).variables) : c ∉ s.sendQue := by
  intro hmem
  have heq := h.exclusive.unique (p := .frame w) (q := .queue) hc hmem
  cases heq

theorem ne_of_frame (h : s.StringsOwned) {v : ω} {c d : ℕ}
    (hv : v ≠ w) (hc : c ∈ (s.threads w).variables)
    (hd : d ∈ (s.threads v).variables) : d ≠ c := by
  rintro rfl
  have heq := h.exclusive.unique (p := .frame v) (q := .frame w) hd hc
  exact hv (Owner.frame.inj heq)

theorem next_notMem (h : s.StringsOwned) : s.strings.next ∉ s.sendQue :=
  fun hmem => h.alive_of_mem hmem (s.strings.fresh _ (Nat.le_refl _))

theorem next_notMem_frame (h : s.StringsOwned) :
    s.strings.next ∉ (s.threads w).variables :=
  fun hmem => h.alive_of_frame hmem (s.strings.fresh _ (Nat.le_refl _))

/-- The strings that a pop does not destroy. -/
theorem value_pop (h : s.StringsOwned) {front : ℕ} {rest : List ℕ}
    (hqueue : s.sendQue = front :: rest) :
    (∀ c ∈ rest, (s.strings.destroy front).value c = s.strings.value c) ∧
      ∀ w, ∀ c ∈ (s.threads w).variables,
        (s.strings.destroy front).value c = s.strings.value c := by
  have hmem : front ∈ s.sendQue := by simp [hqueue]
  have hnodup := h.queue_nodup
  rw [hqueue, List.nodup_cons] at hnodup
  constructor
  · intro c hc
    exact Variables.value_destroy_of_ne fun heq => hnodup.1 (heq ▸ hc)
  · intro w c hc
    exact Variables.value_destroy_of_ne
      fun heq => h.notMem_of_frame hc (heq ▸ hmem)

variable [DecidableEq ω] {f : Frame}

/-- A thread constructs a string. -/
theorem enters_frame (h : s.StringsOwned)
    (halive : ∀ c, t.strings.value c ≠ none ↔
      c = s.strings.next ∨ s.strings.value c ≠ none)
    (hqueue : t.sendQue = s.sendQue)
    (hthreads : t.threads = Function.update s.threads w f)
    (hf : f.variables = s.strings.next :: (s.threads w).variables) :
    t.custody.Exclusive ∧ t.custody.Complete := by
  have henters : s.custody.Enters t.custody s.strings.next (.frame w) := by
    refine ⟨Set.ext halive, ?_, ?_⟩
    · exact not_not.mpr (s.strings.fresh _ (Nat.le_refl _))
    · intro q c
      cases q with
      | queue => simp [custody, Owns, hqueue]
      | frame v =>
          by_cases hv : v = w
          · simp [custody, Owns, hthreads, hf, hv]
          · simp [custody, Owns, hthreads, hv]
  exact ⟨h.exclusive.enters henters, h.complete.transfer (.enters henters)⟩

/-- A string is pushed into the queue. -/
theorem enters_queue (h : s.StringsOwned) {msg : Bytes}
    (hstrings : t.strings = s.strings.make msg)
    (hqueue : t.sendQue = s.sendQue ++ [s.strings.next])
    (hthreads : t.threads = Function.update s.threads w f)
    (hf : f.variables = (s.threads w).variables) :
    t.custody.Exclusive ∧ t.custody.Complete := by
  have henters : s.custody.Enters t.custody s.strings.next .queue := by
    refine ⟨?_, ?_, ?_⟩
    · ext c
      simp only [custody, hstrings]
      exact Variables.value_make_ne_none
    · exact not_not.mpr (s.strings.fresh _ (Nat.le_refl _))
    · intro q c
      cases q with
      | queue => simp [custody, Owns, hqueue, or_comm]
      | frame v =>
          by_cases hv : v = w
          · simp [custody, Owns, hthreads, hf, hv]
          · simp [custody, Owns, hthreads, hv]
  exact ⟨h.exclusive.enters henters, h.complete.transfer (.enters henters)⟩

/-- A string of a thread is destroyed. -/
theorem leaves_frame (h : s.StringsOwned) {c : ℕ}
    (hstrings : t.strings = s.strings.destroy c)
    (hqueue : t.sendQue = s.sendQue)
    (hthreads : t.threads = Function.update s.threads w f)
    (hc : (s.threads w).variables = c :: f.variables) :
    t.custody.Exclusive ∧ t.custody.Complete := by
  have hmem : c ∈ (s.threads w).variables := by simp [hc]
  have hnodup := h.frame_nodup w
  rw [hc, List.nodup_cons] at hnodup
  have hleaves : s.custody.Leaves t.custody c := by
    refine ⟨?_, ?_⟩
    · ext d
      simp only [custody, hstrings]
      exact Variables.value_destroy_ne_none
    · intro q d
      have hother : q ≠ .frame w → s.Owns q d → d ≠ c := by
        rintro hq hd rfl
        exact hq (h.exclusive.unique (p := q) (q := .frame w) hd hmem)
      cases q with
      | queue =>
          have hne := hother (by simp)
          simp only [Owns] at hne
          simpa [custody, Owns, hqueue] using hne
      | frame v =>
          by_cases hv : v = w
          · subst hv
            simp only [custody, Owns, hthreads, Function.update_self, hc]
            exact mem_tail_iff hnodup.1
          · have hne := hother (by simpa using hv)
            simp only [Owns] at hne
            simpa [custody, Owns, hthreads, hv] using hne
  exact ⟨h.exclusive.leaves hleaves, h.complete.transfer (.leaves hleaves)⟩

omit [DecidableEq ω] in
/-- The front is popped. -/
theorem leaves_queue (h : s.StringsOwned) {c : ℕ}
    (hstrings : t.strings = s.strings.destroy c)
    (hqueue : s.sendQue = c :: t.sendQue) (hthreads : t.threads = s.threads) :
    t.custody.Exclusive ∧ t.custody.Complete := by
  have hmem : c ∈ s.sendQue := by simp [hqueue]
  have hnodup := h.queue_nodup
  rw [hqueue, List.nodup_cons] at hnodup
  have hleaves : s.custody.Leaves t.custody c := by
    refine ⟨?_, ?_⟩
    · ext d
      simp only [custody, hstrings]
      exact Variables.value_destroy_ne_none
    · intro q d
      cases q with
      | queue =>
          simp only [custody, Owns, hqueue]
          exact mem_tail_iff hnodup.1
      | frame v =>
          simp only [custody, Owns, hthreads]
          constructor
          · intro hd
            exact ⟨hd, fun heq => h.notMem_of_frame hd (heq ▸ hmem)⟩
          · exact fun hd => hd.1
  exact ⟨h.exclusive.leaves hleaves, h.complete.transfer (.leaves hleaves)⟩

theorem frame_nodup_update (h : s.StringsOwned) (hf : f.variables.Nodup) :
    ∀ v, (Function.update s.threads w f v).variables.Nodup := by
  intro v
  by_cases hv : v = w
  · simpa [hv] using hf
  · simpa [hv] using h.frame_nodup v

/-- A thread that does nothing else constructs a string. -/
theorem construct (h : s.StringsOwned) (hw : s.threads w = .idle) (msg : Bytes)
    (hf : f.variables = [s.strings.next]) :
    StringsOwned
      { s with
        strings := s.strings.make msg
        threads := Function.update s.threads w f } := by
  set t : Connection ω :=
    { s with
      strings := s.strings.make msg
      threads := Function.update s.threads w f } with ht
  obtain ⟨hexclusive, hcomplete⟩ := h.enters_frame (t := t)
    (fun _ => Variables.value_make_ne_none) rfl rfl (by rw [hf, hw]; rfl)
  exact ⟨hexclusive, hcomplete, h.queue_nodup,
    h.frame_nodup_update (by simp [hf]),
    fun x hx => Nat.lt_succ_of_lt (h.buffer_lt x hx), h.buffer_notMem,
    h.captured_eq⟩

theorem push (h : s.StringsOwned) {msg : ℕ}
    (hw : s.threads w = .entered msg) : (s.push w msg).StringsOwned := by
  have hf : ∀ f : Frame, f = .returning [msg] ∨ f = .elected msg →
      f.variables = (s.threads w).variables := by
    rintro f (rfl | rfl)
    · rw [hw]; rfl
    · rw [hw]; rfl
  have hframe := hf (if 0 < s.sendQue.length then .returning [msg]
    else .elected msg) (by split <;> simp)
  obtain ⟨hexclusive, hcomplete⟩ := h.enters_queue (t := s.push w msg) rfl rfl
    rfl hframe
  refine ⟨hexclusive, hcomplete, ?_, ?_, ?_, ?_, h.captured_eq⟩
  · have hnodup := h.queue_nodup.concat h.next_notMem
    rwa [List.concat_eq_append] at hnodup
  · exact h.frame_nodup_update (by rw [hframe]; exact h.frame_nodup w)
  · exact fun x hx => Nat.lt_succ_of_lt (h.buffer_lt x hx)
  · intro x hx
    have hlt := h.buffer_lt x hx
    simp only [Connection.push, List.mem_append, List.mem_singleton, not_or]
    exact ⟨h.buffer_notMem x hx, by omega⟩

theorem sendCallBack (h : s.StringsOwned) {msg : ℕ}
    (hw : s.threads w = .elected msg) : (s.sendCallBack w msg).StringsOwned := by
  have hframe : (Frame.returning [s.strings.next, msg]).variables =
      s.strings.next :: (s.threads w).variables := by
    rw [hw]
    rfl
  have halive : ∀ c, (s.sendCallBack w msg).strings.value c ≠ none ↔
      c = s.strings.next ∨ s.strings.value c ≠ none := by
    intro c
    simp only [Connection.sendCallBack]
    rw [Variables.value_assign_ne_none, Variables.value_make_ne_none]
  obtain ⟨hexclusive, hcomplete⟩ := h.enters_frame (t := s.sendCallBack w msg)
    halive rfl rfl hframe
  refine ⟨hexclusive, hcomplete, h.queue_nodup, ?_, ?_, ?_, ?_⟩
  · refine h.frame_nodup_update ?_
    rw [hframe, List.nodup_cons]
    exact ⟨h.next_notMem_frame, h.frame_nodup w⟩
  · intro x hx
    rcases List.mem_append.mp hx with hx | hx
    · exact Nat.lt_succ_of_lt (h.buffer_lt x hx)
    · rw [List.mem_singleton.mp hx]
      exact Nat.lt_succ_self _
  · intro x hx
    rcases List.mem_append.mp hx with hx | hx
    · exact h.buffer_notMem x hx
    · rw [List.mem_singleton.mp hx]
      exact h.next_notMem
  · intro x hx
    rcases List.mem_append.mp hx with hx | hx
    · exact h.captured_eq x hx
    · rw [List.mem_singleton.mp hx]

theorem leave (h : s.StringsOwned) {c : ℕ} {locals : List ℕ}
    (hw : s.threads w = .returning (c :: locals)) :
    (s.leave w c locals).StringsOwned := by
  have hframe : (s.threads w).variables =
      c :: (Frame.returning locals).variables := by
    rw [hw]
    rfl
  obtain ⟨hexclusive, hcomplete⟩ := h.leaves_frame (t := s.leave w c locals)
    rfl rfl rfl hframe
  refine ⟨hexclusive, hcomplete, h.queue_nodup, ?_, h.buffer_lt,
    h.buffer_notMem, h.captured_eq⟩
  refine h.frame_nodup_update ?_
  have hnodup := h.frame_nodup w
  rw [hframe] at hnodup
  exact hnodup.of_cons

theorem rest (h : s.StringsOwned) (hw : s.threads w = .returning []) :
    (s.rest w).StringsOwned := by
  have hcustody : (s.rest w).custody = s.custody := by
    ext p c
    · rfl
    · cases p with
      | queue => rfl
      | frame v =>
          by_cases hv : v = w
          · simp [custody, Owns, Connection.rest, Frame.variables, hv, hw]
          · simp [custody, Owns, Connection.rest, hv]
  refine ⟨?_, ?_, h.queue_nodup, h.frame_nodup_update List.nodup_nil, h.buffer_lt,
    h.buffer_notMem, h.captured_eq⟩
  · rw [hcustody]
    exact h.exclusive
  · rw [hcustody]
    exact h.complete

omit [DecidableEq ω] in
/-- The front is popped, and the write has ended. -/
theorem pop (h : s.StringsOwned) {front : ℕ} {rest : List ℕ}
    (hqueue : s.sendQue = front :: rest) (x : Write) :
    StringsOwned
      { s with
        strings := s.strings.destroy front
        sendQue := rest
        outstanding := s.outstanding.erase x } := by
  set t : Connection ω :=
    { s with
      strings := s.strings.destroy front
      sendQue := rest
      outstanding := s.outstanding.erase x } with ht
  obtain ⟨hexclusive, hcomplete⟩ := h.leaves_queue (t := t) rfl hqueue rfl
  have hnodup := h.queue_nodup
  rw [hqueue] at hnodup
  refine ⟨hexclusive, hcomplete, hnodup.of_cons, h.frame_nodup, ?_, ?_, ?_⟩
  · exact fun y hy => h.buffer_lt y (List.mem_of_mem_erase hy)
  · intro y hy hmem
    have hnot := h.buffer_notMem y (List.mem_of_mem_erase hy)
    rw [hqueue] at hnot
    exact hnot (List.mem_cons_of_mem _ hmem)
  · exact fun y hy => h.captured_eq y (List.mem_of_mem_erase hy)

theorem complete_step (h : s.StringsOwned) (hw : s.threads w = .idle) (x : Write) :
    (s.complete w x).StringsOwned := by
  rw [Connection.complete]
  split
  · exact ⟨h.exclusive, h.complete, h.queue_nodup, h.frame_nodup,
      fun y hy => h.buffer_lt y (List.mem_of_mem_erase hy),
      fun y hy => h.buffer_notMem y (List.mem_of_mem_erase hy),
      fun y hy => h.captured_eq y (List.mem_of_mem_erase hy)⟩
  · next front hqueue => exact h.pop hqueue x
  · next front next rest hqueue =>
      exact (h.pop hqueue x).construct hw (s.read next) rfl

theorem step (h : s.StringsOwned) {a : Action ω} (hstep : Step s a t) :
    t.StringsOwned := by
  cases hstep with
  | asyncSend hw => exact h.construct hw _ rfl
  | push hw => exact h.push hw
  | sendCallBack hw => exact h.sendCallBack hw
  | leave hw => exact h.leave hw
  | rest hw => exact h.rest hw
  | complete hw _ => exact h.complete_step hw _

/-- A step leaves the other threads and their strings alone. -/
theorem frame_of_step (h : s.StringsOwned) {a : Action ω} (hstep : Step s a t)
    {v : ω} (hv : v ≠ a.thread) :
    t.threads v = s.threads v ∧
      ∀ c ∈ (s.threads v).variables, t.strings.value c = s.strings.value c := by
  have hmake : ∀ {msg : Bytes}, ∀ c ∈ (s.threads v).variables,
      (s.strings.make msg).value c = s.strings.value c :=
    fun c hc => Variables.value_make_of_alive (h.alive_of_frame hc)
  cases hstep with
  | asyncSend _ => exact ⟨Function.update_of_ne hv _ _, hmake⟩
  | push _ => exact ⟨Function.update_of_ne hv _ _, hmake⟩
  | @sendCallBack w msg hw =>
      have hmem : msg ∈ (s.threads w).variables := by simp [hw, Frame.variables]
      refine ⟨Function.update_of_ne hv _ _, fun c hc => ?_⟩
      have hne : c ≠ msg := h.ne_of_frame hv hmem hc
      exact (Variables.value_assign_of_ne hne).trans (hmake c hc)
  | @leave w d locals hw =>
      have hmem : d ∈ (s.threads w).variables := by simp [hw, Frame.variables]
      exact ⟨Function.update_of_ne hv _ _, fun c hc =>
        Variables.value_destroy_of_ne (h.ne_of_frame hv hmem hc)⟩
  | rest _ => exact ⟨Function.update_of_ne hv _ _, fun _ _ => rfl⟩
  | complete _ _ =>
      rw [Connection.complete]
      split
      · exact ⟨rfl, fun _ _ => rfl⟩
      · next hqueue => exact ⟨rfl, fun c hc => (h.value_pop hqueue).2 v c hc⟩
      · next hqueue =>
          refine ⟨Function.update_of_ne hv _ _, fun c hc => ?_⟩
          have heq := (h.value_pop hqueue).2 v c hc
          have halive := h.alive_of_frame hc
          rw [← heq] at halive
          exact (Variables.value_make_of_alive halive).trans heq

end StringsOwned

/-! ## The buffer of a write -/

variable [DecidableEq ω]

/-- The connection can be reached by steps of the threads in any order. -/
def Reachable (s : Connection ω) : Prop :=
  ReflTransGen (fun s t => ∃ a, Step s a t) start s

theorem Reachable.stringsOwned (h : Reachable s) : s.StringsOwned := by
  apply invariant_of_run h stringsOwned_start
  intro s t hs hstep
  obtain ⟨a, hstep⟩ := hstep
  exact hs.step hstep

/-- The buffer of a write refers to an element of the queue, or to a string that
the handler captures, and this holds the message at the front. -/
def BufferOwned (s : Connection ω) (x : Write) : Prop :=
  (x.buffer ∈ s.sendQue ∨ x.buffer ∈ x.captured) ∧
    ∃ front ∈ s.sendQue.head?, ∃ msg,
      s.strings.value front = some msg ∧ s.strings.value x.buffer = some msg

/-- In every state that a connection reaches, the buffer of a write that is
outstanding refers to a string that neither the queue nor the handler owns.  It
has been destroyed unless `SendCallBack` has still to return. -/
theorem Reachable.not_bufferOwned (h : Reachable s) {x : Write}
    (hx : x ∈ s.outstanding) :
    ¬ s.BufferOwned x ∧
      ((∀ w, x.buffer ∉ (s.threads w).variables) →
        s.strings.value x.buffer = none) := by
  have howned := h.stringsOwned
  constructor
  · rintro ⟨hqueue | hcaptured, -⟩
    · exact howned.buffer_notMem x hx hqueue
    · rw [howned.captured_eq x hx] at hcaptured
      cases hcaptured
  · intro hframes
    by_contra halive
    obtain ⟨p, hp⟩ := howned.complete x.buffer halive
    cases p with
    | queue => exact howned.buffer_notMem x hx hp
    | frame w => exact hframes w hp

/-- One thread sends a message, up to the call of `async_write`: the parameter of
`AsyncSend` is at 0, the element of the queue at 1 and the parameter of
`SendCallBack` at 2. -/
def sent (msg : Bytes) : Connection (Fin 2) :=
  ((start.asyncSend 0 msg).push 0 0).sendCallBack 0 0

theorem reachable_sent (msg : Bytes) : Reachable (sent msg) := by
  have h₁ : Step start (.asyncSend 0 msg) (start.asyncSend (0 : Fin 2) msg) :=
    .asyncSend rfl
  have h₂ : Step (start.asyncSend (0 : Fin 2) msg) (.push 0)
      ((start.asyncSend 0 msg).push 0 0) := .push rfl
  have h₃ : Step ((start.asyncSend (0 : Fin 2) msg).push 0 0)
      (.sendCallBack 0) (sent msg) := .sendCallBack rfl
  exact ((ReflTransGen.single ⟨_, h₁⟩).tail ⟨_, h₂⟩).tail ⟨_, h₃⟩

/-- The text `hi` is being written. -/
theorem not_bufferOwned_sent :
    ⟨2, [], [104, 105]⟩ ∈ (sent [104, 105]).outstanding ∧
      ¬ (sent [104, 105]).BufferOwned ⟨2, [], [104, 105]⟩ := by
  have hx : ⟨2, [], [104, 105]⟩ ∈ (sent [104, 105]).outstanding := by decide
  exact ⟨hx, ((reachable_sent _).not_bufferOwned hx).1⟩

/-- `SendCallBack` and `AsyncSend` have returned, and the write of `hi` has not
completed: the string of its buffer is gone. -/
theorem buffer_destroyed :
    ∃ (s : Connection (Fin 2)) (x : Write), Reachable s ∧ x ∈ s.outstanding ∧
      s.sendQue = [1] ∧ s.strings.value 1 = some [104, 105] ∧
      s.strings.value x.buffer = none ∧ ¬ s.BufferOwned x := by
  let s₁ := (sent [104, 105]).leave 0 2 [0]
  let s₂ := s₁.leave 0 0 []
  have h₁ : Step (sent [104, 105]) (.leave 0) s₁ := .leave rfl
  have h₂ : Step s₁ (.leave 0) s₂ := .leave rfl
  have h₃ : Step s₂ (.leave 0) (s₂.rest 0) := .rest rfl
  have hreach : Reachable (s₂.rest 0) :=
    (((reachable_sent _).tail ⟨_, h₁⟩).tail ⟨_, h₂⟩).tail ⟨_, h₃⟩
  refine ⟨s₂.rest 0, ⟨2, [], [104, 105]⟩, hreach, by decide, rfl, rfl, rfl, ?_⟩
  rintro ⟨hqueue | hcaptured, -⟩
  · exact absurd hqueue (by decide)
  · cases hcaptured

end Connection

end BackendLab.WebSocket
