import BackendLab.Support.Election
import BackendLab.WebSocket.Strings

/-!
# One write at a time

The write of a message is initiated outside the lock, by the thread that found
the queue empty or that took away the message before it.  Seen through the
characters of its strings, a connection is a queue whose front is written by an
elected thread.
-/

namespace BackendLab.WebSocket

open Support Relation

/-- The variable whose message the thread is about to write. -/
def Frame.message : Frame → Option ℕ
  | .elected msg => some msg
  | .idle | .entered _ | .returning _ => none

theorem Frame.mem_variables_of_message {f : Frame} {c : ℕ}
    (h : f.message = some c) : c ∈ f.variables := by
  cases f with
  | elected msg =>
      obtain rfl := Option.some.inj h
      exact List.mem_singleton_self _
  | idle | entered _ | returning _ => cases h

namespace Connection

variable {ω : Type*} {s t : Connection ω} {w : ω}

def election (s : Connection ω) : Election ω Bytes where
  queue := s.sendQue.map s.read
  elected := fun w => (s.threads w).message.map s.read
  outstanding := s.outstanding.map Write.bytes
  pushed := s.pushed
  started := s.initiated.map Prod.fst

/-- The message at the front of the queue. -/
def front (s : Connection ω) : Option Bytes :=
  s.sendQue.head?.bind s.strings.value

theorem value_eq_read {c : ℕ} (h : s.strings.value c ≠ none) :
    s.strings.value c = some (s.read c) := by
  obtain ⟨msg, hmsg⟩ := Option.ne_none_iff_exists'.mp h
  rw [read, hmsg, Option.getD_some]

theorem read_congr {c : ℕ} (h : t.strings.value c = s.strings.value c) :
    t.read c = s.read c := by
  rw [read, read, h]

theorem read_of_value {c : ℕ} {msg : Bytes} (h : s.strings.value c = some msg) :
    s.read c = msg := by
  rw [read, h, Option.getD_some]

theorem queue_election_congr
    (h : ∀ c ∈ s.sendQue, t.strings.value c = s.strings.value c) :
    s.sendQue.map t.read = s.election.queue :=
  List.map_congr_left fun c hc => read_congr (h c hc)

variable [DecidableEq ω] {f : Frame}

/-- What the threads are about to write, after a step of `w` that leaves the
strings of the others alone. -/
theorem elected_election
    (hthreads : t.threads = Function.update s.threads w f)
    (hvalue : ∀ v, v ≠ w → ∀ c ∈ (s.threads v).variables,
      t.strings.value c = s.strings.value c) :
    t.election.elected =
      Function.update s.election.elected w (f.message.map t.read) := by
  funext v
  by_cases hv : v = w
  · simp [election, hthreads, hv]
  · rw [Function.update_of_ne hv]
    simp only [election, hthreads, Function.update_of_ne hv]
    cases hmessage : (s.threads v).message with
    | none => rfl
    | some c =>
        have hc := Frame.mem_variables_of_message hmessage
        rw [Option.map_some, Option.map_some, read_congr (hvalue v hv c hc)]

theorem update_elected_none (hw : (s.threads w).message = none) :
    Function.update s.election.elected w none = s.election.elected := by
  rw [Function.update_eq_self_iff]
  simp [election, hw]

/-! ## The steps -/

namespace StringsOwned

theorem election_asyncSend (h : s.StringsOwned) (hw : s.threads w = .idle)
    (msg : Bytes) : (s.asyncSend w msg).election = s.election := by
  have helected := elected_election (s := s) (t := s.asyncSend w msg) (w := w)
    rfl (fun v hv => (h.frame_of_step (.asyncSend hw) hv).2)
  have hqueue := queue_election_congr (s := s) (t := s.asyncSend w msg)
    (fun c hc => Variables.value_make_of_alive (h.alive_of_mem hc))
  ext1
  · exact hqueue
  · rw [helected]
    exact update_elected_none (by rw [hw]; rfl)
  · rfl
  · rfl
  · rfl

theorem election_push (h : s.StringsOwned) {msg : ℕ}
    (hw : s.threads w = .entered msg) :
    (s.push w msg).election = s.election.push w (s.read msg) := by
  have hmem : msg ∈ (s.threads w).variables := by simp [hw, Frame.variables]
  have helected := elected_election (s := s) (t := s.push w msg) (w := w) rfl
    (fun v hv => (h.frame_of_step (.push hw) hv).2)
  have hqueue := queue_election_congr (s := s) (t := s.push w msg)
    (fun c hc => Variables.value_make_of_alive (h.alive_of_mem hc))
  have hmsg : (s.push w msg).read msg = s.read msg :=
    read_congr (Variables.value_make_of_alive (h.alive_of_frame hmem))
  have hnew : (s.push w msg).read s.strings.next = s.read msg :=
    read_of_value Variables.value_make_next
  ext1
  · change (s.sendQue ++ [s.strings.next]).map (s.push w msg).read = _
    rw [List.map_append, hqueue, List.map_singleton, hnew]
    rfl
  · rw [helected]
    have hnone := update_elected_none (s := s) (w := w) (by rw [hw]; rfl)
    by_cases hempty : s.sendQue = []
    · simp [hempty, Frame.message, hmsg, Election.push, election]
    · have hpos : 0 < s.sendQue.length := List.length_pos_iff.mpr hempty
      have hne : s.election.queue ≠ [] := by simpa [election] using hempty
      rw [if_pos hpos, Election.push, if_neg hne]
      exact hnone
  · rfl
  · rfl
  · rfl

theorem election_sendCallBack (h : s.StringsOwned) {msg : ℕ}
    (hw : s.threads w = .elected msg) :
    (s.sendCallBack w msg).election = s.election.start w (s.read msg) := by
  have hmem : msg ∈ (s.threads w).variables := by simp [hw, Frame.variables]
  have helected := elected_election (s := s) (t := s.sendCallBack w msg) (w := w)
    rfl (fun v hv => (h.frame_of_step (.sendCallBack hw) hv).2)
  have hqueue : s.sendQue.map (s.sendCallBack w msg).read =
      s.election.queue := by
    refine queue_election_congr fun c hc => ?_
    -- the moved-from string belongs to the thread, not to the queue
    have hne : c ≠ msg := fun heq => h.notMem_of_frame hmem (heq ▸ hc)
    exact (Variables.value_assign_of_ne hne).trans
      (Variables.value_make_of_alive (h.alive_of_mem hc))
  ext1
  · exact hqueue
  · exact helected
  · exact List.map_append
  · rfl
  · exact List.map_append

theorem election_leave (h : s.StringsOwned) {c : ℕ} {locals : List ℕ}
    (hw : s.threads w = .returning (c :: locals)) :
    (s.leave w c locals).election = s.election := by
  have hmem : c ∈ (s.threads w).variables := by simp [hw, Frame.variables]
  have helected := elected_election (s := s) (t := s.leave w c locals) (w := w)
    rfl (fun v hv => (h.frame_of_step (.leave hw) hv).2)
  have hqueue := queue_election_congr (s := s) (t := s.leave w c locals)
    (fun d hd => Variables.value_destroy_of_ne
      (fun heq => h.notMem_of_frame hmem (heq ▸ hd)))
  ext1
  · exact hqueue
  · rw [helected]
    exact update_elected_none (by rw [hw]; rfl)
  · rfl
  · rfl
  · rfl

end StringsOwned

theorem election_rest (hw : s.threads w = .returning []) :
    (s.rest w).election = s.election := by
  have helected := elected_election (s := s) (t := s.rest w) (w := w) rfl
    (fun _ _ _ _ => rfl)
  ext1
  · rfl
  · rw [helected]
    exact update_elected_none (by rw [hw]; rfl)
  · rfl
  · rfl
  · rfl

theorem election_complete (h : s.StringsOwned) (horderly : s.election.Orderly)
    (hw : s.threads w = .idle) {x : Write} (hx : x ∈ s.outstanding) :
    (s.complete w x).election = s.election.finish w x.bytes := by
  have hbytes : x.bytes ∈ s.election.outstanding := List.mem_map_of_mem hx
  have hone : s.outstanding = [x] := by
    have hlength := horderly.length_outstanding_le_one
    simp only [election, List.length_map] at hlength
    have hpos := List.length_pos_of_mem hx
    obtain ⟨y, hy⟩ := List.length_eq_one_iff.mp (Nat.le_antisymm hlength hpos)
    rw [hy, List.mem_singleton] at hx
    rw [hy, hx]
  have houtstanding : (s.outstanding.erase x).map Write.bytes =
      (s.election.finish w x.bytes).outstanding := by
    simp [election, Election.finish, hone]
  have hmessage : (s.threads w).message = none := by rw [hw]; rfl
  have hhead := horderly.head?_of_outstanding hbytes
  rw [complete]
  split
  · next hqueue => simp [election, hqueue] at hhead
  · next front hqueue =>
      obtain ⟨-, hframes⟩ := h.value_pop hqueue
      set t : Connection ω :=
        { s with
          strings := s.strings.destroy front
          sendQue := []
          outstanding := s.outstanding.erase x } with ht
      have helected := elected_election (s := s) (t := t) (w := w)
        (Function.update_eq_self w _).symm (fun v _ c hc => hframes v c hc)
      ext1
      · simp [election, Election.finish, hqueue, ht]
      · rw [helected, hmessage]
        simp [election, Election.finish, hqueue]
      · exact houtstanding
      · rfl
      · rfl
  · next front next rest hqueue =>
      obtain ⟨hrest, hframes⟩ := h.value_pop hqueue
      set t : Connection ω :=
        { s with
          strings := (s.strings.destroy front).make (s.read next)
          sendQue := next :: rest
          outstanding := s.outstanding.erase x
          threads := Function.update s.threads w (.elected s.strings.next) }
        with ht
      have hvalue : ∀ c, (s.strings.destroy front).value c = s.strings.value c →
          s.strings.value c ≠ none → t.strings.value c = s.strings.value c := by
        intro c heq halive
        rw [← heq] at halive
        exact (Variables.value_make_of_alive halive).trans heq
      have helected := elected_election (s := s) (t := t) (w := w) rfl
        (fun v _ c hc => hvalue c (hframes v c hc) (h.alive_of_frame hc))
      have hqueue' : (next :: rest).map t.read = (next :: rest).map s.read := by
        refine List.map_congr_left fun c hc => read_congr ?_
        refine hvalue c (hrest c hc) (h.alive_of_mem ?_)
        rw [hqueue]
        exact List.mem_cons_of_mem _ hc
      have hnew : t.read s.strings.next = s.read next :=
        read_of_value Variables.value_make_next
      ext1
      · change (next :: rest).map t.read = _
        rw [hqueue']
        simp [election, Election.finish, hqueue]
      · rw [helected]
        simp [election, Election.finish, hqueue, Frame.message, hnew]
      · exact houtstanding
      · rfl
      · rfl

/-! ## Runs -/

theorem Orderly.step (h : s.StringsOwned) (horderly : s.election.Orderly)
    {a : Action ω} (hstep : Step s a t) : t.election.Orderly := by
  cases hstep with
  | asyncSend hw =>
      rw [h.election_asyncSend hw]
      exact horderly
  | push hw =>
      rw [h.election_push hw]
      exact horderly.push _ _
  | @sendCallBack w msg hw =>
      have helected : s.election.elected w = some (s.read msg) := by
        simp [election, hw, Frame.message]
      rw [h.election_sendCallBack hw]
      exact horderly.start helected
  | leave hw =>
      rw [h.election_leave hw]
      exact horderly
  | rest hw =>
      rw [election_rest hw]
      exact horderly
  | complete hw hx =>
      rw [election_complete h horderly hw hx]
      exact horderly.finish (List.mem_map_of_mem hx) _

theorem Reachable.orderly (h : Reachable s) : s.election.Orderly := by
  have hall : s.StringsOwned ∧ s.election.Orderly := by
    refine invariant_of_run
      (I := fun s : Connection ω => s.StringsOwned ∧ s.election.Orderly) h
      ⟨stringsOwned_start, Election.orderly_empty⟩ ?_
    rintro s t ⟨howned, horderly⟩ ⟨a, hstep⟩
    exact ⟨howned.step hstep, Orderly.step howned horderly hstep⟩
  exact hall.2

omit [DecidableEq ω] in
theorem StringsOwned.front_eq (h : s.StringsOwned) :
    s.front = s.election.queue.head? := by
  cases hqueue : s.sendQue with
  | nil => simp [front, election, hqueue]
  | cons c rest =>
      have halive : s.strings.value c ≠ none :=
        h.alive_of_mem (by simp [hqueue])
      simp [front, election, hqueue, value_eq_read halive]

omit [DecidableEq ω] in
theorem elected_ne_none {w : ω} :
    s.election.elected w ≠ none ↔ ∃ msg, s.threads w = .elected msg := by
  cases hw : s.threads w with
  | elected msg => simp [election, hw, Frame.message]
  | idle | entered _ | returning _ => simp [election, hw, Frame.message]

/-- In every state that a connection reaches: at most one write is outstanding;
the queue is not empty exactly if one is, or one thread is elected to write; what
is being written, or is about to be, is the front; and the messages whose write
has been initiated are the first of those pushed. -/
theorem Reachable.writes_in_order (h : Reachable s) :
    s.outstanding.length ≤ 1 ∧
      (s.sendQue ≠ [] ↔ s.outstanding ≠ [] ∨
        ∃! w, ∃ msg, s.threads w = .elected msg) ∧
      (∀ x ∈ s.outstanding, s.front = some x.bytes) ∧
      (∀ w msg, s.threads w = .elected msg →
        s.front ≠ none ∧ s.front = s.strings.value msg) ∧
      s.initiated.map Prod.fst <+: s.pushed := by
  have howned := h.stringsOwned
  have horderly := h.orderly
  refine ⟨?_, ?_, ?_, ?_, horderly.started_isPrefix⟩
  · simpa [election] using horderly.length_outstanding_le_one
  · have hiff := horderly.queue_ne_nil_iff
    simp only [elected_ne_none] at hiff
    simpa [election] using hiff
  · intro x hx
    rw [howned.front_eq]
    exact horderly.head?_of_outstanding (List.mem_map_of_mem hx)
  · intro w msg hw
    have halive : s.strings.value msg ≠ none :=
      howned.alive_of_frame (w := w) (by simp [hw, Frame.variables])
    have hfront : s.front = some (s.read msg) := by
      rw [howned.front_eq]
      exact horderly.head?_of_elected (w := w) (by
        simp [election, hw, Frame.message])
    rw [hfront, value_eq_read halive]
    simp

/-- The text `hi` is being written. -/
theorem writes_in_order_sent :
    (sent [104, 105]).outstanding.length ≤ 1 ∧
      (sent [104, 105]).front = some [104, 105] := by
  obtain ⟨hlength, -, hfront, -⟩ := (reachable_sent [104, 105]).writes_in_order
  exact ⟨hlength, hfront ⟨2, [], [104, 105]⟩ (by decide)⟩

end Connection

end BackendLab.WebSocket
