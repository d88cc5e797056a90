import Mathlib.Data.List.Basic

/-!
# A queue that is written from its front

The owner of a connection may have only one write outstanding at a time.  What
is to be written waits in a queue, at whose front stands what is being written:
whoever puts something into an empty queue starts its write, and the end of a
write takes the front away and starts the next.

Nothing in the operations keeps a second write from being started, or a write
from ending while the queue is empty.  Both follow from the order in which the
operations are made.
-/

namespace BackendLab.Support

/-- The queue, the writes that have been started and have not ended, and what has
been written. -/
structure WriteQueue (ν : Type*) where
  queue : List ν
  outstanding : List ν
  completed : List ν
  deriving DecidableEq, Repr

namespace WriteQueue

variable {ν : Type*}

def empty : WriteQueue ν := ⟨[], [], []⟩

/-- The write of the front is started. -/
def startFront (q : WriteQueue ν) : WriteQueue ν :=
  { q with outstanding := q.outstanding ++ q.queue.take 1 }

/-- Something is put into the queue.  Its write is started if there was nothing
before it. -/
def push (q : WriteQueue ν) (x : ν) : WriteQueue ν :=
  if 0 < q.queue.length then { q with queue := q.queue ++ [x] }
  else startFront { q with queue := q.queue ++ [x] }

/-- The write of `x` has ended: the front is taken away, and the write of the
next is started. -/
def complete [DecidableEq ν] (q : WriteQueue ν) (x : ν) : WriteQueue ν :=
  startFront
    ⟨q.queue.tail, q.outstanding.erase x, q.completed ++ [x]⟩

/-- Exactly the front is being written. -/
def Orderly (q : WriteQueue ν) : Prop :=
  q.outstanding = q.queue.take 1

/-- All that has been put into the queue, in order. -/
def content (q : WriteQueue ν) : List ν :=
  q.completed ++ q.queue

theorem orderly_empty : (empty : WriteQueue ν).Orderly := rfl

theorem Orderly.push {q : WriteQueue ν} (h : q.Orderly) (x : ν) :
    (q.push x).Orderly := by
  unfold Orderly at *
  rw [WriteQueue.push]
  split
  · next hpos => rw [h, List.take_append_of_le_length hpos]
  · next hempty =>
      have hnil := List.eq_nil_of_length_eq_zero (Nat.eq_zero_of_not_pos hempty)
      simp only [startFront, h, hnil, List.take_nil, List.nil_append]

theorem push_of_nil {q : WriteQueue ν} (h : q.queue = []) (x : ν) :
    q.push x = ⟨[x], q.outstanding ++ [x], q.completed⟩ := by
  simp [WriteQueue.push, startFront, h]

theorem push_of_ne_nil {q : WriteQueue ν} (h : q.queue ≠ []) (x : ν) :
    q.push x = { q with queue := q.queue ++ [x] } := by
  rw [WriteQueue.push, if_pos (List.length_pos_of_ne_nil h)]

theorem length_queue_push (q : WriteQueue ν) (x : ν) :
    (q.push x).queue.length = q.queue.length + 1 := by
  rw [WriteQueue.push]
  split <;> exact List.length_append

theorem content_push (q : WriteQueue ν) (x : ν) :
    (q.push x).content = q.content ++ [x] := by
  rw [WriteQueue.push]
  split <;> exact (List.append_assoc _ _ _).symm

namespace Orderly

variable {q : WriteQueue ν} {x : ν}

/-- Only the front can end. -/
theorem queue_eq (h : q.Orderly) (hx : x ∈ q.outstanding) :
    q.queue = x :: q.queue.tail := by
  rw [h] at hx
  cases hq : q.queue with
  | nil => simp [hq] at hx
  | cons y ys =>
      rw [hq] at hx
      rw [List.mem_singleton.mp hx]
      rfl

theorem outstanding_eq (h : q.Orderly) (hx : x ∈ q.outstanding) :
    q.outstanding = [x] := by
  have hfront : q.outstanding = q.queue.take 1 := h
  rw [hfront, h.queue_eq hx]
  rfl

theorem length_outstanding_le_one (h : q.Orderly) :
    q.outstanding.length ≤ 1 := by
  have hfront : q.outstanding = q.queue.take 1 := h
  rw [hfront]
  exact List.length_take_le _ _

theorem outstanding_ne_nil_iff (h : q.Orderly) :
    q.outstanding ≠ [] ↔ q.queue ≠ [] := by
  have hfront : q.outstanding = q.queue.take 1 := h
  rw [hfront, ne_eq, List.take_eq_nil_iff]
  simp

variable [DecidableEq ν]

theorem complete (h : q.Orderly) (hx : x ∈ q.outstanding) :
    (q.complete x).Orderly := by
  simp only [Orderly, WriteQueue.complete, startFront, h.outstanding_eq hx,
    List.erase_cons_head, List.nil_append]

theorem content_complete (h : q.Orderly) (hx : x ∈ q.outstanding) :
    (q.complete x).content = q.content := by
  have hqueue := h.queue_eq hx
  simp only [content, WriteQueue.complete, startFront]
  rw [List.append_assoc, List.singleton_append, ← hqueue]

end Orderly

theorem length_queue_complete_le [DecidableEq ν] (q : WriteQueue ν) (x : ν) :
    (q.complete x).queue.length ≤ q.queue.length := by
  simp [complete, startFront]

/-! ## Writes that fail -/

section Failing

variable {q : WriteQueue ν} {x : ν}

/-- The write of `x` has failed: nothing is taken away and nothing is started. -/
def abort [DecidableEq ν] (q : WriteQueue ν) (x : ν) : WriteQueue ν :=
  { q with outstanding := q.outstanding.erase x }

/-- At most the front is being written; after a failure nothing is. -/
def FrontOnly (q : WriteQueue ν) : Prop :=
  q.Orderly ∨ q.outstanding = []

namespace FrontOnly

theorem orderly (h : q.FrontOnly) (hx : x ∈ q.outstanding) : q.Orderly := by
  rcases h with h | hnil
  · exact h
  · rw [hnil] at hx
    cases hx

theorem push (h : q.FrontOnly) (x : ν) : (q.push x).FrontOnly := by
  rcases h with h | hnil
  · exact .inl (h.push x)
  · by_cases hqueue : q.queue = []
    -- With nothing in the queue, the failure is as if it had not been.
    · have horderly : q.Orderly := by rw [Orderly, hnil, hqueue, List.take_nil]
      exact .inl (horderly.push x)
    · right
      rw [push_of_ne_nil hqueue]
      exact hnil

variable [DecidableEq ν]

theorem complete (h : q.FrontOnly) (hx : x ∈ q.outstanding) :
    (q.complete x).FrontOnly :=
  .inl ((h.orderly hx).complete hx)

theorem abort (h : q.FrontOnly) (hx : x ∈ q.outstanding) :
    (q.abort x).outstanding = [] := by
  rw [WriteQueue.abort, (h.orderly hx).outstanding_eq hx]
  exact List.erase_cons_head x []

end FrontOnly

end Failing

end WriteQueue

end BackendLab.Support
