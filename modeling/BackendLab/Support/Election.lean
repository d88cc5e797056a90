import Mathlib.Data.List.Infix
import Mathlib.Logic.ExistsUnique
import Mathlib.Logic.Function.Basic

/-!
# A queue whose front is written by an elected thread

Whoever puts something into an empty queue, and whoever takes the front away and
leaves something behind it, is elected to start the write of the front.  It does
so later, and others may use the queue in between.
-/

namespace BackendLab.Support

/-- The queue, what each thread has been elected to write, the writes that have
been started and have not ended, and all that has been put into the queue and
all that has been started, in order. -/
@[ext]
structure Election (ω ν : Type*) where
  queue : List ν
  elected : ω → Option ν
  outstanding : List ν
  pushed : List ν
  started : List ν

namespace Election

variable {ω ν : Type*}

def empty : Election ω ν := ⟨[], fun _ => none, [], [], []⟩

section

variable [DecidableEq ω] (s : Election ω ν)

def push (w : ω) (x : ν) : Election ω ν :=
  { s with
    queue := s.queue ++ [x]
    pushed := s.pushed ++ [x]
    elected := if s.queue = [] then Function.update s.elected w (some x)
      else s.elected }

/-- The elected thread starts its write. -/
def start (w : ω) (x : ν) : Election ω ν :=
  { s with
    elected := Function.update s.elected w none
    outstanding := s.outstanding ++ [x]
    started := s.started ++ [x] }

/-- The write of `x` has ended, and the front is taken away. -/
def finish [DecidableEq ν] (w : ω) (x : ν) : Election ω ν :=
  { s with
    queue := s.queue.tail
    outstanding := s.outstanding.erase x
    elected := Function.update s.elected w s.queue.tail.head? }

end

/-- Nobody writes or is to write; or one thread is elected to write the front; or
the front is being written. -/
inductive Front (s : Election ω ν) : Prop
  | quiet (queue : s.queue = []) (outstanding : s.outstanding = [])
      (elected : ∀ w, s.elected w = none)
  | electing {w : ω} {x : ν} {rest : List ν} (queue : s.queue = x :: rest)
      (outstanding : s.outstanding = []) (elected : s.elected w = some x)
      (others : ∀ v, v ≠ w → s.elected v = none)
  | writing {x : ν} {rest : List ν} (queue : s.queue = x :: rest)
      (outstanding : s.outstanding = [x]) (elected : ∀ w, s.elected w = none)

structure Orderly (s : Election ω ν) : Prop where
  front : s.Front
  history : ∃ done, s.pushed = done ++ s.queue ∧
    s.started = done ++ s.outstanding

variable {s : Election ω ν} {w : ω} {x : ν}

theorem orderly_empty : (empty : Election ω ν).Orderly where
  front := .quiet rfl rfl fun _ => rfl
  history := ⟨[], rfl, rfl⟩

namespace Orderly

theorem length_outstanding_le_one (h : s.Orderly) :
    s.outstanding.length ≤ 1 := by
  cases h.front with
  | quiet _ houtstanding _ => simp [houtstanding]
  | electing _ houtstanding _ _ => simp [houtstanding]
  | writing _ houtstanding _ => simp [houtstanding]

/-- Something is queued exactly if something is being written, or one thread is
to write it. -/
theorem queue_ne_nil_iff (h : s.Orderly) :
    s.queue ≠ [] ↔ s.outstanding ≠ [] ∨ ∃! w, s.elected w ≠ none := by
  cases h.front with
  | quiet hqueue houtstanding helected =>
      simp [hqueue, houtstanding, helected]
  | @electing w x rest hqueue houtstanding helected hothers =>
      have hunique : ∃! w, s.elected w ≠ none := by
        refine ⟨w, by simp [helected], ?_⟩
        intro v hv
        by_contra hne
        exact hv (hothers v hne)
      simp [hqueue, hunique]
  | writing hqueue houtstanding _ => simp [hqueue, houtstanding]

theorem head?_of_outstanding (h : s.Orderly) (hx : x ∈ s.outstanding) :
    s.queue.head? = some x := by
  cases h.front with
  | quiet _ houtstanding _ => simp [houtstanding] at hx
  | electing _ houtstanding _ _ => simp [houtstanding] at hx
  | writing hqueue houtstanding _ =>
      rw [houtstanding, List.mem_singleton] at hx
      rw [hqueue, hx, List.head?_cons]

theorem head?_of_elected (h : s.Orderly) (hx : s.elected w = some x) :
    s.queue.head? = some x := by
  cases h.front with
  | quiet _ _ helected => simp [helected] at hx
  | @electing v y rest hqueue _ helected hothers =>
      by_cases hw : w = v
      · rw [hw, helected] at hx
        rw [hqueue, List.head?_cons, hx]
      · simp [hothers w hw] at hx
  | writing _ _ helected => simp [helected] at hx

theorem outstanding_eq (h : s.Orderly) (hx : x ∈ s.outstanding) :
    s.outstanding = [x] := by
  cases h.front with
  | quiet _ houtstanding _ => simp [houtstanding] at hx
  | electing _ houtstanding _ _ => simp [houtstanding] at hx
  | writing _ houtstanding _ =>
      rw [houtstanding, List.mem_singleton] at hx
      rw [houtstanding, hx]

/-- While something is being written nobody is elected. -/
theorem elected_eq_none (h : s.Orderly) (hx : x ∈ s.outstanding) (w : ω) :
    s.elected w = none := by
  cases h.front with
  | quiet _ _ helected => exact helected w
  | electing _ houtstanding _ _ => simp [houtstanding] at hx
  | writing _ _ helected => exact helected w

theorem started_isPrefix (h : s.Orderly) : s.started <+: s.pushed := by
  obtain ⟨done, hpushed, hstarted⟩ := h.history
  rw [hpushed, hstarted, List.prefix_append_right_inj]
  cases h.front with
  | quiet _ houtstanding _ => simp [houtstanding]
  | electing _ houtstanding _ _ => simp [houtstanding]
  | writing hqueue houtstanding _ => simp [hqueue, houtstanding]

variable [DecidableEq ω]

theorem push (h : s.Orderly) (w : ω) (x : ν) : (s.push w x).Orderly := by
  have hcons : ∀ {y : ν} {rest : List ν}, s.queue = y :: rest →
      (s.push w x).queue = y :: (rest ++ [x]) ∧
        (s.push w x).elected = s.elected := by
    intro y rest hqueue
    simp [Election.push, hqueue]
  refine ⟨?_, ?_⟩
  · cases h.front with
    | quiet hqueue houtstanding helected =>
        have hone : (s.push w x).queue = [x] := by simp [Election.push, hqueue]
        refine .electing (w := w) hone houtstanding ?_ ?_
        · simp [Election.push, hqueue]
        · intro v hv
          simp [Election.push, hqueue, hv, helected]
    | electing hqueue houtstanding helected hothers =>
        obtain ⟨hqueue', heq⟩ := hcons hqueue
        exact .electing hqueue' houtstanding (by rwa [heq]) (by rwa [heq])
    | writing hqueue houtstanding helected =>
        obtain ⟨hqueue', heq⟩ := hcons hqueue
        exact .writing hqueue' houtstanding (by rwa [heq])
  · obtain ⟨done, hpushed, hstarted⟩ := h.history
    refine ⟨done, ?_, hstarted⟩
    simp [Election.push, hpushed]

theorem start (h : s.Orderly) (hx : s.elected w = some x) :
    (s.start w x).Orderly := by
  cases h.front with
  | quiet _ _ helected => simp [helected] at hx
  | writing _ _ helected => simp [helected] at hx
  | @electing v y rest hqueue houtstanding helected hothers =>
      obtain rfl : w = v := by
        by_contra hne
        simp [hothers w hne] at hx
      obtain rfl : x = y := Option.some.inj (hx.symm.trans helected)
      refine ⟨.writing hqueue ?_ ?_, ?_⟩
      · simp [Election.start, houtstanding]
      · intro v
        by_cases hv : v = w
        · simp [Election.start, hv]
        · simp [Election.start, hv, hothers]
      · obtain ⟨done, hpushed, hstarted⟩ := h.history
        exact ⟨done, hpushed, by simp [Election.start, hstarted, houtstanding]⟩

theorem finish [DecidableEq ν] (h : s.Orderly) (hx : x ∈ s.outstanding) (w : ω) :
    (s.finish w x).Orderly := by
  have hnone := h.elected_eq_none hx
  have houtstanding := h.outstanding_eq hx
  obtain ⟨rest, hqueue⟩ : ∃ rest, s.queue = x :: rest := by
    have hhead := h.head?_of_outstanding hx
    cases hq : s.queue with
    | nil => simp [hq] at hhead
    | cons y rest =>
        rw [hq, List.head?_cons] at hhead
        exact ⟨rest, by rw [Option.some.inj hhead]⟩
  have hothers : ∀ v, v ≠ w → (s.finish w x).elected v = none := by
    intro v hv
    simp [Election.finish, hv, hnone]
  refine ⟨?_, ?_⟩
  · cases rest with
    | nil =>
        refine .quiet (by simp [Election.finish, hqueue])
          (by simp [Election.finish, houtstanding]) ?_
        intro v
        by_cases hv : v = w
        · simp [Election.finish, hqueue, hv]
        · exact hothers v hv
    | cons y rest =>
        have htail : (s.finish w x).queue = y :: rest := by
          simp [Election.finish, hqueue]
        exact .electing htail (by simp [Election.finish, houtstanding])
          (by simp [Election.finish, hqueue]) hothers
  · obtain ⟨done, hpushed, hstarted⟩ := h.history
    refine ⟨done ++ [x], ?_, ?_⟩
    · simp [Election.finish, hpushed, hqueue]
    · simp [Election.finish, hstarted, houtstanding]

end Orderly

end Election

end BackendLab.Support
