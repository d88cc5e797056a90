import Mathlib.Data.List.Basic
import Mathlib.Data.List.Infix

/-!
# Lanes of a shared queue

Several senders put their entries into one sequence.  The lane of a sender are
its own entries, in the order of the sequence.
-/

namespace BackendLab.Support

variable {ι μ : Type*} [DecidableEq ι]

/-- The entries that carry the tag `i`. -/
def lane (i : ι) (entries : List (ι × μ)) : List μ :=
  entries.filterMap fun e => if e.1 = i then some e.2 else none

@[simp] theorem lane_nil (i : ι) : lane i ([] : List (ι × μ)) = [] := rfl

@[simp] theorem lane_append (i : ι) (xs ys : List (ι × μ)) :
    lane i (xs ++ ys) = lane i xs ++ lane i ys :=
  List.filterMap_append

@[simp] theorem lane_singleton_self (i : ι) (m : μ) : lane i [(i, m)] = [m] := by
  simp [lane]

theorem lane_singleton_of_ne {i k : ι} (h : k ≠ i) (m : μ) :
    lane i [(k, m)] = [] := by
  simp [lane, h]

theorem lane_eq_nil {i : ι} {entries : List (ι × μ)} :
    lane i entries = [] ↔ ∀ e ∈ entries, e.1 ≠ i := by
  simp [lane, List.filterMap_eq_nil_iff]

/-- An entry that is alone in its lane stands among entries of others. -/
theorem exists_split_of_lane {i : ι} {m : μ} {entries : List (ι × μ)}
    (h : lane i entries = [m]) :
    ∃ before after, entries = before ++ (i, m) :: after ∧
      ∀ e ∈ before ++ after, e.1 ≠ i := by
  induction entries with
  | nil => cases h
  | cons e entries ih =>
      obtain ⟨k, x⟩ := e
      rw [← List.singleton_append, lane_append] at h
      by_cases hk : k = i
      · subst hk
        rw [lane_singleton_self, List.singleton_append, List.cons.injEq] at h
        obtain ⟨rfl, hrest⟩ := h
        exact ⟨[], entries, rfl, lane_eq_nil.mp hrest⟩
      · rw [lane_singleton_of_ne hk, List.nil_append] at h
        obtain ⟨before, after, rfl, hothers⟩ := ih h
        refine ⟨(k, x) :: before, after, rfl, ?_⟩
        rw [List.cons_append, List.forall_mem_cons]
        exact ⟨hk, hothers⟩

end BackendLab.Support
