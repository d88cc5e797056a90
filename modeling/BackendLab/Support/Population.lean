import Mathlib.Algebra.BigOperators.Group.Finset.Piecewise
import Mathlib.Data.Fintype.Basic

/-!
# Counting threads

The number of threads, out of finitely many, that stand at a place of a given
kind, and how it changes when one of them goes on.
-/

namespace BackendLab.Support

variable {ι π : Type*} [Fintype ι] {p : π → Bool} {f : ι → π} {i : ι} {x : π}

/-- The number of threads whose place is of the kind `p`. -/
def population (p : π → Bool) (f : ι → π) : ℕ :=
  ∑ i, (p (f i)).toNat

theorem exists_of_population_pos (h : 0 < population p f) :
    ∃ i, p (f i) = true := by
  obtain ⟨i, -, hi⟩ := Finset.exists_ne_zero_of_sum_ne_zero h.ne'
  refine ⟨i, ?_⟩
  by_contra hfalse
  rw [Bool.not_eq_true] at hfalse
  rw [hfalse] at hi
  exact hi rfl

variable [DecidableEq ι]

/-- A thread goes from `f i` to `x`. -/
theorem population_update :
    population p (Function.update f i x) + (p (f i)).toNat =
      population p f + (p x).toNat := by
  have hupdate : (fun j => (p (Function.update f i x j)).toNat) =
      Function.update (fun j => (p (f j)).toNat) i (p x).toNat := by
    funext j
    exact Function.apply_update (fun _ y => (p y).toNat) f i x j
  simp only [population]
  rw [hupdate, Finset.sum_update_of_mem (Finset.mem_univ i),
    Finset.sum_eq_add_sum_sdiff_singleton_of_mem (Finset.mem_univ i)
      fun j => (p (f j)).toNat]
  omega

theorem population_update_same (h : p x = p (f i)) :
    population p (Function.update f i x) = population p f := by
  have hcount := population_update (p := p) (f := f) (i := i) (x := x)
  rw [h] at hcount
  exact Nat.add_right_cancel hcount

/-- A thread arrives at a place of the kind. -/
theorem population_update_arrives (h : p (f i) = false) (hx : p x = true) :
    population p (Function.update f i x) = population p f + 1 := by
  have hcount := population_update (p := p) (f := f) (i := i) (x := x)
  rw [h, hx] at hcount
  exact hcount

/-- A thread leaves a place of the kind. -/
theorem population_update_leaves (h : p (f i) = true) (hx : p x = false) :
    population p (Function.update f i x) + 1 = population p f := by
  have hcount := population_update (p := p) (f := f) (i := i) (x := x)
  rw [h, hx] at hcount
  exact hcount

/-! ## Threads with weights -/

/-- What all threads together weigh. -/
def load (weight : π → ℕ) (f : ι → π) : ℕ :=
  ∑ i, weight (f i)

theorem load_update (weight : π → ℕ) :
    load weight (Function.update f i x) + weight (f i) =
      load weight f + weight x := by
  have hupdate : (fun j => weight (Function.update f i x j)) =
      Function.update (fun j => weight (f j)) i (weight x) := by
    funext j
    exact Function.apply_update (fun _ y => weight y) f i x j
  simp only [load]
  rw [hupdate, Finset.sum_update_of_mem (Finset.mem_univ i),
    Finset.sum_eq_add_sum_sdiff_singleton_of_mem (Finset.mem_univ i)
      fun j => weight (f j)]
  omega

end BackendLab.Support
