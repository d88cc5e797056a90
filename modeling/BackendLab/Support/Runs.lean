import Mathlib.Data.List.Chain
import Mathlib.Logic.Relation

/-!
# Runs

A run is a sequence of steps from a first state.  What holds at first and is kept
by every step holds in every state that a run reaches.

Where only some of the steps keep what is wanted, a run is taken with the states
it passes, as a chain.
-/

namespace BackendLab.Support

open Relation

variable {σ : Type*} {step : σ → σ → Prop} {I : σ → Prop} {s t : σ}

theorem invariant_of_run (hrun : ReflTransGen step s t) (hs : I s)
    (hstep : ∀ s t, I s → step s t → I t) : I t := by
  induction hrun with
  | refl => exact hs
  | tail _ hlast ih => exact hstep _ _ ih hlast

/-- If from every state short of the goal some steps lead to a lower rank, then
some steps lead to the goal. -/
theorem exists_run_to_goal {Goal : σ → Prop} (rank : σ → ℕ)
    (hlower : ∀ s, I s → ¬ Goal s →
      ∃ t, ReflTransGen step s t ∧ I t ∧ rank t < rank s) (hs : I s) :
    ∃ t, ReflTransGen step s t ∧ I t ∧ Goal t := by
  induction hn : rank s using Nat.strongRecOn generalizing s with
  | _ n ih =>
      by_cases hgoal : Goal s
      · exact ⟨s, .refl, hs, hgoal⟩
      · obtain ⟨t, hst, ht, hlt⟩ := hlower s hs hgoal
        rw [hn] at hlt
        obtain ⟨u, htu, hu, hgoal⟩ := ih (rank t) hlt ht rfl
        exact ⟨u, hst.trans htu, hu, hgoal⟩

section Chains

variable {careful : σ → σ → Prop} {Safe : σ → Prop}

/-- If a careful step keeps the invariant and any other step ends in a state that
is not safe, then the runs that pass safe states only are those whose steps are
all careful. -/
theorem safe_iff_careful (hsafe : ∀ s, I s → Safe s)
    (hkeep : ∀ s t, I s → step s t → careful s t → I t)
    (hbreak : ∀ s t, I s → step s t → ¬ careful s t → ¬ Safe t)
    {states : List σ} (hs : I s) (hrun : (s :: states).IsChain step) :
    (∀ t ∈ s :: states, Safe t) ↔ (s :: states).IsChain careful := by
  induction states generalizing s with
  | nil => simp [hsafe s hs]
  | cons t states ih =>
      rw [List.isChain_cons_cons] at hrun ⊢
      rw [List.forall_mem_cons]
      by_cases hcareful : careful s t
      · have ht : I t := hkeep s t hs hrun.1 hcareful
        rw [ih ht hrun.2]
        exact and_congr_left' (iff_of_true (hsafe s hs) hcareful)
      · have ht : ¬ Safe t := hbreak s t hs hrun.1 hcareful
        refine iff_of_false ?_ ?_
        · intro hall
          exact ht (hall.2 t List.mem_cons_self)
        · intro hall
          exact hcareful hall.1

/-- A length that grows only by a push, and then by one, stays within a bound if
and only if nothing is pushed at the bound. -/
theorem bounded_iff_no_push_at_bound {len : σ → ℕ} {bound : ℕ}
    {pushes : σ → σ → Prop} (hpush : ∀ s t, pushes s t → len t = len s + 1)
    (hstep : ∀ s t, step s t → pushes s t ∨ len t ≤ len s)
    {states : List σ} (hs : len s ≤ bound)
    (hrun : (s :: states).IsChain step) :
    (∀ t ∈ s :: states, len t ≤ bound) ↔
      (s :: states).IsChain fun s t => pushes s t → len s ≠ bound := by
  refine safe_iff_careful (I := fun s => len s ≤ bound) ?_ ?_ ?_ hs hrun
  · intro s hs
    exact hs
  · intro s t hs hlast hbelow
    rcases hstep s t hlast with hpushes | hle
    · rw [hpush s t hpushes]
      exact lt_of_le_of_ne hs (hbelow hpushes)
    · exact hle.trans hs
  · intro s t hs _ hat
    rw [Classical.not_imp, not_not] at hat
    rw [hpush s t hat.1, hat.2, not_le]
    exact Nat.lt_succ_self bound

end Chains

end BackendLab.Support
