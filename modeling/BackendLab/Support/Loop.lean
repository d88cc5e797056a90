import Mathlib.Data.Nat.Notation
import Mathlib.Logic.Relation
import Mathlib.Tactic.TypeStar

/-!
# Loops with a rank, and loops fed in pieces

A `Loop` is one `while` statement: a body that either leaves with a result or
goes round again, together with a rank that every further round lowers.  The
rank is part of the data, so `Loop.run` is total and still evaluates by plain
recursion on a bound.

The last section treats loops whose state can be given more input between two
runs.  Nothing here depends on what the loop computes.
-/

namespace BackendLab.Support

open Relation

/-- A loop body with a rank that every further round lowers. -/
structure Loop (σ ρ : Type*) where
  step : σ → ρ ⊕ σ
  rank : σ → ℕ
  rank_lt : ∀ {s s'}, step s = .inr s' → rank s' < rank s

namespace Loop

variable {σ ρ : Type*} (L : Loop σ ρ)

/-- At most `fuel` rounds of the loop. -/
def runFor : ℕ → σ → Option ρ
  | 0, _ => none
  | fuel + 1, s =>
      match L.step s with
      | .inl r => some r
      | .inr s' => runFor fuel s'

theorem isSome_runFor {fuel : ℕ} {s : σ} (h : L.rank s < fuel) :
    (L.runFor fuel s).isSome := by
  induction fuel generalizing s with
  | zero => omega
  | succ fuel ih =>
      rw [runFor]
      cases hs : L.step s with
      | inl r => simp
      | inr s' =>
          have hlt := L.rank_lt hs
          exact ih (by omega)

/-- More fuel than the rank never changes the outcome. -/
theorem runFor_eq_of_rank_lt {m n : ℕ} {s : σ}
    (hm : L.rank s < m) (hn : L.rank s < n) :
    L.runFor m s = L.runFor n s := by
  induction m generalizing s n with
  | zero => omega
  | succ m ih =>
      obtain ⟨n, rfl⟩ : ∃ k, n = k + 1 := ⟨n - 1, by omega⟩
      rw [runFor, runFor]
      cases hs : L.step s with
      | inl r => rfl
      | inr s' =>
          have hlt := L.rank_lt hs
          exact ih (by omega) (by omega)

/-- The result with which the loop is left. -/
def run (s : σ) : ρ :=
  (L.runFor (L.rank s + 1) s).get (L.isSome_runFor (Nat.lt_succ_self _))

theorem runFor_eq_some_run {fuel : ℕ} {s : σ} (h : L.rank s < fuel) :
    L.runFor fuel s = some (L.run s) := by
  rw [run, Option.some_get]
  exact L.runFor_eq_of_rank_lt h (Nat.lt_succ_self _)

theorem run_of_exit {s : σ} {r : ρ} (h : L.step s = .inl r) :
    L.run s = r := by
  have hrun := L.runFor_eq_some_run (Nat.lt_succ_self (L.rank s))
  rw [runFor, h] at hrun
  exact (Option.some.inj hrun).symm

theorem run_of_round {s s' : σ} (h : L.step s = .inr s') :
    L.run s = L.run s' := by
  have hrun := L.runFor_eq_some_run (Nat.lt_succ_self (L.rank s))
  rw [runFor, h] at hrun
  exact Option.some.inj
    (hrun.symm.trans (L.runFor_eq_some_run (L.rank_lt h)))

/-- Induction along the rounds of the loop. -/
theorem round_induction {motive : σ → Prop}
    (h : ∀ s, (∀ s', L.step s = .inr s' → motive s') → motive s) (s : σ) :
    motive s := by
  induction hn : L.rank s using Nat.strongRecOn generalizing s with
  | _ n ih =>
      apply h
      intro s' hs'
      have hlt := L.rank_lt hs'
      exact ih (L.rank s') (by omega) s' rfl

/-- A property of states that every round keeps, and that gives `Q` of the
result when the loop is left, gives `Q` of the run. -/
theorem run_invariant (I : σ → Prop) (Q : ρ → Prop)
    (hround : ∀ s s', I s → L.step s = .inr s' → I s')
    (hexit : ∀ s r, I s → L.step s = .inl r → Q r) :
    ∀ s, I s → Q (L.run s) := by
  intro s
  induction s using L.round_induction with
  | h s ih =>
      intro hs
      cases hstep : L.step s with
      | inl r =>
          rw [L.run_of_exit hstep]
          exact hexit s r hs hstep
      | inr s' =>
          rw [L.run_of_round hstep]
          exact ih s' hstep (hround s s' hs hstep)

/-- The rounds of a run, up to the one in which the loop is left. -/
theorem exists_rounds (s : σ) :
    ∃ t, ReflTransGen (fun s t => L.step s = .inr t) s t ∧
      L.step t = .inl (L.run s) := by
  induction s using L.round_induction with
  | h s ih =>
      cases hstep : L.step s with
      | inl r => exact ⟨s, .refl, by rw [L.run_of_exit hstep, hstep]⟩
      | inr s' =>
          obtain ⟨t, hrounds, hexit⟩ := ih s' hstep
          rw [L.run_of_round hstep]
          exact ⟨t, hrounds.head hstep, hexit⟩

/-! ## Feeding a suspended loop -/

/-- If more input commutes with every round, and resuming a suspended run on
more input agrees with the last state of that run given the same input, then
the run may be interrupted: resuming it is running the whole thing at once. -/
theorem run_feed (I : σ → Prop) (feed : σ → σ) (suspends : ρ → σ → Prop)
    (hround : ∀ s s', I s → L.step s = .inr s' →
      (I s' ∧ L.step (feed s) = .inr (feed s')) ∨
        ∀ t, ¬ suspends (L.run s') t)
    (hexit : ∀ s r t, I s → L.step s = .inl r → suspends r t →
      L.run (feed t) = L.run (feed s)) :
    ∀ s t, I s → suspends (L.run s) t → L.run (feed t) = L.run (feed s) := by
  intro s
  induction s using L.round_induction with
  | h s ih =>
      intro t hs ht
      cases hstep : L.step s with
      | inl r =>
          rw [L.run_of_exit hstep] at ht
          exact hexit s r t hs hstep ht
      | inr s' =>
          rw [L.run_of_round hstep] at ht
          rcases hround s s' hs hstep with ⟨hs', hfeed⟩ | hnever
          · rw [ih s' hstep t hs' ht, L.run_of_round hfeed]
          · exact absurd ht (hnever t)

end Loop

end BackendLab.Support
