import BackendLab.Support.Runs
import Mathlib.Algebra.BigOperators.Group.Finset.Basic
import Mathlib.Algebra.Order.BigOperators.Group.Finset
import Mathlib.Data.Finset.SDiff

/-!
# A server on one thread

A server keeps a map of its sessions.  A session is put into the map when it is
accepted, and its handlers may take it out again.  All handlers run on one thread,
so that each of them is one step; they run in any order.

What the handlers keep of one session holds of every session of the server.
-/

namespace BackendLab.Support

open Relation

/-- The sessions in the map, those that have been accepted, those that have been
taken out of the map, and the states of the sessions. -/
structure Sessions (ι σ : Type*) where
  registered : Finset ι
  accepted : Finset ι
  cleared : Finset ι
  session : ι → σ

namespace Sessions

variable {ι σ : Type*}

def empty (first : ι → σ) : Sessions ι σ := ⟨∅, ∅, ∅, first⟩

variable [DecidableEq ι]

def accept (s : Sessions ι σ) (i : ι) : Sessions ι σ :=
  { s with registered := insert i s.registered, accepted := insert i s.accepted }

/-- A handler of the session has run. -/
def handle (s : Sessions ι σ) (i : ι) (clears : Bool) (x : σ) : Sessions ι σ :=
  { s with
    registered := if clears then s.registered.erase i else s.registered
    cleared := if clears then insert i s.cleared else s.cleared
    session := Function.update s.session i x }

@[simp] theorem session_handle_self (s : Sessions ι σ) (i : ι) (c : Bool) (x : σ) :
    (s.handle i c x).session i = x := by
  simp only [handle, Function.update_self]

theorem session_handle_of_ne (s : Sessions ι σ) {i k : ι} (h : k ≠ i) (c : Bool)
    (x : σ) : (s.handle i c x).session k = s.session k := by
  simp only [handle, Function.update_of_ne h]

/-- A handler of some session runs: `Handle` says what it does to the session, and
whether it takes it out of the map. -/
inductive Runs (Handle : σ → Bool → σ → Prop) : Sessions ι σ → Sessions ι σ → Prop
  | handle {s : Sessions ι σ} {i : ι} {clears : Bool} {x : σ}
      (haccepted : i ∈ s.accepted) (h : Handle (s.session i) clears x) :
      Runs Handle s (s.handle i clears x)

/-- A session is accepted, or a handler runs. -/
inductive Step (Handle : σ → Bool → σ → Prop) : Sessions ι σ → Sessions ι σ → Prop
  | accept {s : Sessions ι σ} {i : ι} (hfresh : i ∉ s.accepted) :
      Step Handle s (s.accept i)
  | runs {s t : Sessions ι σ} (h : Runs Handle s t) : Step Handle s t

def Reachable (Handle : σ → Bool → σ → Prop) (first : ι → σ) (s : Sessions ι σ) :
    Prop :=
  ReflTransGen (Step Handle) (.empty first) s

/-! ## One session, and all of them -/

/-- `Kept i cleared x` holds of the session `i` at first, and every handler keeps
it. -/
structure Keeps (Handle : σ → Bool → σ → Prop) (first : ι → σ)
    (Kept : ι → Bool → σ → Prop) : Prop where
  first : ∀ i, Kept i false (first i)
  handle : ∀ {i b x c y}, Kept i b x → Handle x c y → Kept i (b || c) y

/-- The map holds the sessions that have been accepted and not been taken out, and
what the handlers keep holds of all sessions. -/
structure Inv (first : ι → σ) (Kept : ι → Bool → σ → Prop) (s : Sessions ι σ) :
    Prop where
  registered : s.registered = s.accepted \ s.cleared
  cleared : s.cleared ⊆ s.accepted
  waiting : ∀ i ∉ s.accepted, s.session i = first i
  kept : ∀ i ∈ s.accepted, Kept i (decide (i ∈ s.cleared)) (s.session i)

variable {Handle : σ → Bool → σ → Prop} {first : ι → σ}
  {Kept : ι → Bool → σ → Prop} {s t : Sessions ι σ}

theorem Inv.accept (hkeeps : Keeps Handle first Kept) (h : Inv first Kept s) {i : ι}
    (hfresh : i ∉ s.accepted) : Inv first Kept (s.accept i) := by
  have hnot : i ∉ s.cleared := fun hi => hfresh (h.cleared hi)
  constructor
  · simp only [Sessions.accept]
    rw [h.registered, Finset.insert_sdiff_of_notMem _ hnot]
  · exact h.cleared.trans (Finset.subset_insert i s.accepted)
  · intro k hk
    exact h.waiting k fun hmem => hk (Finset.mem_insert_of_mem hmem)
  · intro k hk
    rcases Finset.mem_insert.mp hk with rfl | hk
    · have hfirst := hkeeps.first k
      rw [← h.waiting k hfresh] at hfirst
      simpa only [Sessions.accept, hnot, decide_false] using hfirst
    · exact h.kept k hk

theorem Inv.runs (hkeeps : Keeps Handle first Kept) (h : Inv first Kept s)
    (hruns : Runs Handle s t) : Inv first Kept t := by
  cases hruns with
  | @handle i clears x haccepted hhandle =>
      constructor
      · cases clears with
        | false => exact h.registered
        | true =>
            simp only [handle, if_true]
            rw [h.registered, Finset.sdiff_insert]
      · cases clears with
        | false => exact h.cleared
        | true => exact Finset.insert_subset haccepted h.cleared
      · intro k hk
        have hne : k ≠ i := by
          rintro rfl
          exact hk haccepted
        rw [session_handle_of_ne s hne]
        exact h.waiting k hk
      · intro k hk
        by_cases hki : k = i
        · subst hki
          have hkept := hkeeps.handle (h.kept k hk) hhandle
          rw [session_handle_self]
          cases clears with
          | false => simpa [handle] using hkept
          | true => simpa [handle] using hkept
        · have hmem : k ∈ (s.handle i clears x).cleared ↔ k ∈ s.cleared := by
            cases clears <;> simp [handle, hki]
          rw [decide_eq_decide.mpr hmem, session_handle_of_ne s hki]
          exact h.kept k hk

theorem Runs.accepted_eq (hruns : Runs Handle s t) : t.accepted = s.accepted := by
  cases hruns with
  | handle haccepted hhandle => rfl

theorem Reachable.inv (hkeeps : Keeps Handle first Kept)
    (h : Reachable Handle first s) : Inv first Kept s := by
  refine invariant_of_run h ?_ ?_
  · constructor <;> simp [empty]
  · intro s t hs hstep
    cases hstep with
    | accept hfresh => exact hs.accept hkeeps hfresh
    | runs hruns => exact hs.runs hkeeps hruns

theorem Inv.mem_registered_iff (h : Inv first Kept s) {i : ι} (hi : i ∈ s.accepted) :
    i ∈ s.registered ↔ i ∉ s.cleared := by
  rw [h.registered, Finset.mem_sdiff, and_iff_right hi]

/-! ## Sessions that come to their end -/

/-- Those that hold a session: the map, and the handlers of its outstanding
operations, of which there are `pending`. -/
def owners (pending : σ → ℕ) (s : Sessions ι σ) (i : ι) : ℕ :=
  (if i ∈ s.registered then 1 else 0) + pending (s.session i)

/-- If a session in the map has something outstanding, then nothing holds a session
that has nothing outstanding. -/
theorem Inv.owners_eq_zero_iff {pending : σ → ℕ}
    (hbusy : ∀ i x, Kept i false x → pending x ≠ 0) (h : Inv first Kept s) {i : ι}
    (hi : i ∈ s.accepted) :
    s.owners pending i = 0 ↔ pending (s.session i) = 0 := by
  rw [owners, Nat.add_eq_zero_iff]
  refine ⟨And.right, fun hpending => ⟨if_neg ?_, hpending⟩⟩
  intro hmem
  have hkept := h.kept i hi
  rw [decide_eq_false ((h.mem_registered_iff hi).mp hmem)] at hkept
  exact hbusy i _ hkept hpending

/-- If a session that is not at its end has a handler that brings it nearer to it,
then the handlers alone can bring all sessions to their ends. -/
theorem Inv.exists_run_to_end (hkeeps : Keeps Handle first Kept) (rank : σ → ℕ)
    (hlower : ∀ i b x, Kept i b x → rank x ≠ 0 →
      ∃ c y, Handle x c y ∧ rank y < rank x) (h : Inv first Kept s) :
    ∃ t, ReflTransGen (Runs Handle) s t ∧ Inv first Kept t ∧
      t.accepted = s.accepted ∧ ∀ i ∈ t.accepted, rank (t.session i) = 0 := by
  have hnearer : ∀ t : Sessions ι σ, Inv first Kept t ∧ t.accepted = s.accepted →
      (¬ ∀ i ∈ t.accepted, rank (t.session i) = 0) →
      ∃ u, ReflTransGen (Runs Handle) t u ∧
        (Inv first Kept u ∧ u.accepted = s.accepted) ∧
        ∑ i ∈ u.accepted, rank (u.session i) <
          ∑ i ∈ t.accepted, rank (t.session i) := by
    rintro t ⟨hinv, haccepted⟩ hnot
    simp only [not_forall] at hnot
    obtain ⟨i, hi, hrank⟩ := hnot
    obtain ⟨c, x, hhandle, hlt⟩ := hlower i _ _ (hinv.kept i hi) hrank
    have hruns : Runs Handle t (t.handle i c x) := .handle hi hhandle
    refine ⟨t.handle i c x, .single hruns, ⟨hinv.runs hkeeps hruns, haccepted⟩, ?_⟩
    apply Finset.sum_lt_sum
    · intro k _
      by_cases hk : k = i
      · subst hk
        rw [session_handle_self]
        exact hlt.le
      · rw [session_handle_of_ne t hk]
    · exact ⟨i, hi, by rwa [session_handle_self]⟩
  obtain ⟨t, hrun, ⟨hinv, haccepted⟩, hend⟩ :=
    exists_run_to_goal (fun t : Sessions ι σ => ∑ i ∈ t.accepted, rank (t.session i))
      hnearer ⟨h, rfl⟩
  exact ⟨t, hrun, hinv, haccepted, hend⟩

/-- In the end nothing holds any session, and the map is empty. -/
theorem Inv.exists_run_to_release (hkeeps : Keeps Handle first Kept)
    {pending : σ → ℕ} (hbusy : ∀ i x, Kept i false x → pending x ≠ 0)
    (hlower : ∀ i b x, Kept i b x → pending x ≠ 0 →
      ∃ c y, Handle x c y ∧ pending y < pending x) (h : Inv first Kept s) :
    ∃ t, ReflTransGen (Runs Handle) s t ∧ t.accepted = s.accepted ∧
      t.registered = ∅ ∧ ∀ i ∈ t.accepted, t.owners pending i = 0 := by
  obtain ⟨t, hrun, hinv, haccepted, hend⟩ := h.exists_run_to_end hkeeps pending hlower
  have hzero : ∀ i ∈ t.accepted, t.owners pending i = 0 := by
    intro i hi
    exact (hinv.owners_eq_zero_iff hbusy hi).mpr (hend i hi)
  refine ⟨t, hrun, haccepted, ?_, hzero⟩
  apply Finset.eq_empty_of_forall_notMem
  intro i hi
  have hmem : i ∈ t.accepted := by
    rw [hinv.registered] at hi
    exact (Finset.mem_sdiff.mp hi).1
  have howners := hzero i hmem
  rw [owners, if_pos hi, Nat.add_eq_zero_iff] at howners
  exact absurd howners.1 Nat.one_ne_zero

end Sessions

end BackendLab.Support
