import Mathlib.Data.Set.Insert

/-!
# Custody of items

Items are passed between holders.  A custody says which items exist and who
holds which.  It is exclusive when no item is held twice, and complete when
every item is held.  Passing items on, bringing a new item in and taking an
item out keep both; letting go of an item keeps only the first.
-/

namespace BackendLab.Support

@[ext]
structure Custody (π ι : Type*) where
  live : Set ι
  holds : π → ι → Prop

namespace Custody

variable {π ι : Type*} {c d : Custody π ι}

/-- Nothing is held twice, and only what exists is held. -/
structure Exclusive (c : Custody π ι) : Prop where
  unique : ∀ {p q x}, c.holds p x → c.holds q x → p = q
  live : ∀ {p x}, c.holds p x → x ∈ c.live

/-- Whatever exists is held. -/
def Complete (c : Custody π ι) : Prop :=
  ∀ x ∈ c.live, ∃ p, c.holds p x

/-- The items `xs`, each in someone's hands, are passed to `p`. -/
structure Passes (c d : Custody π ι) (xs : Set ι) (p : π) : Prop where
  live : d.live = c.live
  held : ∀ x ∈ xs, ∃ q, c.holds q x
  holds : ∀ q x, d.holds q x ↔ x ∈ xs ∧ q = p ∨ x ∉ xs ∧ c.holds q x

/-- A new item `x` comes into the hands of `p`. -/
structure Enters (c d : Custody π ι) (x : ι) (p : π) : Prop where
  live : d.live = insert x c.live
  fresh : x ∉ c.live
  holds : ∀ q y, d.holds q y ↔ y = x ∧ q = p ∨ c.holds q y

/-- The item `x` is given up, and no longer exists. -/
structure Leaves (c d : Custody π ι) (x : ι) : Prop where
  live : d.live = c.live \ {x}
  holds : ∀ q y, d.holds q y ↔ c.holds q y ∧ y ≠ x

/-- The item `x` is given up, and still exists. -/
structure Drops (c d : Custody π ι) (x : ι) : Prop where
  live : d.live = c.live
  holds : ∀ q y, d.holds q y ↔ c.holds q y ∧ y ≠ x

/-- A step in which no item is dropped. -/
inductive Transfer (c d : Custody π ι) : Prop
  | passes {xs : Set ι} {p : π} (h : c.Passes d xs p)
  | enters {x : ι} {p : π} (h : c.Enters d x p)
  | leaves {x : ι} (h : c.Leaves d x)

theorem Passes.refl (c : Custody π ι) (p : π) : c.Passes c ∅ p where
  live := rfl
  held := fun _ hx => hx.elim
  holds := by simp

/-- One item changes hands, and nothing else does. -/
theorem Passes.single {x : ι} {q p : π} (hlive : d.live = c.live)
    (hq : c.holds q x) (hp : ∀ r, d.holds r x ↔ r = p)
    (hrest : ∀ r y, y ≠ x → (d.holds r y ↔ c.holds r y)) :
    c.Passes d {x} p where
  live := hlive
  held := by
    rintro y rfl
    exact ⟨q, hq⟩
  holds := by
    intro r y
    by_cases hy : y = x
    · subst hy
      simp [hp]
    · simp [hy, hrest r y hy]

theorem Exclusive.of_holds_imp (hc : c.Exclusive) (hlive : d.live = c.live)
    (h : ∀ {p x}, d.holds p x → c.holds p x) : d.Exclusive where
  unique := fun hp hq => hc.unique (h hp) (h hq)
  live := fun hp => hlive ▸ hc.live (h hp)

theorem Exclusive.passes {xs : Set ι} {p : π} (hc : c.Exclusive)
    (h : c.Passes d xs p) : d.Exclusive := by
  constructor
  · intro q r x hq hr
    rw [h.holds] at hq hr
    rcases hq with ⟨hx, rfl⟩ | ⟨hx, hq⟩
    · rcases hr with ⟨-, rfl⟩ | ⟨hx', -⟩
      · rfl
      · exact absurd hx hx'
    · rcases hr with ⟨hx', -⟩ | ⟨-, hr⟩
      · exact absurd hx' hx
      · exact hc.unique hq hr
  · intro q x hq
    rw [h.live]
    rcases (h.holds q x).mp hq with ⟨hx, -⟩ | ⟨-, hq⟩
    · obtain ⟨r, hr⟩ := h.held x hx
      exact hc.live hr
    · exact hc.live hq

theorem Exclusive.enters {x : ι} {p : π} (hc : c.Exclusive)
    (h : c.Enters d x p) : d.Exclusive := by
  constructor
  · intro q r y hq hr
    rw [h.holds] at hq hr
    rcases hq with ⟨rfl, rfl⟩ | hq
    · rcases hr with ⟨-, rfl⟩ | hr
      · rfl
      · exact absurd (hc.live hr) h.fresh
    · rcases hr with ⟨rfl, rfl⟩ | hr
      · exact absurd (hc.live hq) h.fresh
      · exact hc.unique hq hr
  · intro q y hq
    rw [h.live]
    rcases (h.holds q y).mp hq with ⟨rfl, -⟩ | hq
    · exact Set.mem_insert _ _
    · exact Set.mem_insert_of_mem _ (hc.live hq)

theorem Exclusive.leaves {x : ι} (hc : c.Exclusive) (h : c.Leaves d x) :
    d.Exclusive := by
  constructor
  · intro q r y hq hr
    exact hc.unique ((h.holds q y).mp hq).1 ((h.holds r y).mp hr).1
  · intro q y hq
    obtain ⟨hq, hne⟩ := (h.holds q y).mp hq
    rw [h.live]
    exact ⟨hc.live hq, hne⟩

theorem Exclusive.drops {x : ι} (hc : c.Exclusive) (h : c.Drops d x) :
    d.Exclusive :=
  hc.of_holds_imp h.live fun hq => ((h.holds _ _).mp hq).1

theorem Exclusive.transfer (hc : c.Exclusive) (h : c.Transfer d) :
    d.Exclusive := by
  cases h with
  | passes h => exact hc.passes h
  | enters h => exact hc.enters h
  | leaves h => exact hc.leaves h

theorem Complete.transfer (hc : c.Complete) (h : c.Transfer d) :
    d.Complete := by
  intro y hy
  cases h with
  | @passes xs p h =>
      by_cases hx : y ∈ xs
      · exact ⟨p, (h.holds p y).mpr (Or.inl ⟨hx, rfl⟩)⟩
      · rw [h.live] at hy
        obtain ⟨q, hq⟩ := hc y hy
        exact ⟨q, (h.holds q y).mpr (Or.inr ⟨hx, hq⟩)⟩
  | @enters x p h =>
      rw [h.live] at hy
      rcases hy with rfl | hy
      · exact ⟨p, (h.holds p y).mpr (Or.inl ⟨rfl, rfl⟩)⟩
      · obtain ⟨q, hq⟩ := hc y hy
        exact ⟨q, (h.holds q y).mpr (Or.inr hq)⟩
  | @leaves x h =>
      rw [h.live] at hy
      obtain ⟨q, hq⟩ := hc y hy.1
      exact ⟨q, (h.holds q y).mpr ⟨hq, hy.2⟩⟩

end Custody

end BackendLab.Support
