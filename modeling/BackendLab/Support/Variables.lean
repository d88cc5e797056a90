import Mathlib.Data.Nat.Notation
import Mathlib.Logic.Function.Basic

/-!
# Variables with a lifetime

Each variable that a program constructs gets an address of its own, and has a
value until it is destroyed.
-/

namespace BackendLab.Support

/-- The values of the variables that are alive; those from `next` on have not
been constructed yet. -/
structure Variables (ν : Type*) where
  value : ℕ → Option ν
  next : ℕ
  fresh : ∀ c, next ≤ c → value c = none

namespace Variables

variable {ν : Type*} (s : Variables ν)

def empty : Variables ν := ⟨fun _ => none, 0, fun _ _ => rfl⟩

/-- A variable is constructed, at the address `next`. -/
def make (x : ν) : Variables ν where
  value := Function.update s.value s.next (some x)
  next := s.next + 1
  fresh := by
    intro c hc
    rw [Function.update_of_ne (by omega)]
    exact s.fresh c (by omega)

def destroy (c : ℕ) : Variables ν where
  value := Function.update s.value c none
  next := s.next
  fresh := by
    intro d hd
    by_cases hdc : d = c
    · rw [hdc, Function.update_self]
    · rw [Function.update_of_ne hdc]
      exact s.fresh d hd

/-- A variable that is alive gets another value. -/
def assign (c : ℕ) (x : ν) : Variables ν where
  value := fun d => if d = c then (s.value c).map fun _ => x else s.value d
  next := s.next
  fresh := by
    intro d hd
    split
    · next hdc =>
        rw [← hdc, s.fresh d hd]
        rfl
    · exact s.fresh d hd

variable {s} {c d : ℕ} {x : ν}

theorem lt_next (h : s.value c ≠ none) : c < s.next := by
  by_contra hle
  exact h (s.fresh c (Nat.not_lt.mp hle))

@[simp]
theorem next_make : (s.make x).next = s.next + 1 := rfl

@[simp]
theorem next_destroy : (s.destroy c).next = s.next := rfl

@[simp]
theorem next_assign : (s.assign c x).next = s.next := rfl

@[simp]
theorem value_make_next : (s.make x).value s.next = some x := by
  simp [make]

theorem value_make_of_ne (h : d ≠ s.next) :
    (s.make x).value d = s.value d := by
  simp [make, h]

theorem value_make_ne_none :
    (s.make x).value d ≠ none ↔ d = s.next ∨ s.value d ≠ none := by
  by_cases h : d = s.next
  · simp [h]
  · simp [value_make_of_ne h, h]

/-- What is alive stays as it is. -/
theorem value_make_of_alive (h : s.value d ≠ none) :
    (s.make x).value d = s.value d :=
  value_make_of_ne (Nat.ne_of_lt (lt_next h))

@[simp]
theorem value_destroy_self : (s.destroy c).value c = none := by
  simp [destroy]

theorem value_destroy_of_ne (h : d ≠ c) :
    (s.destroy c).value d = s.value d := by
  simp [destroy, h]

theorem value_destroy_ne_none :
    (s.destroy c).value d ≠ none ↔ s.value d ≠ none ∧ d ≠ c := by
  by_cases h : d = c
  · simp [h]
  · simp [value_destroy_of_ne h, h]

theorem value_assign_of_ne (h : d ≠ c) :
    (s.assign c x).value d = s.value d := by
  simp [assign, h]

theorem value_assign_ne_none :
    (s.assign c x).value d ≠ none ↔ s.value d ≠ none := by
  by_cases h : d = c
  · simp [assign, h]
  · rw [value_assign_of_ne h]

end Variables

end BackendLab.Support
