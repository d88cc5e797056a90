import Mathlib.Data.Nat.Notation
import Mathlib.Tactic.Common

/-!
# Structures in memory

Members of a structure are placed one after the other, each at the next
address that its alignment allows, and the size of the structure is rounded up
so that an array of structures keeps every member aligned.  Memory is a map
from addresses to bytes, and a region is a run of addresses.
-/

namespace BackendLab.Support

def alignUp (x a : ℕ) : ℕ :=
  (x + a - 1) / a * a

/-- The members of a structure in declaration order, with sizes and
alignments. -/
structure StructLayout (ι : Type*) where
  members : List ι
  size : ι → ℕ
  align : ι → ℕ

/-- The addresses from `start` on, `length` of them. -/
structure Region where
  start : ℕ
  length : ℕ
  deriving DecidableEq, Repr

def Region.Contains (r : Region) (a : ℕ) : Prop :=
  r.start ≤ a ∧ a < r.start + r.length

instance (r : Region) (a : ℕ) : Decidable (r.Contains a) :=
  inferInstanceAs (Decidable (_ ∧ _))

namespace StructLayout

variable {ι : Type*} (L : StructLayout ι)

/-- The offsets of the given members, placed from `pos` on. -/
def place (pos : ℕ) : List ι → List (ι × ℕ)
  | [] => []
  | m :: ms =>
      let start := alignUp pos (L.align m)
      (m, start) :: place (start + L.size m) ms

/-- The first address behind the given members, placed from `pos` on. -/
def finish (pos : ℕ) : List ι → ℕ
  | [] => pos
  | m :: ms => finish (alignUp pos (L.align m) + L.size m) ms

def sizeof : ℕ :=
  alignUp (L.finish 0 L.members) ((L.members.map L.align).foldr max 1)

def offset [DecidableEq ι] (m : ι) : ℕ :=
  ((L.place 0 L.members).lookup m).getD 0

/-- Element `i` of an array of the structure. -/
def element (i : ℕ) : Region :=
  ⟨i * L.sizeof, L.sizeof⟩

/-- Member `m` of element `i`. -/
def member [DecidableEq ι] (i : ℕ) (m : ι) : Region :=
  ⟨i * L.sizeof + L.offset m, L.size m⟩

end StructLayout

/-! ## Clearing memory -/

abbrev Memory := ℕ → UInt8

/-- All bytes of the region are zero. -/
def Memory.Zero (mem : Memory) (r : Region) : Prop :=
  ∀ a, r.Contains a → mem a = 0

/-- `bzero(p, n)`, the region being the `n` bytes from `p` on. -/
def bzero (mem : Memory) (r : Region) : Memory :=
  fun a => if r.Contains a then 0 else mem a

/-- Clear several regions, one after the other. -/
def bzeroAll (mem : Memory) (rs : List Region) : Memory :=
  rs.foldl bzero mem

/-- The address lies in one of the regions. -/
def Covers (rs : List Region) (a : ℕ) : Prop :=
  ∃ r ∈ rs, r.Contains a

theorem bzeroAll_of_eq_zero {mem : Memory} {rs : List Region} {a : ℕ}
    (h : mem a = 0) : bzeroAll mem rs a = 0 := by
  induction rs generalizing mem with
  | nil => exact h
  | cons r rs ih =>
      apply ih
      simp [bzero, h]

theorem bzeroAll_cons (mem : Memory) (r : Region) (rs : List Region) :
    bzeroAll mem (r :: rs) = bzeroAll (bzero mem r) rs :=
  rfl

theorem bzeroAll_of_covers {mem : Memory} {rs : List Region} {a : ℕ}
    (h : Covers rs a) : bzeroAll mem rs a = 0 := by
  induction rs generalizing mem with
  | nil =>
      obtain ⟨r, hr, -⟩ := h
      cases hr
  | cons r rs ih =>
      rw [bzeroAll_cons]
      by_cases hr : r.Contains a
      · have hzero : bzero mem r a = 0 := if_pos hr
        exact bzeroAll_of_eq_zero hzero
      · apply ih
        obtain ⟨r', hr', hin⟩ := h
        rcases List.mem_cons.mp hr' with rfl | hr'
        · exact absurd hin hr
        · exact ⟨r', hr', hin⟩

theorem bzeroAll_of_not_covers {mem : Memory} {rs : List Region} {a : ℕ}
    (h : ¬ Covers rs a) : bzeroAll mem rs a = mem a := by
  induction rs generalizing mem with
  | nil => rfl
  | cons r rs ih =>
      have hrest : ¬ Covers rs a := fun ⟨r', hr', hin⟩ =>
        h ⟨r', List.mem_cons_of_mem _ hr', hin⟩
      have hr : ¬ r.Contains a := fun hin => h ⟨r, List.mem_cons_self, hin⟩
      exact (ih hrest).trans (if_neg hr)

/-- A byte is left as it was exactly if it is not cleared, or was zero. -/
theorem bzeroAll_eq_iff {mem : Memory} {rs : List Region} {a : ℕ} :
    bzeroAll mem rs a = mem a ↔ (Covers rs a → mem a = 0) := by
  by_cases h : Covers rs a
  · rw [bzeroAll_of_covers h]
    constructor
    · intro h0 _
      exact h0.symm
    · intro h0
      exact (h0 h).symm
  · simp [bzeroAll_of_not_covers h, h]

end BackendLab.Support
