import Mathlib.Data.Int.CardIntervalMod
import Mathlib.Data.List.Count
import Mathlib.Data.Nat.Count
import Mathlib.Tactic.Common

/-!
# The pool of services

The class `AsioIOServicePool` of the server with a pool of threads and of the
server with coroutines.  `GetIOService` hands out the services one after the
other.  The two classes differ in their constructors: with `0` for the number of
services, which `hardware_concurrency` returns if it does not know better, only
the second one makes a service.
-/

namespace BackendLab.ServicePool

/-- The project that a pool belongs to. -/
inductive Project where
  | servicePool
  | coroutine
  deriving DecidableEq, Repr

/-- A pool: `_ioServices.size()` and `_nextIOService`. -/
structure AsioIOServicePool where
  ioServices : UInt64
  nextIOService : UInt64
  deriving DecidableEq, Repr

namespace AsioIOServicePool

/-- The constructors. -/
def make : Project → UInt64 → AsioIOServicePool
  | .servicePool, size => ⟨size, 0⟩
  | .coroutine, size => ⟨if size = 0 then 1 else size, 0⟩

/-- `GetIOService`, with the index of the service that it returns. -/
def getIOService (p : AsioIOServicePool) : UInt64 × AsioIOServicePool :=
  (p.nextIOService,
    if p.nextIOService + 1 = p.ioServices then { p with nextIOService := 0 }
    else { p with nextIOService := p.nextIOService + 1 })

/-- The indices of `k` calls, one after the other. -/
def returned (p : AsioIOServicePool) : ℕ → List UInt64
  | 0 => []
  | k + 1 => p.getIOService.1 :: p.getIOService.2.returned k

/-- Each of `k` calls stays within the vector, and no two services have been
returned by numbers of calls that differ by more than one. -/
structure Balanced (p : AsioIOServicePool) (k : ℕ) : Prop where
  bounds : ∀ i ∈ p.returned k, i < p.ioServices
  counts : ∀ i < p.ioServices, ∀ j < p.ioServices,
    (p.returned k).count i ≤ (p.returned k).count j + 1

/-! ## The services in turn -/

section Turns

variable {p : AsioIOServicePool}

theorem ioServices_getIOService :
    p.getIOService.2.ioServices = p.ioServices := by
  rw [getIOService]
  split <;> rfl

theorem toNat_nextIOService_getIOService
    (h : p.nextIOService < p.ioServices) :
    p.getIOService.2.nextIOService.toNat =
      (p.nextIOService.toNat + 1) % p.ioServices.toNat := by
  have hlt : p.nextIOService.toNat < p.ioServices.toNat := h
  have hbound := p.ioServices.toNat_lt
  have hnext : (p.nextIOService + 1).toNat = p.nextIOService.toNat + 1 := by
    rw [UInt64.toNat_add, UInt64.toNat_one]
    exact Nat.mod_eq_of_lt (by omega)
  by_cases hlast : p.nextIOService + 1 = p.ioServices
  · rw [← hnext, hlast, Nat.mod_self]
    simp [getIOService, hlast]
  · have hne : p.nextIOService.toNat + 1 ≠ p.ioServices.toNat := by
      rw [← hnext]
      exact fun heq => hlast (UInt64.toNat_inj.mp heq)
    rw [Nat.mod_eq_of_lt (by omega), ← hnext]
    simp [getIOService, hlast]

theorem nextIOService_getIOService_lt (h : p.nextIOService < p.ioServices) :
    p.getIOService.2.nextIOService < p.getIOService.2.ioServices := by
  rw [ioServices_getIOService, UInt64.lt_iff_toNat_lt,
    toNat_nextIOService_getIOService h]
  have hlt : p.nextIOService.toNat < p.ioServices.toNat := h
  exact Nat.mod_lt _ (Nat.zero_lt_of_lt hlt)

/-- The `j`-th call returns the service that is `j` places further on. -/
theorem map_toNat_returned (k : ℕ) (h : p.nextIOService < p.ioServices) :
    (p.returned k).map UInt64.toNat =
      (List.range k).map fun j =>
        (p.nextIOService.toNat + j) % p.ioServices.toNat := by
  induction k generalizing p with
  | zero => rfl
  | succ k ih =>
      have hlt : p.nextIOService.toNat < p.ioServices.toNat := h
      rw [returned, List.map_cons, ih (nextIOService_getIOService_lt h),
        List.range_succ_eq_map, List.map_cons, List.map_map]
      congr 1
      · exact (Nat.mod_eq_of_lt hlt).symm
      · apply List.map_congr_left
        intro j _
        rw [ioServices_getIOService, toNat_nextIOService_getIOService h,
          Nat.mod_add_mod, Function.comp_apply, Nat.succ_eq_add_one,
          Nat.add_assoc, Nat.add_comm 1 j]

/-- Every service is returned in each round through the pool, and those before the
next one once more. -/
theorem count_returned (k : ℕ) {i : UInt64} (hi : i < p.ioServices)
    (hnext : p.nextIOService = 0) :
    (p.returned k).count i =
      k / p.ioServices.toNat +
        if i.toNat < k % p.ioServices.toNat then 1 else 0 := by
  have hi' : i.toNat < p.ioServices.toNat := hi
  have hpos : 0 < p.ioServices.toNat := Nat.zero_lt_of_lt hi'
  have hfirst : p.nextIOService < p.ioServices := by
    rw [hnext]
    exact hpos
  have hmod : i.toNat % p.ioServices.toNat = i.toNat := Nat.mod_eq_of_lt hi'
  calc
    (p.returned k).count i =
        ((p.returned k).map UInt64.toNat).count i.toNat :=
      (List.count_map_of_injective _ _ (fun _ _ => UInt64.toNat_inj.mp) _).symm
    _ = k.count (· ≡ i.toNat [MOD p.ioServices.toNat]) := by
      rw [map_toNat_returned k hfirst, List.count, List.countP_map, Nat.count]
      apply List.countP_congr
      intro j _
      simp [hnext, Nat.ModEq, hmod]
    _ = k / p.ioServices.toNat +
        if i.toNat < k % p.ioServices.toNat then 1 else 0 := by
      rw [Nat.count_modEq_card k hpos, hmod]

theorem lt_of_mem_returned {k : ℕ} {i : UInt64}
    (h : p.nextIOService < p.ioServices) (hi : i ∈ p.returned k) :
    i < p.ioServices := by
  have hmem : i.toNat ∈ (p.returned k).map UInt64.toNat :=
    List.mem_map_of_mem hi
  rw [map_toNat_returned k h] at hmem
  obtain ⟨j, -, hj⟩ := List.mem_map.mp hmem
  rw [UInt64.lt_iff_toNat_lt, ← hj]
  exact Nat.mod_lt _ (Nat.zero_lt_of_lt (UInt64.lt_iff_toNat_lt.mp h))

end Turns

/-! ## Both pools -/

theorem nextIOService_make (project : Project) (size : UInt64) :
    (make project size).nextIOService = 0 := by
  cases project <;> rfl

theorem ioServices_make_pos {project : Project} {size : UInt64}
    (h : project = .coroutine ∨ size ≠ 0) :
    0 < (make project size).ioServices := by
  rcases h with rfl | hsize
  · rw [make]
    split
    · decide
    · next hsize => exact UInt64.pos_iff_ne_zero.mpr hsize
  · have hpos : 0 < size := UInt64.pos_iff_ne_zero.mpr hsize
    cases project with
    | servicePool => exact hpos
    | coroutine =>
        rw [make, if_neg hsize]
        exact hpos

/-- A pool that has a service is balanced after any number of calls. -/
theorem balanced_of_pos {p : AsioIOServicePool} (hpos : 0 < p.ioServices)
    (hnext : p.nextIOService = 0) (k : ℕ) : p.Balanced k := by
  constructor
  · intro i hi
    exact lt_of_mem_returned (hnext ▸ hpos) hi
  · intro i hi j hj
    rw [count_returned k hi hnext, count_returned k hj hnext]
    split <;> omega

/-- The first call to a pool without services leaves the vector. -/
theorem not_balanced_of_empty {p : AsioIOServicePool} (hempty : p.ioServices = 0)
    {k : ℕ} (hk : k ≠ 0) : ¬ p.Balanced k := by
  obtain ⟨k, rfl⟩ := Nat.exists_eq_succ_of_ne_zero hk
  intro hbalanced
  have hfirst := hbalanced.bounds p.nextIOService List.mem_cons_self
  rw [hempty] at hfirst
  exact UInt64.not_lt_zero hfirst

/-- Over any number of calls the services are used within bounds and evenly if and
only if the pool is that of the server with coroutines, or has been made with a
number of services other than `0`, or nothing is called. -/
theorem balanced_iff (project : Project) (size : UInt64) (k : ℕ) :
    (make project size).Balanced k ↔
      project = .coroutine ∨ size ≠ 0 ∨ k = 0 := by
  constructor
  · intro hbalanced
    by_contra hnone
    rw [not_or, not_or, not_not] at hnone
    obtain ⟨hproject, rfl, hk⟩ := hnone
    cases project with
    | servicePool => exact not_balanced_of_empty rfl hk hbalanced
    | coroutine => exact hproject rfl
  · rintro (hproject | hsize | rfl)
    · exact balanced_of_pos (ioServices_make_pos (.inl hproject))
        (nextIOService_make project size) k
    · exact balanced_of_pos (ioServices_make_pos (.inr hsize))
        (nextIOService_make project size) k
    · exact ⟨by simp [returned], by simp [returned]⟩

/-- On a machine that does not tell its number of cores, the server with a pool of
threads asks its empty vector for a service. -/
theorem first_call_out_of_bounds : ¬ (make .servicePool 0).Balanced 1 :=
  not_balanced_of_empty rfl one_ne_zero

end AsioIOServicePool

end BackendLab.ServicePool
