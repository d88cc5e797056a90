import BackendLab.Proactor.System.Filling
import BackendLab.Proactor.System.Ownership
import BackendLab.Support.Runs

/-!
# What holds in every reachable state

The invariant of the ownership protocol, carried along whole runs.  Exclusive
ownership holds as long as every method stays inside its own object.  That no
open connection is forgotten needs more: a queue with room, and no `init()`
next to a connection in use.
-/

namespace BackendLab.Proactor

open Support Relation

variable {ω : Type*} [DecidableEq ω]

/-- The states of runs in which every method stays inside its own object. -/
def Reachable (s : Server ω) : Prop :=
  ∃ users, ReflTransGen (fun s t => ∃ l, Move s l t) (Server.start users) s

/-- The states of runs of the program as it is. -/
def Attainable (s : Server ω) : Prop :=
  ∃ users, ReflTransGen (fun s t => ∃ l, Step s l t) (Server.start users) s

/-- The states of runs whose steps all meet no defect. -/
def CarefullyAttainable (s : Server ω) : Prop :=
  ∃ users, ReflTransGen (fun s t => ∃ l, Step s l t ∧ Careful s l)
    (Server.start users) s

namespace Server

variable {s t u : Server ω}

theorem inv_of_reachable (h : Reachable s) : s.Inv := by
  obtain ⟨users, hrun⟩ := h
  apply invariant_of_run hrun (start_inv users)
  intro s t hs hstep
  obtain ⟨l, hmove⟩ := hstep
  exact hs.move hmove

/-! ## Exclusive ownership -/

/-- Only the thread that owns a connection acts on it. -/
theorem Inv.mainSlot_ne_of_owned (h : s.Inv) {fd : ℕ} (howned : s.Owned fd)
    {l : Label ω} (hmove : Move s l t) : l.mainSlot ≠ some fd := by
  have hmain := h.main_ne_of_owned howned
  obtain ⟨p, hp, -⟩ := at_of_owned howned
  intro hslot
  cases hmove with
  | @accept fd' _ hfresh _ =>
      obtain rfl := Option.some.inj hslot
      rw [h.isOpen_of_at hp] at hfresh
      cases hfresh
  | read hm | write hm | closeconn hm =>
      obtain rfl := Option.some.inj hslot
      exact hmain (by rw [hm, MainThread.slot])
  | _ => cases hslot

/-- A request that waits in the queue or is inside `process()` is there once,
its descriptor is disarmed, and the main thread does not touch it. -/
theorem owned_exclusively (h : Reachable s) :
    s.workqueue.Nodup ∧
      (∀ fd v w, (s.workers v).slot = some fd → (s.workers w).slot = some fd →
        v = w) ∧
      (∀ fd w, (s.workers w).slot = some fd → fd ∉ s.workqueue) ∧
      ∀ fd, s.Owned fd →
        s.armed fd = none ∧ s.main.slot ≠ some fd ∧
          ∀ l t, Move s l t → l.mainSlot ≠ some fd := by
  have hinv := inv_of_reachable h
  refine ⟨hinv.workqueue_nodup, ?_, ?_, ?_⟩
  · intro fd v w hv hw
    have heq := hinv.eq_of_at (p := .worker v) (q := .worker w) hv hw
    cases heq
    rfl
  · intro fd w hw
    exact hinv.not_at (p := .worker w) (q := .workqueue) hw (by simp)
  · intro fd howned
    have hmain := hinv.main_ne_of_owned howned
    obtain ⟨p, hp, hne, -⟩ := at_of_owned howned
    refine ⟨?_, hmain, fun l t hmove => hinv.mainSlot_ne_of_owned howned hmove⟩
    by_contra harmed
    refine hinv.not_at hp hne.symm ⟨harmed, ?_⟩
    intro hclosing
    exact hmain (by rw [hclosing, MainThread.slot])

theorem reachable_filled {k : ℕ} (hk : k ≤ maxRequestNum + 1) :
    Reachable (filled k : Server ω) := by
  refine ⟨_, ReflTransGen.mono ?_ _ _ (start_reaches_filled hk)⟩
  rintro s t ⟨l, hmove, -, -⟩
  exact ⟨l, hmove⟩

/-- Eight workers, and two requests in the queue. -/
theorem owned_exclusively_filled :
    (filled 2 : Server (Fin 8)).Owned 6 ∧
      (filled 2 : Server (Fin 8)).armed 6 = none := by
  have howned : (filled 2 : Server (Fin 8)).Owned 6 := Or.inl (by decide)
  exact ⟨howned,
    ((owned_exclusively (reachable_filled (by decide))).2.2.2 6 howned).1⟩

/-! ## No stranded connection -/

/-- A step that meets no defect differs from one inside the objects at most in
an object that is not in use. -/
theorem eq_or_overrun {l : Label ω} (hmove : Move s l t)
    (hstrays : Strays s t u l) (hcareful : Careful s l) :
    u = t ∨ ∃ i, t.isOpen i = false ∧ u = t.overrun i := by
  cases hmove with
  | @accept fd _ _ _ =>
      rw [Strays] at hstrays
      split at hstrays
      · exact Or.inl hstrays
      · next hcount =>
          refine Or.inr ⟨fd + 1, ?_, hstrays⟩
          rw [isOpen_accept]
          exact hcareful (Int.not_le.mp hcount)
  | acceptFailed _ =>
      rw [Strays] at hstrays
      split at hstrays
      · exact Or.inl hstrays
      · next hcount =>
          refine Or.inr ⟨0, ?_, hstrays⟩
          rw [isOpen_acceptFailed]
          exact hcareful (Int.not_le.mp hcount)
  | @write fd outcomes r _ hwrite =>
      obtain ⟨r', hr', hu⟩ := hstrays
      obtain rfl : r = r' := Option.some.inj (hwrite.symm.trans hr')
      split at hu
      · next hinits =>
          refine Or.inr ⟨fd + 1, ?_, hu⟩
          rw [isOpen_write]
          exact hcareful r hwrite hinits
      · exact Or.inl hu
  | process hw =>
      obtain ⟨fd, hfd, hu | ⟨hstray, -⟩⟩ := hstrays
      · exact Or.inl hu
      · exact absurd hstray (hcareful fd hfd)
  | _ => exact Or.inl hstrays

theorem Inv.step (h : s.Inv) {l : Label ω} (hstep : Step s l u)
    (hcareful : Careful s l) : s.custody.Transfer u.custody ∧ u.Inv := by
  obtain ⟨t, hmove, hstrays⟩ := hstep
  have hroom : ∀ fd, l = .append fd → s.workqueue.length ≤ maxRequestNum := by
    rintro fd rfl
    exact hcareful
  have hhand := h.handover_of_move hmove hroom
  rcases eq_or_overrun hmove hstrays hcareful with rfl | ⟨i, hi, rfl⟩
  · exact ⟨hhand.transfer, hhand.inv⟩
  · exact ⟨hhand.transfer, hhand.inv.overrun hi⟩

/-- In a run that meets no defect every open connection is armed in epoll, in
the hands of the main thread, in the work queue or inside `process()`. -/
theorem not_stranded (h : CarefullyAttainable s) {fd : ℕ}
    (hopen : s.isOpen fd = true) : ∃ p, s.At p fd := by
  obtain ⟨users, hrun⟩ := h
  have hstart : (start users : Server ω).custody.Complete := by
    intro fd hfd
    simp [custody, start] at hfd
  have hall : s.Inv ∧ s.custody.Complete := by
    refine invariant_of_run (I := fun s : Server ω => s.Inv ∧ s.custody.Complete)
      hrun ⟨start_inv users, hstart⟩ ?_
    intro s t hs hstep
    obtain ⟨l, hstep, hcareful⟩ := hstep
    obtain ⟨htransfer, hinv⟩ := hs.1.step hstep hcareful
    exact ⟨hinv, hs.2.transfer htransfer⟩
  exact hall.2 fd hopen

theorem not_stranded_filled :
    (filled 1 : Server (Fin 8)).isOpen 5 = true ∧
      ∃ p, (filled 1 : Server (Fin 8)).At p 5 := by
  have hreach : CarefullyAttainable (filled 1 : Server (Fin 8)) := by
    have hrun := start_reaches_filled (ω := Fin 8) (k := 1) (by decide)
    refine ⟨_, ReflTransGen.mono ?_ _ _ hrun⟩
    rintro s t ⟨l, -, hstep, hcareful⟩
    exact ⟨l, hstep, hcareful⟩
  exact ⟨by decide, not_stranded hreach (by decide)⟩

/-- With 10001 requests in the queue the next one is refused, and its
connection is left open, disarmed and in nobody's hands. -/
theorem stranded_when_full :
    ¬ ∀ s : Server (Fin 8), Attainable s →
      ∀ fd, s.isOpen fd = true → ∃ p, s.At p fd := by
  intro h
  have hrun : ReflTransGen Quiet
      (Server.start fun _ => HttpConn.blank : Server (Fin 8))
      (arrived (maxRequestNum + 1)) :=
    (start_reaches_filled (Nat.le_refl _)).trans (filled_arrives (by decide))
  have happend : Step (arrived (maxRequestNum + 1) : Server (Fin 8))
      (.append (firstFd + (maxRequestNum + 1)))
      ((arrived (maxRequestNum + 1)).append
        (firstFd + (maxRequestNum + 1))) := ⟨_, .append rfl, rfl⟩
  have hfull : maxRequestNum <
      (arrived (maxRequestNum + 1) : Server (Fin 8)).workqueue.length := by
    simp [arrived]
  have hattain : Attainable ((arrived (maxRequestNum + 1) : Server (Fin 8)).append
      (firstFd + (maxRequestNum + 1))) := by
    refine ⟨_, (ReflTransGen.mono ?_ _ _ hrun).tail ⟨_, happend⟩⟩
    rintro s t ⟨l, -, hstep, -⟩
    exact ⟨l, hstep⟩
  have hopen : ((arrived (maxRequestNum + 1) : Server (Fin 8)).append
      (firstFd + (maxRequestNum + 1))).isOpen
        (firstFd + (maxRequestNum + 1)) = true := by
    rw [Server.append, if_pos hfull]
    decide
  obtain ⟨p, hp⟩ := h _ hattain _ hopen
  rw [Server.append, if_pos hfull] at hp
  cases p with
  | epoll => exact hp.1 rfl
  | events => simp [At, arrived, filled, slots] at hp
  | main => simp [At, MainThread.slot] at hp
  | workqueue => simp [At, arrived] at hp
  | worker w => simp [At, arrived, filled, Worker.slot] at hp

end Server

end BackendLab.Proactor
