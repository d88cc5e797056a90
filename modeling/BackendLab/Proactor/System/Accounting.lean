import BackendLab.Proactor.System.Changes
import BackendLab.Proactor.System.Guarantees
import BackendLab.Support.Population

/-!
# Counting the connections

`m_user_count` goes up in `init` and down in `closeconn`.  The main loop looks
at it after every `accept`, but not at what `accept` has returned: a failed call
is counted as a connection and makes `users[-1]` of it, and a descriptor beyond
`MAX_FD` has no object at all.
-/

namespace BackendLab.Proactor

open Support Relation

variable {ω : Type*}

/-- The number of objects that hold an open connection. -/
def Server.openSlots (s : Server ω) : ℕ :=
  population id fun i : Fin maxFd => s.isOpen i

/-- The index into `users` that the main loop uses in a step. -/
def Label.index (s : Server ω) : Label ω → Option ℤ
  | .accept fd => if s.userCount < maxFd then some fd else none
  | .acceptFailed => if s.userCount < maxFd then some (-1) else none
  | .read fd _ | .append fd | .write fd _ | .closeconn fd => some fd
  | _ => none

/-- `accept` gives a descriptor for which there is an object, unless the
connection is refused, and the step writes into no object that is in use by
another connection. -/
def Accounted (s : Server ω) : Label ω → Prop
  | .accept fd => s.userCount < maxFd → fd < maxFd ∧ s.isOpen (fd + 1) = false
  | .acceptFailed => maxFd ≤ s.userCount
  | .write fd outcomes =>
      ∀ r, (s.users fd).write outcomes = some r →
        r.exit.inits (s.users fd).parser.linger → s.isOpen (fd + 1) = false
  | .process w _ =>
      ∀ fd, s.workers w = .holding fd → ¬ (s.users fd).StrayStore
  | _ => True

namespace Server

variable {s t u : Server ω}

/-- What holds in every state of a run whose steps are all accounted for. -/
structure Books (s : Server ω) : Prop where
  inv : s.Inv
  lt_maxFd : ∀ {fd}, s.isOpen fd = true → fd < maxFd
  count : s.userCount = s.openSlots

theorem update_fin (f : ℕ → Bool) {fd : ℕ} (hfd : fd < maxFd) (b : Bool) :
    (fun i : Fin maxFd => Function.update f fd b i) =
      Function.update (fun i : Fin maxFd => f i) ⟨fd, hfd⟩ b := by
  funext i
  by_cases hi : i = ⟨fd, hfd⟩
  · simp [hi]
  · have hne : (i : ℕ) ≠ fd := fun heq => hi (Fin.ext heq)
    simp [hi, hne]

theorem openSlots_opened {fd : ℕ} (hfd : fd < maxFd)
    (hfresh : s.isOpen fd = false)
    (hopen : t.isOpen = Function.update s.isOpen fd true) :
    t.openSlots = s.openSlots + 1 := by
  rw [openSlots, hopen, update_fin _ hfd]
  exact population_update_arrives hfresh rfl

theorem openSlots_closed {fd : ℕ} (hfd : fd < maxFd)
    (hheld : s.isOpen fd = true)
    (hopen : t.isOpen = Function.update s.isOpen fd false) :
    t.openSlots + 1 = s.openSlots := by
  rw [openSlots, hopen, update_fin _ hfd]
  exact population_update_leaves hheld rfl

theorem openSlots_congr (hopen : t.isOpen = s.isOpen) :
    t.openSlots = s.openSlots := by
  rw [openSlots, openSlots, hopen]

theorem books_start (users : ℕ → HttpConn) : (start users : Server ω).Books where
  inv := start_inv users
  lt_maxFd := by simp [start]
  count := by simp [start, openSlots, population]

theorem Books.overrun (h : t.Books) {i : ℕ} (hi : t.isOpen i = false) :
    (t.overrun i).Books :=
  ⟨h.inv.overrun hi, h.lt_maxFd, h.count⟩

theorem careful_of_accounted {l : Label ω} (hl : Accounted s l)
    (hne : ∀ fd, l ≠ .append fd) : Careful s l := by
  cases l with
  | accept fd => exact fun hroom => (hl hroom).2
  | acceptFailed => exact fun hroom => absurd hl (Int.not_le.mpr hroom)
  | append fd => exact absurd rfl (hne fd)
  | _ => exact hl

theorem Books.change (h : s.Books) {l : Label ω} (hinv : t.Inv)
    (hchange : Change s l t) (hl : Accounted s l) : t.Books := by
  have hkept : t.isOpen = s.isOpen → t.userCount = s.userCount → t.Books := by
    intro hopen hcount
    refine ⟨hinv, ?_, ?_⟩
    · rw [hopen]
      exact h.lt_maxFd
    · rw [hcount, h.count, openSlots_congr hopen]
  cases hchange with
  | none _ _ hopen hcount => exact hkept hopen hcount
  | read _ hopen hcount => exact hkept hopen hcount
  | write _ _ hopen hcount => exact hkept hopen hcount
  | process _ _ hopen hcount => exact hkept hopen hcount
  | @accept fd _ hroom hfresh _ hopen hcount =>
      obtain ⟨hfd, -⟩ := hl hroom
      refine ⟨hinv, ?_, ?_⟩
      · intro g hg
        rw [hopen] at hg
        by_cases hne : g = fd
        · rwa [hne]
        · exact h.lt_maxFd (by simpa [hne] using hg)
      · rw [hcount, h.count, openSlots_opened hfd hfresh hopen]
        push_cast
        rfl
  | acceptFailed hroom _ _ _ => exact absurd hl (Int.not_le.mpr hroom)
  | @closeconn fd _ hheld _ hopen hcount =>
      refine ⟨hinv, ?_, ?_⟩
      · intro g hg
        rw [hopen] at hg
        by_cases hne : g = fd
        · simp [hne] at hg
        · exact h.lt_maxFd (by simpa [hne] using hg)
      · have hslots := openSlots_closed (h.lt_maxFd hheld) hheld hopen
        rw [hcount, h.count]
        omega

theorem Books.slot_lt (h : s.Books) {fd : ℕ} (hmain : s.main.slot = some fd) :
    fd < maxFd :=
  h.lt_maxFd (h.inv.isOpen_of_slot hmain)

end Server

variable [DecidableEq ω]

/-- The steps of the program when `accept` may return any descriptor that is not
open.  With one for which there is no object, `init` writes behind the array,
and nothing is known of the objects. -/
inductive LoopStep : Server ω → Label ω → Server ω → Prop
  | step {s t : Server ω} {l : Label ω} (h : Step s l t) : LoopStep s l t
  | acceptBeyond {s : Server ω} {fd : ℕ} {users : ℕ → HttpConn}
      (hmain : s.main = .accepting) (hfresh : s.isOpen fd = false)
      (hfd : maxFd ≤ fd) (husers : maxFd ≤ s.userCount → users = s.users) :
      LoopStep s (.accept fd) { s.accept fd with users := users }

namespace Server

variable {s t u : Server ω}

theorem Books.step (h : s.Books) {l : Label ω} (hstep : LoopStep s l u)
    (hl : Accounted s l) : u.Books := by
  cases hstep with
  | step hstep =>
      obtain ⟨t, hmove, hstrays⟩ := hstep
      have ht := h.change (h.inv.move hmove) (h.inv.change hmove) hl
      by_cases hne : ∀ fd, l ≠ .append fd
      · rcases eq_or_overrun hmove hstrays (careful_of_accounted hl hne) with
          rfl | ⟨i, hi, rfl⟩
        · exact ht
        · exact ht.overrun hi
      · simp only [ne_eq, not_forall, not_not] at hne
        obtain ⟨fd, rfl⟩ := hne
        rwa [show u = t from hstrays]
  | @acceptBeyond fd users hmain hfresh hfd husers =>
      have hfull : maxFd ≤ s.userCount := by
        by_contra hroom
        have hlt := (hl (Int.not_le.mp hroom)).1
        omega
      have heq : s.accept fd = { s with main := .dispatching } := by
        rw [Server.accept, if_pos hfull]
      have hinv := (h.inv.accept hmain hfresh).inv
      rw [heq, husers hfull]
      rw [heq] at hinv
      exact ⟨hinv, h.lt_maxFd, h.count⟩

/-- A step that is accounted for uses an index inside the array. -/
theorem Books.index (h : s.Books) {l : Label ω} (hstep : LoopStep s l u)
    (hl : Accounted s l) {i : ℤ} (hi : i ∈ l.index s) : 0 ≤ i ∧ i < maxFd := by
  have hslot : ∀ {fd : ℕ}, s.main.slot = some fd → i ∈ some (fd : ℤ) →
      0 ≤ i ∧ i < maxFd := by
    intro fd hmain hfd
    obtain rfl := Option.mem_some_iff.mp hfd
    have hlt := h.slot_lt hmain
    omega
  cases l with
  | accept fd =>
      simp only [Label.index, Option.mem_def, Option.ite_none_right_eq_some,
        Option.some.injEq] at hi
      obtain ⟨hroom, rfl⟩ := hi
      have hlt := (hl hroom).1
      omega
  | acceptFailed =>
      rw [Label.index, if_neg (Int.not_lt.mpr hl)] at hi
      cases hi
  | read fd outcomes =>
      cases hstep with
      | step hstep =>
          obtain ⟨t, hmove, -⟩ := hstep
          cases hmove with
          | read hmain _ => exact hslot (by rw [hmain, MainThread.slot]) hi
  | append fd =>
      cases hstep with
      | step hstep =>
          obtain ⟨t, hmove, -⟩ := hstep
          cases hmove with
          | append hmain => exact hslot (by rw [hmain, MainThread.slot]) hi
  | write fd outcomes =>
      cases hstep with
      | step hstep =>
          obtain ⟨t, hmove, -⟩ := hstep
          cases hmove with
          | write hmain _ => exact hslot (by rw [hmain, MainThread.slot]) hi
  | closeconn fd =>
      cases hstep with
      | step hstep =>
          obtain ⟨t, hmove, -⟩ := hstep
          cases hmove with
          | closeconn hmain => exact hslot (by rw [hmain, MainThread.slot]) hi
  | _ => cases hi

/-- A failed `accept` that is not refused is counted as a connection. -/
theorem Books.acceptFailed (h : s.Books) (hroom : s.userCount < maxFd)
    (hstep : LoopStep s .acceptFailed u) : u.userCount ≠ u.openSlots := by
  cases hstep with
  | step hstep =>
      obtain ⟨t, hmove, hstrays⟩ := hstep
      cases hmove
      rw [Strays, if_neg (Int.not_le.mpr hroom)] at hstrays
      have heq : s.acceptFailed =
          { s with userCount := s.userCount + 1, main := .dispatching } := by
        rw [Server.acceptFailed, if_neg (Int.not_le.mpr hroom)]
      rw [hstrays, heq]
      change s.userCount + 1 ≠ s.openSlots
      rw [h.count]
      omega

/-- In a run whose steps are all accounted for, `m_user_count` is the number of
objects that hold an open connection, and the main loop stays inside the array.
An `accept` that is not refused and fails, or gives a descriptor without an
object, uses an index outside of it, and one that fails spoils the count. -/
theorem userCount_eq_openSlots (users : ℕ → HttpConn)
    (hrun : ReflTransGen (fun s t => ∃ l, LoopStep s l t ∧ Accounted s l)
      (Server.start users) s) :
    s.userCount = s.openSlots ∧
      (∀ l t, LoopStep s l t → Accounted s l →
        ∀ i ∈ l.index s, 0 ≤ i ∧ i < maxFd) ∧
      (∀ l : Label ω, s.userCount < maxFd →
        (l = .acceptFailed ∨ ∃ fd, maxFd ≤ fd ∧ l = .accept fd) →
          ∃ i ∈ l.index s, ¬ (0 ≤ i ∧ i < maxFd)) ∧
      ∀ t, s.userCount < maxFd → LoopStep s .acceptFailed t →
        t.userCount ≠ t.openSlots := by
  have hbooks : s.Books := by
    apply invariant_of_run hrun (books_start users)
    intro s t hs hstep
    obtain ⟨l, hstep, hl⟩ := hstep
    exact hs.step hstep hl
  refine ⟨hbooks.count, fun l t hstep hl i hi => hbooks.index hstep hl hi, ?_,
    fun t hroom hstep => hbooks.acceptFailed hroom hstep⟩
  rintro l hroom (rfl | ⟨fd, hfd, rfl⟩)
  · exact ⟨-1, by rw [Label.index, if_pos hroom, Option.mem_some_iff], by simp⟩
  · exact ⟨fd, by rw [Label.index, if_pos hroom, Option.mem_some_iff], by omega⟩

/-- The main thread has been told of a client and is about to call `accept`. -/
def arriving (users : ℕ → HttpConn) : Server ω :=
  { (start users).fetch [.listener] with batch := [], main := .accepting }

theorem start_reaches_arriving (users : ℕ → HttpConn) :
    ReflTransGen (fun s t => ∃ l, LoopStep s l t ∧ Accounted s l)
      (start users : Server ω) (arriving users) := by
  have hfetch : Move (start users : Server ω) (.fetch [.listener])
      ((start users).fetch [.listener]) :=
    .fetch rfl rfl (by decide) (by simp [Reports]) (by decide)
  have hdispatch : Move ((start users : Server ω).fetch [.listener]) .dispatch
      (arriving users) :=
    @Move.dispatch ω _ ((start users).fetch [.listener]) .listener [] rfl rfl
  exact (ReflTransGen.single
    ⟨_, .step ⟨_, hfetch, rfl⟩, trivial⟩).tail
    ⟨_, .step ⟨_, hdispatch, rfl⟩, trivial⟩

/-- One client, with the descriptor 5. -/
theorem userCount_eq_openSlots_one :
    ∃ s : Server (Fin 8), s.userCount = 1 ∧ s.openSlots = 1 := by
  let s : Server (Fin 8) := arriving fun _ => HttpConn.blank
  have haccept : Move s (.accept 5) (s.accept 5) :=
    .accept rfl rfl (by decide)
  have hstep : LoopStep s (.accept 5) ((s.accept 5).overrun 6) :=
    .step ⟨_, haccept, (if_neg (by decide)).symm⟩
  have hrun := (start_reaches_arriving fun _ => HttpConn.blank).tail
    ⟨.accept 5, hstep, fun _ => ⟨by decide, rfl⟩⟩
  have hcount := (userCount_eq_openSlots _ hrun).1
  have hone : ((s.accept 5).overrun 6).userCount = 1 := rfl
  rw [hone] at hcount
  exact ⟨_, hone, by exact_mod_cast hcount.symm⟩

/-- `accept` fails: `users[-1]` is initialised, and one connection is counted
where there is none. -/
theorem userCount_ne_openSlots :
    ∃ s t : Server (Fin 8),
      ReflTransGen (fun s t => ∃ l, LoopStep s l t)
        (start fun _ => HttpConn.blank) s ∧
      LoopStep s .acceptFailed t ∧
      Label.index s (.acceptFailed : Label (Fin 8)) = some (-1) ∧
      t.userCount = 1 ∧ t.openSlots = 0 := by
  have hrun := start_reaches_arriving (ω := Fin 8) fun _ => HttpConn.blank
  have hfails : Move (arriving fun _ => HttpConn.blank : Server (Fin 8))
      .acceptFailed (arriving fun _ => HttpConn.blank).acceptFailed :=
    .acceptFailed rfl
  refine ⟨_, _, ReflTransGen.mono ?_ _ _ hrun, .step ⟨_, hfails, rfl⟩, rfl, rfl,
    ?_⟩
  · rintro s t ⟨l, hstep, -⟩
    exact ⟨l, hstep⟩
  · change population id (fun _ : Fin maxFd => false) = 0
    simp [population]

end Server

end BackendLab.Proactor
