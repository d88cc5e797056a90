import BackendLab.Support.Custody
import BackendLab.Proactor.System.Server
import BackendLab.Proactor.Responses.Sending

/-!
# Who owns a connection

An open connection is armed in epoll, among the events that the main loop has
fetched, in the hands of the main thread, in the work queue, or inside
`process()` of a worker.  This file shows that it is never in two of these
places, for every interleaving of the threads.

Two further facts carry the argument.  While a request is awaited the write
buffer is empty, so that `process_write` does not fail and `process()` never
closes the connection; and `m_sockfd` of an open connection is its descriptor,
so that `modifyfd` and `removefd` act on the connection they are meant for.
-/

namespace BackendLab.Proactor

open Support

/-- The places at which an open connection can be. -/
inductive Place (ω : Type*) where
  | epoll
  | events
  | main
  | workqueue
  | worker (w : ω)

def MainThread.slot : MainThread → Option ℕ
  | .reading fd | .appending fd | .writing fd | .closing fd => some fd
  | .dispatching | .accepting | .posting => none

def Worker.slot : Worker → Option ℕ
  | .holding fd | .finishing fd _ => some fd
  | .idle | .awake => none

namespace Server

variable {ω : Type*} (s : Server ω)

/-- A connection that `write()` has armed again and that the main thread is
about to close is still in its hands. -/
def At : Place ω → ℕ → Prop
  | .epoll, fd => s.armed fd ≠ none ∧ s.main ≠ .closing fd
  | .events, fd => fd ∈ slots s.batch
  | .main, fd => s.main.slot = some fd
  | .workqueue, fd => fd ∈ s.workqueue
  | .worker w, fd => (s.workers w).slot = some fd

/-- The connection is at the place to receive or handle a request. -/
def Expects : Place ω → ℕ → Prop
  | .epoll, fd => s.armed fd = some .input ∧ s.main ≠ .closing fd
  | .events, fd => ∃ mask, .ready fd mask ∈ s.batch ∧ mask.input
  | .main, fd => s.main = .reading fd ∨ s.main = .appending fd
  | .workqueue, fd => fd ∈ s.workqueue
  | .worker w, fd =>
      s.workers w = .holding fd ∨ s.workers w = .finishing fd .waiting

def custody : Custody (Place ω) ℕ where
  live := {fd | s.isOpen fd}
  holds := s.At

structure Inv : Prop where
  exclusive : s.custody.Exclusive
  batch_nodup : (slots s.batch).Nodup
  batch_mask : ∀ {fd mask}, .ready fd mask ∈ s.batch →
    mask.hangup ∨ mask.input ∨ mask.output
  workqueue_nodup : s.workqueue.Nodup
  sockfd_eq : ∀ {fd}, s.isOpen fd → (s.users fd).sockfd = fd
  writeIdx_eq : ∀ {p fd}, s.Expects p fd → (s.users fd).writeIdx = 0
  not_closing : ∀ {w fd}, s.workers w ≠ .finishing fd .closing

variable {s} {t : Server ω}

theorem Inv.eq_of_at (h : s.Inv) {p q : Place ω} {fd : ℕ}
    (hp : s.At p fd) (hq : s.At q fd) : p = q :=
  h.exclusive.unique hp hq

theorem Inv.isOpen_of_at (h : s.Inv) {p : Place ω} {fd : ℕ}
    (hp : s.At p fd) : s.isOpen fd = true :=
  h.exclusive.live hp

theorem Inv.not_at (h : s.Inv) {p q : Place ω} {fd : ℕ} (hp : s.At p fd)
    (hne : q ≠ p) : ¬ s.At q fd :=
  fun hq => hne (h.eq_of_at hq hp)

theorem mem_slots {fd : ℕ} {events : List Event} :
    fd ∈ slots events ↔ ∃ mask, .ready fd mask ∈ events := by
  rw [slots, List.mem_filterMap]
  constructor
  · rintro ⟨e, he, hslot⟩
    cases e with
    | listener => cases hslot
    | ready fd' mask =>
        obtain rfl := Option.some.inj hslot
        exact ⟨mask, he⟩
  · rintro ⟨mask, hmem⟩
    exact ⟨_, hmem, rfl⟩

theorem at_of_expects {p : Place ω} {fd : ℕ} (h : s.Expects p fd) :
    s.At p fd := by
  cases p with
  | epoll => exact ⟨by simp [h.1], h.2⟩
  | events =>
      obtain ⟨mask, hmem, -⟩ := h
      exact mem_slots.mpr ⟨mask, hmem⟩
  | main => rcases h with h | h <;> simp [At, h, MainThread.slot]
  | workqueue => exact h
  | worker w => rcases h with h | h <;> simp [At, h, Worker.slot]

theorem start_inv (users : ℕ → HttpConn) : (start users : Server ω).Inv := by
  have hnone : ∀ p fd, ¬ (start users : Server ω).At p fd := by
    intro p fd
    cases p <;> simp [At, start, slots, MainThread.slot, Worker.slot]
  constructor
  · exact ⟨fun hp => absurd hp (hnone _ _), fun hp => absurd hp (hnone _ _)⟩
  · exact List.nodup_nil
  · simp [start]
  · exact List.nodup_nil
  · simp [start]
  · exact fun hp => absurd (at_of_expects hp) (hnone _ _)
  · simp [start]

/-! ## Steps that touch one connection -/

variable (s t) in
/-- A step from `s` to `t` leaves the connection `fd` alone. -/
structure Untouched (fd : ℕ) : Prop where
  users : t.users fd = s.users fd
  isOpen : t.isOpen fd = s.isOpen fd
  armed : t.armed fd = s.armed fd
  batch : ∀ mask, .ready fd mask ∈ t.batch ↔ .ready fd mask ∈ s.batch
  main : t.main = s.main ∨ t.main.slot ≠ some fd ∧ s.main.slot ≠ some fd
  workqueue : fd ∈ t.workqueue ↔ fd ∈ s.workqueue
  workers : ∀ w, t.workers w = s.workers w ∨
    (t.workers w).slot ≠ some fd ∧ (s.workers w).slot ≠ some fd

theorem Untouched.at_iff {fd : ℕ} (h : Untouched s t fd) (p : Place ω) :
    t.At p fd ↔ s.At p fd := by
  cases p with
  | epoll =>
      simp only [At, h.armed]
      rcases h.main with hmain | ⟨ht, hs⟩
      · rw [hmain]
      · have htc : t.main ≠ .closing fd := fun hc => ht (by simp [hc, MainThread.slot])
        have hsc : s.main ≠ .closing fd := fun hc => hs (by simp [hc, MainThread.slot])
        simp [htc, hsc]
  | events => simp only [At, mem_slots, h.batch]
  | main =>
      simp only [At]
      rcases h.main with hmain | ⟨ht, hs⟩
      · rw [hmain]
      · simp [ht, hs]
  | workqueue => exact h.workqueue
  | worker w =>
      simp only [At]
      rcases h.workers w with hw | ⟨ht, hs⟩
      · rw [hw]
      · simp [ht, hs]

theorem Untouched.expects {fd : ℕ} {p : Place ω} (h : Untouched s t fd)
    (hp : t.Expects p fd) : s.Expects p fd := by
  have hat := at_of_expects hp
  cases p with
  | epoll =>
      refine ⟨h.armed ▸ hp.1, ?_⟩
      exact ((h.at_iff .epoll).mp hat).2
  | events =>
      obtain ⟨mask, hmem, hinput⟩ := hp
      exact ⟨mask, (h.batch mask).mp hmem, hinput⟩
  | main =>
      rcases h.main with hmain | ⟨ht, -⟩
      · simpa only [Expects, hmain] using hp
      · exact absurd hat ht
  | workqueue => exact h.workqueue.mp hp
  | worker w =>
      rcases h.workers w with hw | ⟨ht, -⟩
      · simpa only [Expects, hw] using hp
      · exact absurd hat ht

/-- A step that takes the connection `fd` from `p` to `q`. -/
theorem Inv.passes_of (h : s.Inv) {p q : Place ω} {fd : ℕ}
    (hrest : ∀ g, g ≠ fd → Untouched s t g) (hopen : t.isOpen fd = s.isOpen fd)
    (hp : s.At p fd) (hq : t.At q fd)
    (hleft : ∀ r, r ≠ q → t.At r fd → r ≠ p ∧ s.At r fd) :
    s.custody.Passes t.custody {fd} q := by
  refine Custody.Passes.single (q := p) ?_ hp ?_ ?_
  · ext g
    by_cases hg : g = fd
    · simp [custody, hg, hopen]
    · simp [custody, (hrest g hg).isOpen]
  · intro r
    constructor
    · intro hr
      by_contra hne
      obtain ⟨hrp, hat⟩ := hleft r hne hr
      exact h.not_at hp hrp hat
    · rintro rfl
      exact hq
  · intro r g hg
    exact (hrest g hg).at_iff r

/-- A step that touches no connection. -/
theorem custody_eq (hall : ∀ fd, Untouched s t fd) : t.custody = s.custody := by
  ext p fd
  · simp [custody, (hall p).isOpen]
  · exact (hall fd).at_iff p

theorem passes_of_untouched (hall : ∀ fd, Untouched s t fd) (p : Place ω) :
    s.custody.Passes t.custody ∅ p := by
  rw [custody_eq hall]
  exact Custody.Passes.refl _ p

/-- The invariant after a step that touches only the connections `xs`. -/
theorem Inv.of_touched (h : s.Inv) {xs : Set ℕ}
    (hrest : ∀ fd, fd ∉ xs → Untouched s t fd)
    (hexclusive : t.custody.Exclusive) (hbatch : (slots t.batch).Nodup)
    (hmask : ∀ fd ∈ xs, ∀ mask, .ready fd mask ∈ t.batch →
      mask.hangup ∨ mask.input ∨ mask.output)
    (hqueue : t.workqueue.Nodup)
    (hsockfd : ∀ fd ∈ xs, t.isOpen fd → (t.users fd).sockfd = fd)
    (hwrite : ∀ fd ∈ xs, ∀ p, t.Expects p fd → (t.users fd).writeIdx = 0)
    (hclosing : ∀ fd ∈ xs, ∀ w, t.workers w ≠ .finishing fd .closing) :
    t.Inv where
  exclusive := hexclusive
  batch_nodup := hbatch
  batch_mask := by
    intro fd mask hmem
    by_cases hfd : fd ∈ xs
    · exact hmask fd hfd mask hmem
    · exact h.batch_mask (((hrest fd hfd).batch mask).mp hmem)
  workqueue_nodup := hqueue
  sockfd_eq := by
    intro fd hopen
    by_cases hfd : fd ∈ xs
    · exact hsockfd fd hfd hopen
    · rw [(hrest fd hfd).users]
      exact h.sockfd_eq ((hrest fd hfd).isOpen ▸ hopen)
  writeIdx_eq := by
    intro p fd hp
    by_cases hfd : fd ∈ xs
    · exact hwrite fd hfd p hp
    · rw [(hrest fd hfd).users]
      exact h.writeIdx_eq ((hrest fd hfd).expects hp)
  not_closing := by
    intro w fd hw
    by_cases hfd : fd ∈ xs
    · exact hclosing fd hfd w hw
    · rcases (hrest fd hfd).workers w with heq | ⟨ht, -⟩
      · exact h.not_closing (heq ▸ hw)
      · exact ht (by simp [hw, Worker.slot])

/-- The invariant after a step that passes the connections `xs` to `q`. -/
theorem Inv.of_passes (h : s.Inv) {q : Place ω} {xs : Set ℕ}
    (hpasses : s.custody.Passes t.custody xs q)
    (hrest : ∀ fd, fd ∉ xs → Untouched s t fd)
    (hbatch : (slots t.batch).Nodup)
    (hmask : ∀ fd ∈ xs, ∀ mask, .ready fd mask ∈ t.batch →
      mask.hangup ∨ mask.input ∨ mask.output)
    (hqueue : t.workqueue.Nodup)
    (hsockfd : ∀ fd ∈ xs, (t.users fd).sockfd = (s.users fd).sockfd)
    (hwrite : ∀ fd ∈ xs, t.Expects q fd → (t.users fd).writeIdx = 0)
    (hclosing : ∀ fd ∈ xs, ∀ w, t.workers w ≠ .finishing fd .closing) :
    t.Inv := by
  have hexclusive := h.exclusive.passes hpasses
  refine h.of_touched hrest hexclusive hbatch hmask hqueue ?_ ?_ hclosing
  · intro fd hfd hopen
    rw [hsockfd fd hfd]
    apply h.sockfd_eq
    have hmem : fd ∈ t.custody.live := hopen
    rwa [hpasses.live] at hmem
  · intro fd hfd p hp
    have hat : t.At q fd := (hpasses.holds q fd).mpr (Or.inl ⟨hfd, rfl⟩)
    obtain rfl := hexclusive.unique (at_of_expects hp) hat
    exact hwrite fd hfd hp

variable (s t) in
/-- A step from `s` to `t` in which every connection stays where it is or is
passed on, and after which the invariant holds again. -/
structure Handover : Prop where
  transfer : s.custody.Transfer t.custody
  inv : t.Inv

theorem Inv.handover (h : s.Inv) {p q : Place ω} {fd : ℕ}
    (hrest : ∀ g, g ≠ fd → Untouched s t g) (hopen : t.isOpen fd = s.isOpen fd)
    (hp : s.At p fd) (hq : t.At q fd)
    (hleft : ∀ r, r ≠ q → t.At r fd → r ≠ p ∧ s.At r fd)
    (hbatch : t.batch <:+ s.batch) (hqueue : t.workqueue.Nodup)
    (hsockfd : (t.users fd).sockfd = (s.users fd).sockfd)
    (hwrite : t.Expects q fd → (t.users fd).writeIdx = 0)
    (hclosing : ∀ w, t.workers w ≠ .finishing fd .closing) :
    s.Handover t := by
  have hpasses := h.passes_of hrest hopen hp hq hleft
  refine ⟨.passes hpasses, h.of_passes hpasses hrest ?_ ?_ hqueue ?_ ?_ ?_⟩
  · exact h.batch_nodup.sublist (hbatch.sublist.filterMap _)
  · exact fun g _ mask hmem => h.batch_mask (hbatch.subset hmem)
  · rintro g rfl
    exact hsockfd
  · rintro g rfl
    exact hwrite
  · rintro g rfl
    exact hclosing

theorem Inv.handover_of_untouched (h : s.Inv) (hall : ∀ fd, Untouched s t fd)
    (hbatch : t.batch <:+ s.batch) (hqueue : t.workqueue = s.workqueue) :
    s.Handover t := by
  have hpasses := passes_of_untouched hall .main
  refine ⟨.passes hpasses, h.of_passes hpasses (fun fd _ => hall fd) ?_ ?_ ?_
    ?_ ?_ ?_⟩
  · exact h.batch_nodup.sublist (hbatch.sublist.filterMap _)
  · exact fun fd _ mask hmem => h.batch_mask (hbatch.subset hmem)
  · rw [hqueue]
    exact h.workqueue_nodup
  all_goals exact fun fd hfd => hfd.elim

/-! ## The steps of the main thread -/

theorem at_epoll_of_reports {events : List Event} {fd : ℕ}
    (hmain : s.main = .dispatching) (hreports : ∀ e ∈ events, s.Reports e)
    (hfd : fd ∈ slots events) : s.At .epoll fd := by
  obtain ⟨mask, hmem⟩ := mem_slots.mp hfd
  obtain ⟨ev, harmed, -⟩ := hreports _ hmem
  simp [At, harmed, hmain]

theorem untouched_fetch {events : List Event} {fd : ℕ} (hbatch : s.batch = [])
    (hfd : fd ∉ slots events) : Untouched s (s.fetch events) fd where
  users := rfl
  isOpen := rfl
  armed := if_neg hfd
  batch := by
    intro mask
    have hnot : .ready fd mask ∉ events := fun h => hfd (mem_slots.mpr ⟨_, h⟩)
    simp [fetch, hnot, hbatch]
  main := Or.inl rfl
  workqueue := Iff.rfl
  workers := fun _ => Or.inl rfl

theorem Inv.passes_fetch (h : s.Inv) {events : List Event}
    (hmain : s.main = .dispatching) (hbatch : s.batch = [])
    (hreports : ∀ e ∈ events, s.Reports e) :
    s.custody.Passes (s.fetch events).custody {fd | fd ∈ slots events}
      .events where
  live := rfl
  held := fun fd hfd => ⟨.epoll, at_epoll_of_reports hmain hreports hfd⟩
  holds := by
    intro q fd
    by_cases hfd : fd ∈ slots events
    · have hat := at_epoll_of_reports hmain hreports hfd
      have hnot : ∀ q, q ≠ .epoll → ¬ s.At q fd := fun q hq => h.not_at hat hq
      cases q with
      | epoll => simp [custody, At, fetch, hfd]
      | events => simp [custody, At, fetch, hfd]
      | main => simpa [custody, At, fetch, hfd] using hnot .main (by simp)
      | workqueue =>
          simpa [custody, At, fetch, hfd] using hnot .workqueue (by simp)
      | worker w =>
          simpa [custody, At, fetch, hfd] using hnot (.worker w) (by simp)
    · have hiff := (untouched_fetch hbatch hfd).at_iff q
      simpa [custody, hfd] using hiff

theorem Inv.fetch (h : s.Inv) {events : List Event}
    (hmain : s.main = .dispatching) (hbatch : s.batch = [])
    (hreports : ∀ e ∈ events, s.Reports e) (honce : (slots events).Nodup) :
    s.Handover (s.fetch events) := by
  have hpasses := h.passes_fetch hmain hbatch hreports
  refine ⟨.passes hpasses, h.of_passes hpasses
    (fun fd hfd => untouched_fetch hbatch hfd) honce ?_ h.workqueue_nodup
    (fun _ _ => rfl) ?_ (fun fd _ w => h.not_closing)⟩
  · intro fd _ mask hmem
    obtain ⟨ev, -, -, -, hmask⟩ := hreports _ hmem
    exact hmask
  · rintro fd - ⟨mask, hmem, hinput⟩
    obtain ⟨ev, harmed, hev, -⟩ := hreports _ hmem
    rw [hev hinput] at harmed
    exact h.writeIdx_eq (p := .epoll) ⟨harmed, by simp [hmain]⟩

theorem slot_handler (fd : ℕ) {mask : EventMask}
    (h : mask.hangup ∨ mask.input ∨ mask.output) :
    (Event.ready fd mask).handler.slot = some fd := by
  rw [Event.handler]
  split
  · rfl
  · next hhangup =>
      split
      · rfl
      · next hinput =>
          have houtput : mask.output = true := by
            rcases h with h | h | h
            · exact absurd h hhangup
            · exact absurd h hinput
            · exact h
          rw [if_pos houtput, MainThread.slot]

theorem Inv.dispatch_ready (h : s.Inv) {fd : ℕ} {mask : EventMask}
    {rest : List Event} (hmain : s.main = .dispatching)
    (hbatch : s.batch = .ready fd mask :: rest) :
    s.Handover
      { s with batch := rest, main := (Event.ready fd mask).handler } := by
  have hmem : .ready fd mask ∈ s.batch := by simp [hbatch]
  have hslot := slot_handler fd (h.batch_mask hmem)
  have hat : s.At .events fd := mem_slots.mpr ⟨mask, hmem⟩
  have honce : fd ∉ slots rest := by
    have hnodup := h.batch_nodup
    rw [hbatch] at hnodup
    exact (List.nodup_cons.mp hnodup).1
  refine h.handover (p := .events) (q := .main) ?_ rfl hat hslot ?_ ?_
    h.workqueue_nodup rfl ?_ (fun _ => h.not_closing)
  · intro g hg
    have hslot' : (Event.ready fd mask).handler.slot ≠ some g := by
      rw [hslot]
      exact fun heq => hg (Option.some.inj heq).symm
    exact ⟨rfl, rfl, rfl, by simp [hbatch, hg],
      Or.inr ⟨hslot', by simp [hmain, MainThread.slot]⟩, Iff.rfl,
      fun _ => Or.inl rfl⟩
  · intro r hr hrfd
    cases r with
    | epoll => exact ⟨by simp, hrfd.1, by simp [hmain]⟩
    | events => exact absurd hrfd honce
    | main => exact absurd rfl hr
    | workqueue | worker w => exact ⟨by simp, hrfd⟩
  · rw [hbatch]
    exact List.suffix_cons _ _
  · -- the branch for `EPOLLIN` is taken only if input was asked for
    intro hexpects
    refine h.writeIdx_eq (p := .events) ⟨mask, hmem, ?_⟩
    by_contra hinput
    simp only [Expects, Event.handler, hinput] at hexpects
    split at hexpects <;> simp at hexpects
    split at hexpects <;> simp at hexpects

theorem Inv.dispatch (h : s.Inv) {e : Event} {rest : List Event}
    (hmain : s.main = .dispatching) (hbatch : s.batch = e :: rest) :
    s.Handover { s with batch := rest, main := e.handler } := by
  cases e with
  | ready fd mask => exact h.dispatch_ready hmain hbatch
  | listener =>
      refine h.handover_of_untouched ?_ ?_ rfl
      · intro fd
        exact ⟨rfl, rfl, rfl, by simp [hbatch],
          Or.inr ⟨by simp [Event.handler, MainThread.slot],
            by simp [hmain, MainThread.slot]⟩,
          Iff.rfl, fun _ => Or.inl rfl⟩
      · rw [hbatch]
        exact List.suffix_cons _ _

/-- Only where the main thread stands has changed, and neither place belongs
to a connection. -/
theorem Inv.handover_main (h : s.Inv) {m : MainThread}
    (hs : s.main.slot = none) (hm : m.slot = none) (n : ℤ) (k : ℕ) :
    s.Handover { s with main := m, userCount := n, queuestat := k } := by
  refine h.handover_of_untouched ?_ List.suffix_rfl rfl
  intro fd
  exact ⟨rfl, rfl, rfl, fun _ => Iff.rfl, Or.inr ⟨by simp [hm], by simp [hs]⟩,
    Iff.rfl, fun _ => Or.inl rfl⟩

theorem Inv.accept (h : s.Inv) {fd : ℕ} (hmain : s.main = .accepting)
    (hfresh : s.isOpen fd = false) : s.Handover (s.accept fd) := by
  have hslot : s.main.slot = none := by rw [hmain, MainThread.slot]
  rw [Server.accept]
  split
  · exact h.handover_main hslot rfl _ _
  · have hnot : ∀ p, ¬ s.At p fd := by
      intro p hp
      simp [h.isOpen_of_at hp] at hfresh
    set t : Server ω :=
      { s with
        users := Function.update s.users fd
          { (s.users fd).init with sockfd := fd }
        userCount := s.userCount + 1
        isOpen := Function.update s.isOpen fd true
        armed := Function.update s.armed fd (some .input)
        main := .dispatching } with ht
    have hrest : ∀ g, g ∉ ({fd} : Set ℕ) → Untouched s t g := by
      intro g hg
      have hne : g ≠ fd := hg
      exact ⟨by simp [ht, hne], by simp [ht, hne], by simp [ht, hne],
        fun _ => Iff.rfl, Or.inr ⟨by simp [ht, MainThread.slot], by simp [hslot]⟩,
        Iff.rfl, fun _ => Or.inl rfl⟩
    have henters : s.custody.Enters t.custody fd .epoll := by
      refine ⟨?_, by simp [custody, hfresh], ?_⟩
      · ext g
        by_cases hg : g = fd
        · simp [custody, ht, hg]
        · simp [custody, ht, hg]
      · intro q g
        by_cases hg : g = fd
        · subst hg
          have hq := hnot q
          cases q <;> simp_all [custody, At, MainThread.slot]
        · have hiff := (hrest g hg).at_iff q
          simpa [custody, hg] using hiff
    have hbatch : ∀ mask, .ready fd mask ∉ s.batch := fun mask hmem =>
      hnot .events (mem_slots.mpr ⟨mask, hmem⟩)
    refine ⟨.enters henters, h.of_touched hrest (h.exclusive.enters henters)
      h.batch_nodup ?_ h.workqueue_nodup ?_ ?_ ?_⟩
    · rintro g rfl mask hmem
      exact absurd hmem (hbatch mask)
    · rintro g rfl -
      simp [ht]
    · rintro g rfl p -
      simp [ht, HttpConn.init, HttpConn.blank]
    · rintro g rfl w
      exact h.not_closing

theorem Inv.acceptFailed (h : s.Inv) (hmain : s.main = .accepting) :
    s.Handover s.acceptFailed := by
  have hslot : s.main.slot = none := by rw [hmain, MainThread.slot]
  rw [Server.acceptFailed]
  split <;> exact h.handover_main hslot rfl _ _

theorem Inv.post (h : s.Inv) (hmain : s.main = .posting) :
    s.Handover s.post :=
  h.handover_main (by rw [hmain, MainThread.slot]) rfl _ _

theorem Inv.read (h : s.Inv) {fd : ℕ} (ok : Bool) (p : Parser)
    (hmain : s.main = .reading fd) : s.Handover (s.read fd ok p) := by
  have hslot : s.main.slot = some fd := by rw [hmain, MainThread.slot]
  have hslot' : (s.read fd ok p).main.slot = some fd := by
    cases ok <;> rfl
  refine h.handover (p := .main) (q := .main) ?_ rfl hslot hslot' ?_
    List.suffix_rfl h.workqueue_nodup ?_ ?_ (fun _ => h.not_closing)
  · intro g hg
    have hne : some fd ≠ some g := fun heq => hg (Option.some.inj heq).symm
    exact ⟨by simp [Server.read, hg], rfl, rfl, fun _ => Iff.rfl,
      Or.inr ⟨by rwa [hslot'], by rwa [hslot]⟩, Iff.rfl,
      fun _ => Or.inl rfl⟩
  · intro r hr hrfd
    cases r with
    | epoll => exact ⟨by simp, hrfd.1, by simp [hmain]⟩
    | main => exact absurd rfl hr
    | events | workqueue | worker w => exact ⟨by simp, hrfd⟩
  · simp [Server.read, HttpConn.withParser]
  · intro _
    simpa [Server.read, HttpConn.withParser] using
      h.writeIdx_eq (p := .main) (Or.inl hmain)

theorem Inv.append (h : s.Inv) {fd : ℕ} (hmain : s.main = .appending fd)
    (hroom : s.workqueue.length ≤ maxRequestNum) :
    s.Handover (s.append fd) := by
  have hslot : s.main.slot = some fd := by rw [hmain, MainThread.slot]
  have hnot : fd ∉ s.workqueue :=
    h.not_at (p := .main) (q := .workqueue) hslot (by simp)
  rw [Server.append, if_neg (Nat.not_lt.mpr hroom)]
  refine h.handover (p := .main) (q := .workqueue) ?_ rfl hslot
    (List.mem_append_right _ (List.mem_singleton_self fd)) ?_ List.suffix_rfl ?_ rfl
    ?_ (fun _ => h.not_closing)
  · intro g hg
    have hne : some fd ≠ some g := fun heq => hg (Option.some.inj heq).symm
    exact ⟨rfl, rfl, rfl, fun _ => Iff.rfl,
      Or.inr ⟨by simp [MainThread.slot], by rwa [hslot]⟩, by simp [hg],
      fun _ => Or.inl rfl⟩
  · intro r hr hrfd
    cases r with
    | epoll => exact ⟨by simp, hrfd.1, by simp [hmain]⟩
    | main => simp [At, MainThread.slot] at hrfd
    | workqueue => exact absurd rfl hr
    | events | worker w => exact ⟨by simp, hrfd⟩
  · refine List.nodup_append.mpr
      ⟨h.workqueue_nodup, List.pairwise_singleton _ fd, ?_⟩
    intro g hg fd' hfd'
    rw [List.mem_singleton.mp hfd']
    exact fun heq => hnot (heq ▸ hg)
  · intro _
    exact h.writeIdx_eq (p := .main) (Or.inr hmain)

/-- `append` finds the queue full: the main loop does not look at the result,
and lets go of the connection. -/
theorem Inv.append_refused (h : s.Inv) {fd : ℕ} (hmain : s.main = .appending fd)
    (hfull : maxRequestNum < s.workqueue.length) :
    s.custody.Drops (s.append fd).custody fd ∧ (s.append fd).Inv := by
  have hslot : s.main.slot = some fd := by rw [hmain, MainThread.slot]
  rw [Server.append, if_pos hfull]
  have hrest : ∀ g, g ∉ ({fd} : Set ℕ) →
      Untouched s { s with main := .dispatching } g := by
    intro g hg
    have hne : some fd ≠ some g := fun heq => hg (Option.some.inj heq).symm
    exact ⟨rfl, rfl, rfl, fun _ => Iff.rfl,
      Or.inr ⟨by simp [MainThread.slot], by rwa [hslot]⟩, Iff.rfl,
      fun _ => Or.inl rfl⟩
  have hnone : ∀ p, ¬ ({ s with main := .dispatching } : Server ω).At p fd := by
    intro p hp
    have hnot : p ≠ .main → ¬ s.At p fd := h.not_at (p := .main) hslot
    cases p <;> simp_all [At, MainThread.slot]
  have hdrops : s.custody.Drops
      ({ s with main := .dispatching } : Server ω).custody fd := by
    refine ⟨rfl, ?_⟩
    intro q g
    by_cases hg : g = fd
    · subst hg
      simpa [custody] using hnone q
    · have hiff := (hrest g hg).at_iff q
      simpa [custody, hg] using hiff
  refine ⟨hdrops, h.of_touched hrest (h.exclusive.drops hdrops) h.batch_nodup
    ?_ h.workqueue_nodup ?_ ?_ ?_⟩
  · exact fun g _ mask hmem => h.batch_mask hmem
  · exact fun g _ hopen => h.sockfd_eq hopen
  · rintro g rfl p hp
    exact absurd (at_of_expects hp) (hnone p)
  · exact fun g _ w => h.not_closing

/-- The exits of `write()`, and what they leave of the connection. -/
theorem write_exit {c : HttpConn} {outcomes : List HttpConn.WritevOutcome}
    {r : HttpConn.WriteResult} (hr : c.write outcomes = some r) :
    r.conn.sockfd = c.sockfd ∧
      (r.exit.rearms = some .input → r.exit.returns c.parser.linger →
        r.conn.writeIdx = 0) ∧
      (r.exit.rearms = none → r.exit.returns c.parser.linger = false) := by
  by_cases hidx : c.writeIdx = 0
  · rw [HttpConn.write, if_pos hidx] at hr
    split at hr
    · obtain rfl := Option.some.inj hr
      exact ⟨rfl, fun _ _ => rfl, fun h => by cases h⟩
    · cases hr
  · rcases HttpConn.write_cases hr (Nat.pos_of_ne_zero hidx) with
      ⟨hexit, hconn, -⟩ | ⟨hexit, hconn⟩ | ⟨hexit, hconn, -⟩
    · rw [hexit, hconn]
      exact ⟨rfl, fun h => (by cases h), fun h => by cases h⟩
    · rw [hexit, hconn]
      exact ⟨rfl, fun h => (by cases h), fun _ => rfl⟩
    · rw [hexit, hconn, HttpConn.finish]
      refine ⟨by split <;> rfl, ?_, fun h => by cases h⟩
      intro _ hreturns
      have hlinger : c.parser.linger = true := hreturns
      rw [if_pos hlinger]
      rfl

theorem modifyfd_of_isOpen {fd : ℕ} {ev : Interest}
    (hopen : s.isOpen fd = true) :
    s.modifyfd fd ev =
      { s with armed := Function.update s.armed fd (some ev) } := by
  simp [modifyfd, hopen]

/-- After `write()` the connection is armed again, and expects a request only
if its write buffer is empty, or else it is about to be closed. -/
theorem Inv.write_eq (h : s.Inv) {fd : ℕ}
    {outcomes : List HttpConn.WritevOutcome} {r : HttpConn.WriteResult}
    (hopen : s.isOpen fd = true)
    (hwrite : (s.users fd).write outcomes = some r) :
    ∃ armed main,
      s.write fd r =
        { s with
          users := Function.update s.users fd r.conn
          armed := armed
          main := main } ∧
      (∀ g, g ≠ fd → armed g = s.armed g) ∧
      (main = .closing fd ∨
        main = .dispatching ∧ armed fd ≠ none ∧
          (armed fd = some .input → r.conn.writeIdx = 0)) := by
  obtain ⟨-, hinput, hnone⟩ := write_exit hwrite
  rw [Server.write]
  cases hev : r.exit.rearms with
  | none =>
      refine ⟨s.armed, .closing fd, ?_, fun _ _ => rfl, Or.inl rfl⟩
      simp [hnone hev]
  | some ev =>
      refine ⟨Function.update s.armed fd (some ev),
        if r.exit.returns (s.users fd).parser.linger then .dispatching
        else .closing fd, ?_, ?_, ?_⟩
      · rw [h.sockfd_eq hopen]
        exact modifyfd_of_isOpen hopen
      · intro g hg
        simp [hg]
      · by_cases hreturns : r.exit.returns (s.users fd).parser.linger = true
        · refine Or.inr ⟨by simp [hreturns], by simp, ?_⟩
          intro harmed
          rw [Function.update_self] at harmed
          exact hinput (hev.trans harmed) hreturns
        · exact Or.inl (by simp [hreturns])

theorem Inv.write (h : s.Inv) {fd : ℕ} {outcomes : List HttpConn.WritevOutcome}
    {r : HttpConn.WriteResult} (hmain : s.main = .writing fd)
    (hwrite : (s.users fd).write outcomes = some r) :
    s.Handover (s.write fd r) := by
  have hslot : s.main.slot = some fd := by rw [hmain, MainThread.slot]
  have hopen : s.isOpen fd = true := h.isOpen_of_at (p := .main) hslot
  have hsockfd := (write_exit hwrite).1
  obtain ⟨armed, main, heq, harmed, hcase⟩ := h.write_eq hopen hwrite
  rw [heq]
  have hrest : ∀ g, g ≠ fd → Untouched s
      { s with
        users := Function.update s.users fd r.conn
        armed := armed
        main := main } g := by
    intro g hg
    have hne : some fd ≠ some g := fun heq => hg (Option.some.inj heq).symm
    have hslot' : main.slot ≠ some g := by
      rcases hcase with rfl | ⟨rfl, -⟩
      · exact hne
      · simp [MainThread.slot]
    exact ⟨by simp [hg], rfl, harmed g hg, fun _ => Iff.rfl,
      Or.inr ⟨hslot', by rwa [hslot]⟩, Iff.rfl, fun _ => Or.inl rfl⟩
  rcases hcase with rfl | ⟨rfl, hsome, hinput⟩
  · refine h.handover (p := .main) (q := .main) hrest rfl hslot rfl ?_
      List.suffix_rfl h.workqueue_nodup ?_ ?_ (fun _ => h.not_closing)
    · intro r' hr hrfd
      cases r' with
      | epoll => exact absurd rfl hrfd.2
      | main => exact absurd rfl hr
      | events | workqueue | worker w => exact ⟨by simp, hrfd⟩
    · simpa using hsockfd
    · intro hexpects
      simp [Expects] at hexpects
  · refine h.handover (p := .main) (q := .epoll) hrest rfl hslot
      ⟨hsome, by simp⟩ ?_ List.suffix_rfl h.workqueue_nodup ?_ ?_
      (fun _ => h.not_closing)
    · intro r' hr hrfd
      cases r' with
      | epoll => exact absurd rfl hr
      | main => simp [At, MainThread.slot] at hrfd
      | events | workqueue | worker w => exact ⟨by simp, hrfd⟩
    · simpa using hsockfd
    · intro hexpects
      simpa using hinput hexpects.1

theorem Inv.isOpen_of_slot (h : s.Inv) {fd : ℕ} (hmain : s.main.slot = some fd) :
    s.isOpen fd = true :=
  h.isOpen_of_at (p := .main) hmain

/-- `closeconn()` closes the connection it is called for. -/
theorem Inv.closeconn_eq (h : s.Inv) {fd : ℕ} (hmain : s.main = .closing fd) :
    s.closeconn fd =
      { s with
        users := Function.update s.users fd { s.users fd with sockfd := -1 }
        userCount := s.userCount - 1
        isOpen := Function.update s.isOpen fd false
        armed := Function.update s.armed fd none
        main := .dispatching } := by
  have hslot : s.main.slot = some fd := by rw [hmain, MainThread.slot]
  have hopen := h.isOpen_of_slot hslot
  have hne : (fd : ℤ) ≠ -1 := by omega
  simp [Server.closeconn, h.sockfd_eq hopen, hne, removefd]

theorem Inv.closeconn (h : s.Inv) {fd : ℕ} (hmain : s.main = .closing fd) :
    s.Handover (s.closeconn fd) := by
  have hslot : s.main.slot = some fd := by rw [hmain, MainThread.slot]
  have hopen : s.isOpen fd = true := h.isOpen_of_slot hslot
  rw [h.closeconn_eq hmain]
  set t : Server ω :=
    { s with
      users := Function.update s.users fd { s.users fd with sockfd := -1 }
      userCount := s.userCount - 1
      isOpen := Function.update s.isOpen fd false
      armed := Function.update s.armed fd none
      main := .dispatching } with ht
  have hrest : ∀ g, g ∉ ({fd} : Set ℕ) → Untouched s t g := by
    intro g hg
    have hg' : g ≠ fd := hg
    have hne : some fd ≠ some g := fun heq => hg' (Option.some.inj heq).symm
    exact ⟨by simp [ht, hg'], by simp [ht, hg'], by simp [ht, hg'],
      fun _ => Iff.rfl, Or.inr ⟨by simp [ht, MainThread.slot], by rwa [hslot]⟩,
      Iff.rfl, fun _ => Or.inl rfl⟩
  have hnone : ∀ p, ¬ t.At p fd := by
    intro p hp
    have hnot : p ≠ .main → ¬ s.At p fd := h.not_at (p := .main) hslot
    cases p <;> simp_all [At, MainThread.slot]
  have hleaves : s.custody.Leaves t.custody fd := by
    refine ⟨?_, ?_⟩
    · ext g
      by_cases hg : g = fd
      · simp [custody, ht, hg]
      · simp [custody, ht, hg]
    · intro q g
      by_cases hg : g = fd
      · subst hg
        simpa [custody] using hnone q
      · have hiff := (hrest g hg).at_iff q
        simpa [custody, hg] using hiff
  refine ⟨.leaves hleaves, h.of_touched hrest (h.exclusive.leaves hleaves)
    h.batch_nodup ?_ h.workqueue_nodup ?_ ?_ ?_⟩
  · exact fun g _ mask hmem => h.batch_mask hmem
  · rintro g rfl hopen'
    simp [ht] at hopen'
  · rintro g rfl p hp
    exact absurd (at_of_expects hp) (hnone p)
  · exact fun g _ w => h.not_closing

/-! ## Objects that are not in use -/

/-- Clearing the first bytes of an object that is not in use. -/
theorem Inv.overrun (h : t.Inv) {i : ℕ} (hi : t.isOpen i = false) :
    (t.overrun i).Inv := by
  have hnot : ∀ p, ¬ t.At p i := by
    intro p hp
    rw [h.isOpen_of_at hp] at hi
    cases hi
  have hrest : ∀ fd, fd ∉ ({i} : Set ℕ) → Untouched t (t.overrun i) fd := by
    intro fd hfd
    have hne : fd ≠ i := hfd
    exact ⟨by simp [Server.overrun, hne], rfl, rfl, fun _ => Iff.rfl,
      Or.inl rfl, Iff.rfl, fun _ => Or.inl rfl⟩
  refine h.of_touched hrest h.exclusive h.batch_nodup ?_ h.workqueue_nodup ?_
    ?_ ?_
  · exact fun fd _ mask hmem => h.batch_mask hmem
  · rintro fd rfl hopen
    have hclosed : (t.overrun fd).isOpen fd = false := hi
    rw [hclosed] at hopen
    cases hopen
  · rintro fd rfl p hp
    have hat : t.At p fd := at_of_expects (s := t) hp
    exact absurd hat (hnot p)
  · exact fun fd _ w => h.not_closing

theorem isOpen_accept (fd : ℕ) :
    (s.accept fd).isOpen (fd + 1) = s.isOpen (fd + 1) := by
  rw [Server.accept]
  split <;> simp

theorem isOpen_acceptFailed : s.acceptFailed.isOpen = s.isOpen := by
  rw [Server.acceptFailed]
  split <;> rfl

theorem isOpen_modifyfd (fd : ℤ) (ev : Interest) :
    (s.modifyfd fd ev).isOpen = s.isOpen := by
  rw [modifyfd]
  split <;> rfl

theorem isOpen_write (fd : ℕ) (r : HttpConn.WriteResult) :
    (s.write fd r).isOpen = s.isOpen := by
  rw [Server.write]
  cases r.exit.rearms with
  | none => rfl
  | some ev => exact isOpen_modifyfd _ _

/-! ## Owned requests -/

/-- The requests that wait in the queue or are inside `process()`. -/
def Owned (s : Server ω) (fd : ℕ) : Prop :=
  fd ∈ s.workqueue ∨ ∃ w, (s.workers w).slot = some fd

theorem at_of_owned {fd : ℕ} (h : s.Owned fd) :
    ∃ p, s.At p fd ∧ p ≠ .epoll ∧ p ≠ .main := by
  rcases h with hqueue | ⟨w, hw⟩
  · exact ⟨.workqueue, hqueue, by simp, by simp⟩
  · exact ⟨.worker w, hw, by simp, by simp⟩

theorem Inv.main_ne_of_owned (h : s.Inv) {fd : ℕ} (howned : s.Owned fd) :
    s.main.slot ≠ some fd := by
  obtain ⟨p, hp, -, hne⟩ := at_of_owned howned
  exact h.not_at hp hne.symm

/-! ## The steps of the workers -/

section Workers

variable [DecidableEq ω]

theorem workers_update {w : ω} {x : Worker} {fd : ℕ}
    (hs : (s.workers w).slot ≠ some fd) (hx : x.slot ≠ some fd) (v : ω) :
    Function.update s.workers w x v = s.workers v ∨
      (Function.update s.workers w x v).slot ≠ some fd ∧
        (s.workers v).slot ≠ some fd := by
  by_cases hv : v = w
  · subst hv
    rw [Function.update_self]
    exact Or.inr ⟨hx, hs⟩
  · exact Or.inl (Function.update_of_ne hv _ _)

/-- Only worker `w` moves, between two places that belong to no connection. -/
theorem Inv.handover_worker (h : s.Inv) {w : ω} {x : Worker}
    (hs : (s.workers w).slot = none) (hx : x.slot = none) (k : ℕ) :
    s.Handover
      { s with queuestat := k, workers := Function.update s.workers w x } := by
  refine h.handover_of_untouched ?_ List.suffix_rfl rfl
  intro fd
  exact ⟨rfl, rfl, rfl, fun _ => Iff.rfl, Or.inl rfl, Iff.rfl,
    workers_update (by simp [hs]) (by simp [hx])⟩

theorem Inv.wake (h : s.Inv) {w : ω} (hw : s.workers w = .idle) :
    s.Handover (s.wake w) :=
  h.handover_worker (by rw [hw, Worker.slot]) rfl _

theorem Inv.take (h : s.Inv) {w : ω} (hw : s.workers w = .awake) :
    s.Handover (s.take w) := by
  have hslot : (s.workers w).slot = none := by rw [hw, Worker.slot]
  rw [Server.take]
  split
  · exact h.handover_worker hslot rfl s.queuestat
  · next fd rest hqueue =>
    have hat : s.At .workqueue fd := by simp [At, hqueue]
    have honce := h.workqueue_nodup
    rw [hqueue, List.nodup_cons] at honce
    refine h.handover (p := .workqueue) (q := .worker w) ?_ rfl hat ?_ ?_
      List.suffix_rfl honce.2 rfl ?_ ?_
    · intro g hg
      have hne : some fd ≠ some g := fun heq => hg (Option.some.inj heq).symm
      exact ⟨rfl, rfl, rfl, fun _ => Iff.rfl, Or.inl rfl, by simp [hqueue, hg],
        workers_update (by simp [hslot]) hne⟩
    · simp [At, Worker.slot]
    · intro r hr hrfd
      cases r with
      | epoll | events | main => exact ⟨by simp, hrfd⟩
      | workqueue => exact absurd hrfd honce.1
      | worker v =>
          have hv : v ≠ w := fun heq => hr (by rw [heq])
          exact ⟨by simp, by simpa [At, hv] using hrfd⟩
    · intro _
      exact h.writeIdx_eq (p := .workqueue) hat
    · intro v
      by_cases hv : v = w
      · subst hv
        simp
      · simpa [hv] using h.not_closing

/-- With an empty write buffer, `process()` does not close the connection, and
the write buffer is still empty if it asks for more input. -/
theorem process_exit {c : HttpConn} (fs : FileSystem) (hidx : c.writeIdx = 0) :
    (c.process fs).1 ≠ .closing ∧ (c.process fs).2.sockfd = c.sockfd ∧
      ((c.process fs).1 = .waiting → (c.process fs).2.writeIdx = 0) := by
  by_cases hread : c.parser.readRequest.1 = .noRequest
  · have heq : c.parser.readRequest = (.noRequest, c.parser.readRequest.2) :=
      Prod.ext hread rfl
    rw [HttpConn.process_of_noRequest fs heq]
    exact ⟨by simp, rfl, fun _ => hidx⟩
  · obtain ⟨d, hd, -, hsockfd, -⟩ :=
      HttpConn.process_of_ne_noRequest fs hidx hread
    rw [hd]
    exact ⟨by simp, hsockfd, by simp⟩

/-- `process()` leaves the connection open. -/
theorem Inv.process_eq (h : s.Inv) {w : ω} {fd : ℕ} (fs : FileSystem)
    (hw : s.workers w = .holding fd) :
    s.process w fd fs =
      { s with
        users := Function.update s.users fd ((s.users fd).process fs).2
        workers := Function.update s.workers w
          (.finishing fd ((s.users fd).process fs).1) } := by
  obtain ⟨hexit, -, -⟩ :=
    process_exit fs (h.writeIdx_eq (p := .worker w) (Or.inl hw))
  simp [Server.process, hexit]

theorem Inv.process (h : s.Inv) {w : ω} {fd : ℕ} (fs : FileSystem)
    (hw : s.workers w = .holding fd) : s.Handover (s.process w fd fs) := by
  have hslot : (s.workers w).slot = some fd := by rw [hw, Worker.slot]
  obtain ⟨hexit, hsockfd, hwaiting⟩ :=
    process_exit fs (h.writeIdx_eq (p := .worker w) (Or.inl hw))
  rw [h.process_eq fs hw]
  refine h.handover (p := .worker w) (q := .worker w) ?_ rfl hslot ?_ ?_
    List.suffix_rfl h.workqueue_nodup ?_ ?_ ?_
  · intro g hg
    have hne : some fd ≠ some g := fun heq => hg (Option.some.inj heq).symm
    exact ⟨by simp [hg], rfl, rfl, fun _ => Iff.rfl, Or.inl rfl, Iff.rfl,
      workers_update (by rwa [hslot]) hne⟩
  · simp [At, Worker.slot]
  · intro r hr hrfd
    cases r with
    | epoll | events | main | workqueue => exact ⟨by simp, hrfd⟩
    | worker v =>
        have hv : v ≠ w := fun heq => hr (by rw [heq])
        exact ⟨by simpa using hv, by simpa [At, hv] using hrfd⟩
  · simpa using hsockfd
  · intro hexpects
    simpa using hwaiting (by simpa [Expects] using hexpects)
  · intro v
    by_cases hv : v = w
    · subst hv
      simpa using hexit
    · simpa [hv] using h.not_closing

theorem Inv.finish (h : s.Inv) {w : ω} {fd : ℕ} {exit : HttpConn.ProcessExit}
    (hw : s.workers w = .finishing fd exit) :
    s.Handover (s.finish w fd exit) := by
  have hslot : (s.workers w).slot = some fd := by rw [hw, Worker.slot]
  have hat : s.At (.worker w) fd := hslot
  have hopen : s.isOpen fd = true := h.isOpen_of_at hat
  have hmain : s.main ≠ .closing fd := by
    intro hclosing
    exact h.not_at hat (q := .main) (by simp)
      (by simp [At, hclosing, MainThread.slot])
  rw [Server.finish, h.sockfd_eq hopen, modifyfd_of_isOpen (by exact hopen)]
  refine h.handover (p := .worker w) (q := .epoll) ?_ rfl hat ?_ ?_
    List.suffix_rfl h.workqueue_nodup rfl ?_ ?_
  · intro g hg
    have hne : some fd ≠ some g := fun heq => hg (Option.some.inj heq).symm
    exact ⟨rfl, rfl, by simp [hg], fun _ => Iff.rfl, Or.inl rfl, Iff.rfl,
      workers_update (by rwa [hslot]) (by simp [Worker.slot])⟩
  · exact ⟨by simp, hmain⟩
  · intro r hr hrfd
    cases r with
    | epoll => exact absurd rfl hr
    | events | main | workqueue => exact ⟨by simp, hrfd⟩
    | worker v =>
        have hv : v ≠ w := by
          rintro rfl
          simp [At, Worker.slot] at hrfd
        exact ⟨by simpa using hv, by simpa [At, hv] using hrfd⟩
  · rintro ⟨harmed, -⟩
    have hwaiting : exit = .waiting := by
      cases exit <;> simp [HttpConn.ProcessExit.interest] at harmed ⊢
    subst hwaiting
    exact h.writeIdx_eq (p := .worker w) (Or.inr hw)
  · intro v
    by_cases hv : v = w
    · subst hv
      simp
    · simpa [hv] using h.not_closing

/-! ## All steps -/

theorem Inv.handover_of_move (h : s.Inv) {l : Label ω} (hmove : Move s l t)
    (hroom : ∀ fd, l = .append fd → s.workqueue.length ≤ maxRequestNum) :
    s.Handover t := by
  cases hmove with
  | fetch hmain hbatch _ hreports honce =>
      exact h.fetch hmain hbatch hreports honce
  | dispatch hmain hbatch => exact h.dispatch hmain hbatch
  | accept hmain hfresh _ => exact h.accept hmain hfresh
  | acceptFailed hmain => exact h.acceptFailed hmain
  | read hmain _ => exact h.read _ _ hmain
  | append hmain => exact h.append hmain (hroom _ rfl)
  | post hmain => exact h.post hmain
  | write hmain hwrite => exact h.write hmain hwrite
  | closeconn hmain => exact h.closeconn hmain
  | wake hw _ => exact h.wake hw
  | take hw => exact h.take hw
  | process hw => exact h.process _ hw
  | finish hw => exact h.finish hw

theorem Inv.move (h : s.Inv) {l : Label ω} (hmove : Move s l t) : t.Inv := by
  by_cases hroom : ∀ fd, l = .append fd → s.workqueue.length ≤ maxRequestNum
  · exact (h.handover_of_move hmove hroom).inv
  · simp only [not_forall, Nat.not_le] at hroom
    obtain ⟨fd, rfl, hfull⟩ := hroom
    cases hmove with
    | append hmain => exact (h.append_refused hmain hfull).2

end Workers

end Server

end BackendLab.Proactor
