import BackendLab.Proactor.System.Guarantees
import BackendLab.Support.Population

/-!
# The server comes to rest

Between two calls of `epoll_wait` the main thread and the workers have only so much
to do, in whatever order they do it.  When nobody has anything left to do, no
request is left behind: the queue is empty, no worker has a request, and every open
connection is armed in epoll.
-/

namespace BackendLab.Proactor

open Support Relation

variable {ω : Type*}

/-- What is still to be done: the events that have been fetched, the places of the
threads, the work queue and the tokens of its semaphore. -/
structure Agenda (ω : Type*) where
  batch : List Event
  main : MainThread
  workqueue : List ℕ
  queuestat : ℕ
  workers : ω → Worker

def Server.agenda (s : Server ω) : Agenda ω :=
  ⟨s.batch, s.main, s.workqueue, s.queuestat, s.workers⟩

/-- What the main thread has before it in its branch. -/
def MainThread.rank : MainThread → ℕ
  | .dispatching => 0
  | .accepting | .closing _ => 1
  | .writing _ => 2
  | .posting => 3
  | .appending _ => 7
  | .reading _ => 8

def MainThread.isPosting : MainThread → Bool
  | .posting => true
  | _ => false

def Worker.rank : Worker → ℕ
  | .idle => 0
  | .awake => 1
  | .finishing _ _ => 2
  | .holding _ => 3

def Worker.isAwake : Worker → Bool
  | .awake => true
  | _ => false

variable [DecidableEq ω]

/-- How a step other than `epoll_wait` gets on with what is to be done. -/
inductive Advance (a : Agenda ω) : Agenda ω → Prop
  | dispatch {e : Event} {rest : List Event} (hmain : a.main = .dispatching)
      (hbatch : a.batch = e :: rest) :
      Advance a { a with batch := rest, main := e.handler }
  | main {m : MainThread} (hrank : m.rank < a.main.rank)
      (hbefore : a.main.isPosting = false) (hafter : m.isPosting = false) :
      Advance a { a with main := m }
  | append {fd : ℕ} (hmain : a.main = .appending fd) :
      Advance a { a with workqueue := a.workqueue ++ [fd], main := .posting }
  | post (hmain : a.main = .posting) :
      Advance a { a with queuestat := a.queuestat + 1, main := .dispatching }
  | wake {w : ω} (hw : a.workers w = .idle) (hpermit : 0 < a.queuestat) :
      Advance a
        { a with
          queuestat := a.queuestat - 1
          workers := Function.update a.workers w .awake }
  | takeNone {w : ω} (hw : a.workers w = .awake) (hqueue : a.workqueue = []) :
      Advance a { a with workers := Function.update a.workers w .idle }
  | take {w : ω} {fd : ℕ} {rest : List ℕ} (hw : a.workers w = .awake)
      (hqueue : a.workqueue = fd :: rest) :
      Advance a
        { a with
          workqueue := rest
          workers := Function.update a.workers w (.holding fd) }
  | process {w : ω} {fd : ℕ} {exit : HttpConn.ProcessExit}
      (hw : a.workers w = .holding fd) :
      Advance a { a with workers := Function.update a.workers w (.finishing fd exit) }
  | finish {w : ω} {fd : ℕ} {exit : HttpConn.ProcessExit}
      (hw : a.workers w = .finishing fd exit) :
      Advance a { a with workers := Function.update a.workers w .idle }

/-- A branch is left, and no request is to be posted. -/
theorem Advance.leave {a : Agenda ω} {m : MainThread} (hmain : a.main = m)
    (hrank : 0 < m.rank) (hposting : m.isPosting = false) :
    Advance a { a with main := .dispatching } := by
  subst hmain
  exact .main hrank hposting rfl

namespace Server

variable {s t u : Server ω}

omit [DecidableEq ω] in
theorem agenda_modifyfd (s : Server ω) (fd : ℤ) (ev : Interest) :
    (s.modifyfd fd ev).agenda = s.agenda := by
  rw [modifyfd]
  split <;> rfl

omit [DecidableEq ω] in
theorem agenda_write (s : Server ω) (fd : ℕ) (r : HttpConn.WriteResult) :
    (s.write fd r).agenda = { s.agenda with
      main := if r.exit.returns (s.users fd).parser.linger then .dispatching
        else .closing fd } := by
  rw [Server.write]
  cases r.exit.rearms with
  | none => rfl
  | some ev => exact agenda_modifyfd _ _ _

theorem agenda_process (s : Server ω) (w : ω) (fd : ℕ) (fs : FileSystem) :
    (s.process w fd fs).agenda = { s.agenda with
      workers := Function.update s.workers w
        (.finishing fd ((s.users fd).process fs).1) } := by
  simp only [Server.process]
  split
  · rw [removefd]
    split <;> rfl
  · rfl

theorem advance_of_move {l : Label ω} (hmove : Move s l t)
    (hl : ∀ events, l ≠ .fetch events) : Advance s.agenda t.agenda := by
  cases hmove with
  | fetch _ _ _ _ _ => exact absurd rfl (hl _)
  | dispatch hmain hbatch => exact .dispatch hmain hbatch
  | @accept fd hmain _ _ =>
      have heq : (s.accept fd).agenda = { s.agenda with main := .dispatching } := by
        rw [Server.accept]
        split <;> rfl
      rw [heq]
      exact .leave hmain Nat.one_pos rfl
  | acceptFailed hmain =>
      have heq : s.acceptFailed.agenda = { s.agenda with main := .dispatching } := by
        rw [Server.acceptFailed]
        split <;> rfl
      rw [heq]
      exact .leave hmain Nat.one_pos rfl
  | @read fd outcomes ok p hmain _ =>
      have hmain' : s.agenda.main = .reading fd := hmain
      exact .main (m := if ok then .appending fd else .closing fd)
        (by cases ok <;> simp [hmain', MainThread.rank])
        (by simp [hmain', MainThread.isPosting])
        (by cases ok <;> simp [MainThread.isPosting])
  | @append fd hmain =>
      rw [Server.append]
      split
      · exact .leave hmain (Nat.succ_pos _) rfl
      · exact .append hmain
  | post hmain => exact .post hmain
  | @write fd outcomes r hmain _ =>
      have hmain' : s.agenda.main = .writing fd := hmain
      rw [agenda_write]
      refine .main ?_ (by simp [hmain', MainThread.isPosting]) ?_
      · split <;> simp [hmain', MainThread.rank]
      · split <;> rfl
  | @closeconn fd hmain =>
      have heq : (s.closeconn fd).agenda = { s.agenda with main := .dispatching } := by
        rw [Server.closeconn, removefd]
        split_ifs <;> rfl
      rw [heq]
      exact .leave hmain Nat.one_pos rfl
  | wake hw hpermit => exact .wake hw hpermit
  | @take w hw =>
      rw [Server.take]
      split
      · next hqueue => exact .takeNone hw hqueue
      · next fd rest hqueue => exact .take hw hqueue
  | process hw =>
      rw [agenda_process]
      exact .process hw
  | finish hw =>
      rw [Server.finish, agenda_modifyfd]
      exact .finish hw

/-- What a step does outside its object is no matter here: it is the objects that
it writes into. -/
theorem agenda_of_strays {l : Label ω} (hmove : Move s l t) (hstrays : Strays s t u l) :
    u.agenda = t.agenda := by
  cases hmove with
  | accept _ _ _ =>
      rw [Strays] at hstrays
      rw [hstrays]
      split <;> rfl
  | acceptFailed _ =>
      rw [Strays] at hstrays
      rw [hstrays]
      split <;> rfl
  | write _ _ =>
      obtain ⟨r, -, hu⟩ := hstrays
      rw [hu]
      split <;> rfl
  | process _ =>
      obtain ⟨fd, -, hu | ⟨-, users, hu⟩⟩ := hstrays
      · rw [hu]
      · rw [hu]
        rfl
  | _ => rw [show u = _ from hstrays]

theorem advance_of_step {l : Label ω} (hstep : Step s l u)
    (hl : ∀ events, l ≠ .fetch events) : Advance s.agenda u.agenda := by
  obtain ⟨t, hmove, hstrays⟩ := hstep
  rw [agenda_of_strays hmove hstrays]
  exact advance_of_move hmove hl

end Server

/-! ## What is left to be done -/

section Counting

variable [Fintype ω] {a b : Agenda ω}

def Agenda.rank (a : Agenda ω) : ℕ :=
  9 * a.batch.length + a.main.rank + 3 * a.workqueue.length + 2 * a.queuestat +
    load Worker.rank a.workers

omit [DecidableEq ω] [Fintype ω] in
theorem rank_handler_le (e : Event) : e.handler.rank ≤ 8 := by
  cases e with
  | listener => simp [Event.handler, MainThread.rank]
  | ready fd mask =>
      simp only [Event.handler]
      repeat' split
      all_goals simp [MainThread.rank]

/-- Every step leaves less to be done. -/
theorem Advance.rank_lt (h : Advance a b) : b.rank < a.rank := by
  cases h with
  | @dispatch e rest hmain hbatch =>
      have hhandler := rank_handler_le e
      simp only [Agenda.rank, hbatch, List.length_cons]
      omega
  | main hrank _ _ =>
      simp only [Agenda.rank]
      omega
  | append hmain =>
      simp only [Agenda.rank, hmain, List.length_append, List.length_singleton,
        MainThread.rank]
      omega
  | post hmain =>
      simp only [Agenda.rank, hmain, MainThread.rank]
      omega
  | @wake w hw hpermit =>
      have hload := load_update (f := a.workers) (i := w) (x := .awake) Worker.rank
      simp only [hw, Worker.rank] at hload
      simp only [Agenda.rank]
      omega
  | @takeNone w hw hqueue =>
      have hload := load_update (f := a.workers) (i := w) (x := .idle) Worker.rank
      simp only [hw, Worker.rank] at hload
      simp only [Agenda.rank]
      omega
  | @take w fd rest hw hqueue =>
      have hload := load_update (f := a.workers) (i := w) (x := .holding fd) Worker.rank
      simp only [hw, Worker.rank] at hload
      simp only [Agenda.rank, hqueue, List.length_cons]
      omega
  | @process w fd exit hw =>
      have hload := load_update (f := a.workers) (i := w) (x := .finishing fd exit)
        Worker.rank
      simp only [hw, Worker.rank] at hload
      simp only [Agenda.rank]
      omega
  | @finish w fd exit hw =>
      have hload := load_update (f := a.workers) (i := w) (x := .idle) Worker.rank
      simp only [hw, Worker.rank] at hload
      simp only [Agenda.rank]
      omega

/-- Every request in the queue has a token, a worker that is awake, or a token that
is about to be posted. -/
def Agenda.Served (a : Agenda ω) : Prop :=
  a.workqueue.length ≤ a.queuestat + population Worker.isAwake a.workers +
    a.main.isPosting.toNat

omit [DecidableEq ω] in
theorem isPosting_handler (e : Event) : e.handler.isPosting = false := by
  cases e with
  | listener => rfl
  | ready fd mask =>
      simp only [Event.handler]
      repeat' split
      all_goals rfl

theorem Advance.served (h : Advance a b) (ha : a.Served) : b.Served := by
  unfold Agenda.Served at *
  cases h with
  | @dispatch e rest hmain hbatch =>
      rw [hmain] at ha
      simp only [isPosting_handler]
      exact ha
  | main hrank hbefore hafter =>
      rw [hbefore] at ha
      simp only [hafter]
      exact ha
  | append hmain =>
      rw [hmain] at ha
      simp only [List.length_append, List.length_singleton, MainThread.isPosting,
        Bool.toNat_false, Bool.toNat_true] at ha ⊢
      omega
  | post hmain =>
      rw [hmain] at ha
      simp only [MainThread.isPosting, Bool.toNat_false, Bool.toNat_true] at ha ⊢
      omega
  | @wake w hw hpermit =>
      have hawake : population Worker.isAwake (Function.update a.workers w .awake) =
          population Worker.isAwake a.workers + 1 :=
        population_update_arrives (by rw [hw]; rfl) rfl
      simp only [hawake]
      omega
  | @takeNone w hw hqueue =>
      simp only [hqueue, List.length_nil]
      exact Nat.zero_le _
  | @take w fd rest hw hqueue =>
      have hawake : population Worker.isAwake
          (Function.update a.workers w (.holding fd)) + 1 =
          population Worker.isAwake a.workers :=
        population_update_leaves (by rw [hw]; rfl) rfl
      rw [hqueue, List.length_cons] at ha
      simp only
      omega
  | @process w fd exit hw =>
      have hawake : population Worker.isAwake
          (Function.update a.workers w (.finishing fd exit)) =
          population Worker.isAwake a.workers :=
        population_update_same (by rw [hw]; rfl)
      simp only [hawake]
      exact ha
  | @finish w fd exit hw =>
      have hawake : population Worker.isAwake (Function.update a.workers w .idle) =
          population Worker.isAwake a.workers :=
        population_update_same (by rw [hw]; rfl)
      simp only [hawake]
      exact ha

end Counting

/-! ## Nobody has anything to do -/

namespace Server

variable {s t : Server ω}

/-- Some thread can go on without `epoll_wait`. -/
def CanAdvance (s : Server ω) : Prop :=
  ∃ l t, Step s l t ∧ ∀ events, l ≠ .fetch events

/-- The main thread is about to wait for events, and no request is under way. -/
structure AtRest (s : Server ω) : Prop where
  main : s.main = .dispatching
  batch : s.batch = []
  workqueue : s.workqueue = []
  workers : ∀ w, s.workers w = .idle

/-- Whatever a step does outside its object, it is a step. -/
theorem canAdvance_of_move {l : Label ω} (hmove : Move s l t)
    (hl : ∀ events, l ≠ .fetch events) : s.CanAdvance := by
  have hstrays : ∃ u, Strays s t u l := by
    cases hmove with
    | accept _ _ _ => exact ⟨_, rfl⟩
    | acceptFailed _ => exact ⟨_, rfl⟩
    | write _ hwrite => exact ⟨_, _, hwrite, rfl⟩
    | process hw => exact ⟨_, _, hw, .inl rfl⟩
    | _ => exact ⟨_, rfl⟩
  obtain ⟨u, hu⟩ := hstrays
  exact ⟨l, u, ⟨t, hmove, hu⟩, hl⟩

omit [DecidableEq ω] in
/-- `read()` and `write()` come to an end, whatever the socket has: `writev` may fail. -/
theorem exists_read (c : Parser) : ∃ outcomes r, c.read outcomes = some r := by
  by_cases hfull : readBufferSize ≤ c.readIdx
  · exact ⟨[], (false, c), if_pos hfull⟩
  · refine ⟨[.eagain], (true, c), ?_⟩
    rw [Parser.read, if_neg hfull]
    rfl

omit [DecidableEq ω] in
theorem exists_write (c : HttpConn) : ∃ outcomes r, c.write outcomes = some r := by
  by_cases hidx : c.writeIdx = 0
  · exact ⟨[], _, by rw [HttpConn.write, if_pos hidx, if_pos rfl]⟩
  · refine ⟨[.error], ⟨.failed, c.unmap, []⟩, ?_⟩
    rw [HttpConn.write, if_neg hidx, if_neg (fun hother => hother.2 rfl)]
    rfl

/-- The main thread is held up only by `epoll_wait`. -/
theorem canAdvance_of_main (h : s.main ≠ .dispatching ∨ s.batch ≠ []) :
    s.CanAdvance := by
  cases hmain : s.main with
  | dispatching =>
      cases hbatch : s.batch with
      | nil =>
          rcases h with h | h
          · exact absurd hmain h
          · exact absurd hbatch h
      | cons e rest => exact canAdvance_of_move (.dispatch hmain hbatch) (by simp)
  | accepting => exact canAdvance_of_move (.acceptFailed hmain) (by simp)
  | reading fd =>
      obtain ⟨outcomes, ⟨ok, p⟩, hread⟩ := exists_read (s.users fd).parser
      exact canAdvance_of_move (.read hmain hread) (by simp)
  | appending fd => exact canAdvance_of_move (.append hmain) (by simp)
  | posting => exact canAdvance_of_move (.post hmain) (by simp)
  | writing fd =>
      obtain ⟨outcomes, r, hwrite⟩ := exists_write (s.users fd)
      exact canAdvance_of_move (.write hmain hwrite) (by simp)
  | closing fd => exact canAdvance_of_move (.closeconn hmain) (by simp)

/-- A worker is held up only by the semaphore. -/
theorem canAdvance_of_worker {w : ω} (hw : s.workers w ≠ .idle) : s.CanAdvance := by
  cases hworker : s.workers w with
  | idle => exact absurd hworker hw
  | awake => exact canAdvance_of_move (.take hworker) (by simp)
  | holding fd =>
      exact canAdvance_of_move (@Move.process _ _ s w fd (fun _ => none) hworker) (by simp)
  | finishing fd exit => exact canAdvance_of_move (.finish hworker) (by simp)

variable [Fintype ω]

/-- When no thread can go on, no request is left in the queue. -/
theorem atRest_of_not_canAdvance [Nonempty ω] (hserved : s.agenda.Served)
    (hnot : ¬ s.CanAdvance) : s.AtRest := by
  have hworkers : ∀ w, s.workers w = .idle := by
    intro w
    by_contra hw
    exact hnot (canAdvance_of_worker hw)
  have hmain : s.main = .dispatching := by
    by_contra hmain
    exact hnot (canAdvance_of_main (.inl hmain))
  have hbatch : s.batch = [] := by
    by_contra hbatch
    exact hnot (canAdvance_of_main (.inr hbatch))
  have htokens : s.queuestat = 0 := by
    by_contra htokens
    obtain ⟨w⟩ := ‹Nonempty ω›
    exact hnot (canAdvance_of_move (.wake (hworkers w) (Nat.pos_of_ne_zero htokens))
      (by simp))
  have hawake : population Worker.isAwake s.workers = 0 := by
    simp [population, hworkers, Worker.isAwake]
  refine ⟨hmain, hbatch, ?_, hworkers⟩
  simp only [Agenda.Served, agenda, htokens, hawake, hmain, MainThread.isPosting,
    Bool.toNat_false] at hserved
  exact List.eq_nil_of_length_eq_zero (Nat.le_zero.mp hserved)

omit [DecidableEq ω] [Fintype ω] in
/-- A connection that is not forgotten is armed. -/
theorem AtRest.armed (h : s.AtRest) {p : Place ω} {fd : ℕ} (hp : s.At p fd) :
    s.armed fd ≠ none := by
  cases p with
  | epoll => exact hp.1
  | events => simp [At, h.batch, slots] at hp
  | main => simp [At, h.main, MainThread.slot] at hp
  | workqueue => simp [At, h.workqueue] at hp
  | worker w => simp [At, h.workers w, Worker.slot] at hp

theorem served_of_attainable (h : CarefullyAttainable s) : s.agenda.Served := by
  obtain ⟨users, hrun⟩ := h
  refine invariant_of_run (I := fun s : Server ω => s.agenda.Served) hrun
    (Nat.zero_le _) ?_
  rintro s t hs ⟨l, hstep, -⟩
  by_cases hl : ∃ events, l = .fetch events
  · obtain ⟨events, rfl⟩ := hl
    obtain ⟨u, hmove, hstrays⟩ := hstep
    obtain rfl : t = u := hstrays
    cases hmove with
    | fetch _ _ _ _ _ => exact hs
  · exact (advance_of_step hstep (not_exists.mp hl)).served hs

omit [Fintype ω] in
/-- In a run that meets no defect no open connection is forgotten. -/
theorem kept_of_attainable (h : CarefullyAttainable s) :
    s.Inv ∧ s.custody.Complete := by
  obtain ⟨users, hrun⟩ := h
  refine invariant_of_run (I := fun s : Server ω => s.Inv ∧ s.custody.Complete) hrun
    ⟨start_inv users, ?_⟩ ?_
  · intro fd hfd
    cases hfd
  · rintro s t ⟨hinv, hcomplete⟩ ⟨l, hstep, hcareful⟩
    obtain ⟨htransfer, hinv⟩ := hinv.step hstep hcareful
    exact ⟨hinv, hcomplete.transfer htransfer⟩

/-- A run without `epoll_wait`, of the program as it is, has no more steps than the
rank of its first state, which may be any.  In a state that careful steps reach with
at least one worker, some thread can go on unless the main thread is about to wait
for events, the queue is empty and every worker is idle; and then every open
connection is armed in epoll. -/
theorem comes_to_rest [Nonempty ω] (s : Server ω) :
    (∀ states, (s :: states).IsChain
      (fun s t => ∃ l, Step s l t ∧ ∀ events, l ≠ .fetch events) →
        states.length ≤ s.agenda.rank) ∧
    (CarefullyAttainable s → ¬ s.CanAdvance →
      s.AtRest ∧ ∀ fd, s.isOpen fd = true → s.armed fd ≠ none) := by
  constructor
  · intro states
    induction states generalizing s with
    | nil => exact fun _ => Nat.zero_le _
    | cons t states ih =>
        intro hchain
        rw [List.isChain_cons_cons] at hchain
        obtain ⟨⟨l, hstep, hl⟩, hchain⟩ := hchain
        have hlt := (advance_of_step hstep hl).rank_lt
        have hle := ih t hchain
        rw [List.length_cons]
        omega
  · intro h hnot
    have hrest := atRest_of_not_canAdvance (served_of_attainable h) hnot
    refine ⟨hrest, ?_⟩
    intro fd hopen
    obtain ⟨p, hp⟩ := (kept_of_attainable h).2 fd hopen
    exact hrest.armed hp

/-- A request waits in the queue, and its connection is not armed: the workers have
to go on. -/
theorem comes_to_rest_filled : (filled 1 : Server (Fin 8)).CanAdvance := by
  have hreach : CarefullyAttainable (filled 1 : Server (Fin 8)) := by
    have hrun := start_reaches_filled (ω := Fin 8) (k := 1) (by decide)
    refine ⟨_, ReflTransGen.mono ?_ _ _ hrun⟩
    rintro s t ⟨l, -, hstep, hcareful⟩
    exact ⟨l, hstep, hcareful⟩
  by_contra hnot
  obtain ⟨hrest, -⟩ := (comes_to_rest (filled 1 : Server (Fin 8))).2 hreach hnot
  cases hrest.workqueue

end Server

end BackendLab.Proactor
