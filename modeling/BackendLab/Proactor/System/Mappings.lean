import BackendLab.Proactor.System.Changes
import BackendLab.Proactor.System.Guarantees
import BackendLab.Proactor.Responses.Fetching

/-!
# The mappings of the files

`do_request` maps the requested file, and `unmap` gives the mapping back with
the length that `m_file_stat` has at that time.  Only `write()` calls `unmap`.
`closeconn()` does not, so that a connection which is closed between `process()`
and the end of `write()` takes its mapping with it.
-/

namespace BackendLab.Proactor

open Support Relation

/-- A call of `mmap` that succeeds, or of `munmap` on a mapping, with the length
that it is given. -/
inductive MapCall where
  | mmap (length : ℕ)
  | munmap (length : ℕ)
  deriving DecidableEq, Repr

/-- Every mapping is given back once, with its length and before the next one is
made; at most the last one, which is `held`, is still there. -/
def Balanced (calls : List MapCall) (held : Option ℕ) : Prop :=
  ∃ lengths : List ℕ,
    calls = (lengths.flatMap fun n => [.mmap n, .munmap n]) ++
      held.toList.map .mmap

theorem Balanced.mmap {calls : List MapCall} (h : Balanced calls none)
    (held : Option ℕ) : Balanced (calls ++ held.toList.map .mmap) held := by
  obtain ⟨lengths, rfl⟩ := h
  exact ⟨lengths, by simp⟩

theorem Balanced.munmap {calls : List MapCall} {held : Option ℕ}
    (h : Balanced calls held) :
    Balanced (calls ++ held.toList.map .munmap) none := by
  obtain ⟨lengths, rfl⟩ := h
  exact ⟨lengths ++ held.toList, by cases held <;> simp⟩

/-- The exits of `write()` that call `unmap`. -/
def HttpConn.WriteExit.unmaps : HttpConn.WriteExit → Bool
  | .failed | .completed => true
  | .nothing | .again => false

namespace HttpConn

/-- The length that `munmap` would be given for the mapping in
`m_file_address`, if there is one. -/
def held (c : HttpConn) : Option ℕ :=
  match c.fileAddress with
  | .mapped _ => some c.fileStat.size
  | .null | .failed => none

/-- The calls of `process()`: the one of `do_request`. -/
def processCalls (fs : FileSystem) (c : HttpConn) : List MapCall :=
  match c.processRead fs with
  | (.fileRequest, d) => d.held.toList.map .mmap
  | _ => []

/-- The calls of `write()`: the one of `unmap`. -/
def writeCalls (outcomes : List WritevOutcome) (c : HttpConn) : List MapCall :=
  match c.write outcomes with
  | some r => if r.exit.unmaps then c.held.toList.map .munmap else []
  | none => []

variable {c d : HttpConn}

theorem held_congr (haddress : d.fileAddress = c.fileAddress)
    (hstat : d.fileStat = c.fileStat) : d.held = c.held := by
  rw [held, held, haddress, hstat]

theorem held_finish (c : HttpConn) : c.finish.held = none := by
  rw [finish]
  split
  · rfl
  · rfl

/-- Of the results of `do_request` only `FILE_REQUEST` comes with a mapping that
was not there before. -/
theorem doRequest_held (fs : FileSystem) (c : HttpConn)
    (hcode : (c.doRequest fs).1 ≠ .fileRequest) :
    (c.doRequest fs).2.fileAddress = c.fileAddress := by
  revert hcode
  unfold doRequest
  simp only
  repeat' split
  all_goals simp

theorem processRead_held {fs : FileSystem} (hnone : c.held = none)
    (hcode : (c.processRead fs).1 ≠ .fileRequest) :
    (c.processRead fs).2.held = none := by
  have hunmapped : ∀ content, c.fileAddress ≠ .mapped content := by
    intro content heq
    rw [held, heq] at hnone
    cases hnone
  have haddress : (c.processRead fs).2.fileAddress = c.fileAddress := by
    revert hcode
    unfold processRead
    split
    · exact fun _ => rfl
    · exact fun _ => rfl
    · exact doRequest_held fs _
  rw [held, haddress]
  split
  · next content heq => exact absurd heq (hunmapped content)
  · rfl
  · rfl

theorem processCalls_eq {fs : FileSystem} (hnone : c.held = none) :
    c.processCalls fs = (c.processRead fs).2.held.toList.map .mmap := by
  by_cases hcode : (c.processRead fs).1 = .fileRequest
  · have heq : c.processRead fs = (.fileRequest, (c.processRead fs).2) :=
      Prod.ext hcode rfl
    rw [processCalls, heq]
  · rw [processRead_held hnone hcode, processCalls]
    split
    · next heq => exact absurd (by rw [heq]) hcode
    · rfl

/-- The mapping with which `process()` ends is the one of `do_request`, and there
is a response to send in front of it. -/
theorem process_held (fs : FileSystem) (hidx : c.writeIdx = 0)
    (hnone : c.held = none) :
    (c.process fs).2.held = (c.processRead fs).2.held ∧
      ((c.process fs).2.held ≠ none → 0 < (c.process fs).2.writeIdx) := by
  by_cases hread : c.parser.readRequest.1 = .noRequest
  · have heq : c.parser.readRequest = (.noRequest, c.parser.readRequest.2) :=
      Prod.ext hread rfl
    have hcode : c.processRead fs =
        (.noRequest, c.withParser c.parser.readRequest.2) := by
      rw [processRead, heq]
    rw [process_of_noRequest fs heq, hcode]
    exact ⟨rfl, fun hheld => absurd hnone hheld⟩
  · obtain ⟨d, hd, -, -, hpos, haddress, hstat⟩ :=
      process_of_ne_noRequest fs hidx hread
    rw [hd]
    exact ⟨held_congr haddress hstat, fun _ => hpos⟩

end HttpConn

/-! ## One object -/

/-- What holds of an object at all times, with the calls that were made for it:
a mapping is held only while there is a response to send on an open
connection. -/
structure MapsKept (c : HttpConn) (isOpen : Bool) (calls : List MapCall) :
    Prop where
  writeIdx_pos : c.held ≠ none → 0 < c.writeIdx
  isOpen : c.held ≠ none → isOpen = true
  balanced : Balanced calls c.held

namespace MapsKept

variable {c : HttpConn} {isOpen : Bool} {calls : List MapCall}

theorem of_held_eq_none {d : HttpConn} {b : Bool} (hd : d.held = none)
    (hbalanced : Balanced calls none) : MapsKept d b calls :=
  ⟨fun h => absurd hd h, fun h => absurd hd h, by rwa [hd]⟩

theorem held_eq_none (h : MapsKept c isOpen calls) (hidx : c.writeIdx = 0) :
    c.held = none := by
  by_contra hheld
  have hpos := h.writeIdx_pos hheld
  omega

theorem balanced_none (h : MapsKept c isOpen calls) (hnone : c.held = none) :
    Balanced calls none := by
  rw [← hnone]
  exact h.balanced

theorem init (h : MapsKept c false calls) {d : HttpConn} (hd : d.held = none) :
    MapsKept d true calls := by
  have hnone : c.held = none := by
    by_contra hheld
    cases h.isOpen hheld
  exact of_held_eq_none hd (h.balanced_none hnone)

theorem withParser (h : MapsKept c isOpen calls) (p : Parser) :
    MapsKept (c.withParser p) isOpen calls :=
  ⟨h.writeIdx_pos, h.isOpen, h.balanced⟩

theorem process (h : MapsKept c isOpen calls) (fs : FileSystem)
    (hidx : c.writeIdx = 0) (hopen : isOpen = true) :
    MapsKept (c.process fs).2 isOpen (calls ++ c.processCalls fs) := by
  have hnone := h.held_eq_none hidx
  obtain ⟨hheld, hpos⟩ := HttpConn.process_held fs hidx hnone
  refine ⟨hpos, fun _ => hopen, ?_⟩
  rw [HttpConn.processCalls_eq hnone, hheld]
  exact (h.balanced_none hnone).mmap _

theorem write (h : MapsKept c isOpen calls)
    {outcomes : List HttpConn.WritevOutcome} {r : HttpConn.WriteResult}
    (hwrite : c.write outcomes = some r) :
    MapsKept r.conn isOpen (calls ++ c.writeCalls outcomes) := by
  have hcalls : c.writeCalls outcomes =
      if r.exit.unmaps then c.held.toList.map .munmap else [] := by
    simp only [HttpConn.writeCalls, hwrite]
  rw [hcalls]
  by_cases hidx : c.writeIdx = 0
  · -- nothing to send: only `init()` runs
    have hbalanced := h.balanced_none (h.held_eq_none hidx)
    rw [HttpConn.write, if_pos hidx] at hwrite
    split at hwrite
    · obtain rfl := Option.some.inj hwrite
      refine of_held_eq_none rfl ?_
      rwa [HttpConn.WriteExit.unmaps, if_neg Bool.false_ne_true,
        List.append_nil]
    · cases hwrite
  · rcases HttpConn.write_cases hwrite (Nat.pos_of_ne_zero hidx) with
      ⟨hexit, hconn, -⟩ | ⟨hexit, hconn⟩ | ⟨hexit, hconn, -⟩
    · rw [hexit, hconn, HttpConn.WriteExit.unmaps, if_neg Bool.false_ne_true,
        List.append_nil]
      exact h
    · rw [hexit, hconn]
      exact of_held_eq_none rfl h.balanced.munmap
    · rw [hexit, hconn]
      exact of_held_eq_none (HttpConn.held_finish c) h.balanced.munmap

theorem closeconn (h : MapsKept c isOpen calls) (hnone : c.held = none) :
    MapsKept { c with sockfd := -1 } false calls :=
  of_held_eq_none hnone (h.balanced_none hnone)

end MapsKept

/-! ## Runs -/

variable {ω : Type*}

/-- The server, with the calls that were made for each object. -/
structure Recorded (ω : Type*) where
  server : Server ω
  calls : ℕ → List MapCall

def Recorded.start (users : ℕ → HttpConn) : Recorded ω where
  server := .start users
  calls := fun _ => []

/-- No connection is closed while it holds a mapping. -/
def GivesBack (s : Server ω) : Label ω → Prop
  | .closeconn fd => (s.users fd).held = none
  | _ => True

section

variable [DecidableEq ω]

/-- The calls that a step makes for `users[fd]`. -/
def Label.mapCalls (s : Server ω) (fd : ℕ) : Label ω → List MapCall
  | .process w fs =>
      if s.workers w = .holding fd then (s.users fd).processCalls fs else []
  | .write g outcomes =>
      if g = fd then (s.users fd).writeCalls outcomes else []
  | _ => []

def RecordedMove (r : Recorded ω) (l : Label ω) (r' : Recorded ω) : Prop :=
  Move r.server l r'.server ∧
    r'.calls = fun fd => r.calls fd ++ l.mapCalls r.server fd

def ReleasingMove (r r' : Recorded ω) : Prop :=
  ∃ l, RecordedMove r l r' ∧ GivesBack r.server l

end

theorem Label.mapCalls_of_answers {s : Server ω} {l : Label ω} (fd : ℕ)
    (hl : l.answers = false) : l.mapCalls s fd = [] := by
  cases l with
  | write g outcomes => cases hl
  | process w fs => cases hl
  | _ => rfl

theorem Server.Inv.held_closeconn [DecidableEq ω] {s t : Server ω} (h : s.Inv)
    {fd : ℕ} (hmove : Move s (.closeconn fd) t) :
    t.isOpen fd = false ∧ (t.users fd).held = (s.users fd).held := by
  cases hmove with
  | closeconn hmain =>
      rw [h.closeconn_eq hmain]
      simp only [Function.update_self]
      exact ⟨trivial, rfl⟩

namespace Recorded

variable {r r' : Recorded ω}

structure Kept (r : Recorded ω) : Prop where
  inv : r.server.Inv
  slots : ∀ fd, MapsKept (r.server.users fd) (r.server.isOpen fd) (r.calls fd)

theorem kept_start {users : ℕ → HttpConn}
    (hnull : ∀ fd, (users fd).fileAddress = .null) :
    (start users : Recorded ω).Kept where
  inv := Server.start_inv users
  slots fd := by
    refine .of_held_eq_none ?_ ⟨[], rfl⟩
    change (users fd).held = none
    rw [HttpConn.held, hnull]

theorem Kept.change (h : r.Kept) {l : Label ω} {t : Server ω}
    (hchange : Change r.server l t) (hl : GivesBack r.server l) (fd : ℕ) :
    MapsKept (t.users fd) (t.isOpen fd)
      (r.calls fd ++ l.mapCalls r.server fd) := by
  have hfd := h.slots fd
  cases hchange with
  | none hquiet husers hopen _ =>
      rw [husers, hopen, Label.mapCalls_of_answers fd hquiet, List.append_nil]
      exact hfd
  | @accept g _ _ hfresh husers hopen _ =>
      rw [husers, hopen, Label.mapCalls_of_answers fd rfl, List.append_nil]
      by_cases hg : fd = g
      · subst hg
        rw [hfresh] at hfd
        simp only [Function.update_self]
        exact hfd.init rfl
      · simpa [hg] using hfd
  | acceptFailed _ husers hopen _ =>
      rw [husers, hopen, Label.mapCalls_of_answers fd rfl, List.append_nil]
      exact hfd
  | @read g _ p _ husers hopen _ =>
      rw [husers, hopen, Label.mapCalls_of_answers fd rfl, List.append_nil]
      by_cases hg : fd = g
      · subst hg
        rw [Function.update_self]
        exact hfd.withParser p
      · simpa [hg] using hfd
  | @closeconn g _ _ husers hopen _ =>
      rw [husers, hopen, Label.mapCalls_of_answers fd rfl, List.append_nil]
      by_cases hg : fd = g
      · subst hg
        simp only [Function.update_self]
        exact hfd.closeconn hl
      · simpa [hg] using hfd
  | @write g outcomes _ _ hwrite husers hopen _ =>
      rw [husers, hopen, Label.mapCalls]
      by_cases hg : fd = g
      · subst hg
        rw [Function.update_self, if_pos rfl]
        exact hfd.write hwrite
      · simpa [hg, Ne.symm hg] using hfd
  | @process w fs g _ hw husers hopen _ =>
      rw [husers, hopen, Label.mapCalls, hw]
      by_cases hg : fd = g
      · subst hg
        rw [Function.update_self, if_pos rfl]
        have hexpects : r.server.Expects (.worker w) fd := Or.inl hw
        exact hfd.process fs (h.inv.writeIdx_eq hexpects)
          (h.inv.isOpen_of_at (Server.at_of_expects hexpects))
      · simpa [hg, Ne.symm hg] using hfd

variable [DecidableEq ω]

theorem Kept.step (h : r.Kept) {l : Label ω} (hstep : RecordedMove r l r')
    (hl : GivesBack r.server l) : r'.Kept := by
  obtain ⟨hmove, hcalls⟩ := hstep
  refine ⟨h.inv.move hmove, fun fd => ?_⟩
  rw [hcalls]
  exact h.change (h.inv.change hmove) hl fd

theorem kept_of_run {users : ℕ → HttpConn}
    (hnull : ∀ fd, (users fd).fileAddress = .null)
    (hrun : ReflTransGen ReleasingMove (start users) r) : r.Kept := by
  apply invariant_of_run hrun (kept_start hnull)
  intro r r' hr hstep
  obtain ⟨l, hstep, hl⟩ := hstep
  exact hr.step hstep hl

/-- In a run in which no connection is closed while it holds a mapping, the
mappings of every object are given back once each, with their length and before
the next one is made, and a closed connection holds none.  A connection that is
closed with a mapping keeps it. -/
theorem balanced_calls {users : ℕ → HttpConn}
    (hnull : ∀ fd, (users fd).fileAddress = .null)
    (hrun : ReflTransGen ReleasingMove (start users) r) (fd : ℕ) :
    Balanced (r.calls fd) (r.server.users fd).held ∧
      (r.server.isOpen fd = false → (r.server.users fd).held = none) ∧
      ∀ r', RecordedMove r (.closeconn fd) r' →
        ¬ GivesBack r.server (.closeconn fd : Label ω) →
          r'.server.isOpen fd = false ∧ (r'.server.users fd).held ≠ none := by
  have hkept := kept_of_run hnull hrun
  refine ⟨(hkept.slots fd).balanced, ?_, ?_⟩
  · intro hclosed
    by_contra hheld
    rw [(hkept.slots fd).isOpen hheld] at hclosed
    cases hclosed
  · rintro r' ⟨hmove, -⟩ hheld
    obtain ⟨hclosed, heq⟩ := hkept.inv.held_closeconn hmove
    rw [heq]
    exact ⟨hclosed, hheld⟩

/-! ## A client that hangs up -/

/-- A step that makes no call. -/
theorem releasingMove_of_quiet {s t : Server ω} {l : Label ω} {calls : ℕ → List MapCall}
    (hmove : Move s l t) (hquiet : l.answers = false) (hl : GivesBack s l) :
    ReleasingMove ⟨s, calls⟩ ⟨t, calls⟩ := by
  refine ⟨l, ⟨hmove, ?_⟩, hl⟩
  funext fd
  rw [Label.mapCalls_of_answers fd hquiet, List.append_nil]

/-- A client connects and sends a request, and a worker has taken it up. -/
theorem start_reaches_holding {outcomes : List RecvOutcome} {p : Parser}
    (hread : Parser.fresh.read outcomes = some (true, p)) :
    ∃ s : Server (Fin 8),
      ReflTransGen ReleasingMove (start fun _ => HttpConn.blank)
        ⟨s, fun _ => []⟩ ∧
      s.main = .dispatching ∧ s.batch = [] ∧ s.workers 0 = .holding 5 ∧
      s.isOpen 5 = true ∧
      s.users 5 = { HttpConn.blank with sockfd := 5, parser := p } := by
  let s₀ : Server (Fin 8) := .start fun _ => HttpConn.blank
  let s₁ := s₀.fetch [.listener]
  let s₂ : Server (Fin 8) := { s₁ with batch := [], main := .accepting }
  let s₃ := s₂.accept 5
  let s₄ := s₃.fetch [.ready 5 inputMask]
  let s₅ : Server (Fin 8) := { s₄ with batch := [], main := .reading 5 }
  let s₆ := s₅.read 5 true p
  let s₇ := s₆.append 5
  let s₈ := s₇.post
  let s₉ := s₈.wake 0
  have h₁ : Move s₀ (.fetch [.listener]) s₁ :=
    .fetch rfl rfl (by decide) (by simp [Server.Reports]) (by decide)
  have h₂ : Move s₁ .dispatch s₂ :=
    @Move.dispatch _ _ s₁ .listener [] rfl rfl
  have h₃ : Move s₂ (.accept 5) s₃ := .accept rfl rfl (by decide)
  have h₄ : Move s₃ (.fetch [.ready 5 inputMask]) s₄ := by
    refine .fetch rfl rfl (by decide) ?_ (by decide)
    intro e he
    rw [List.mem_singleton.mp he]
    exact ⟨.input, rfl, by simp, by simp [inputMask], by simp [inputMask]⟩
  have h₅ : Move s₄ .dispatch s₅ :=
    @Move.dispatch _ _ s₄ (.ready 5 inputMask) [] rfl rfl
  have h₆ : Move s₅ (.read 5 outcomes) s₆ := .read rfl hread
  have h₇ : Move s₆ (.append 5) s₇ := .append rfl
  have h₈ : Move s₇ .post s₈ := .post rfl
  have h₉ : Move s₈ (.wake 0) s₉ := .wake rfl Nat.one_pos
  have h₁₀ : Move s₉ (.take 0) (s₉.take 0) := .take rfl
  refine ⟨s₉.take 0, ?_, rfl, rfl, rfl, rfl, rfl⟩
  have hquiet : ∀ {s t : Server (Fin 8)} {l : Label (Fin 8)}, Move s l t →
      l.answers = false → GivesBack s l →
      ReflTransGen ReleasingMove (start fun _ => HttpConn.blank)
        ⟨s, fun _ => []⟩ →
      ReflTransGen ReleasingMove (start fun _ => HttpConn.blank)
        ⟨t, fun _ => []⟩ :=
    fun hmove hl hback hrun => hrun.tail (releasingMove_of_quiet hmove hl hback)
  apply hquiet h₁₀ rfl trivial
  apply hquiet h₉ rfl trivial
  apply hquiet h₈ rfl trivial
  apply hquiet h₇ rfl trivial
  apply hquiet h₆ rfl trivial
  apply hquiet h₅ rfl trivial
  apply hquiet h₄ rfl trivial
  apply hquiet h₃ rfl trivial
  apply hquiet h₂ rfl trivial
  apply hquiet h₁ rfl trivial
  exact .refl

/-- A file system in which every path names the same file of one byte. -/
def oneByteFiles : FileSystem :=
  fun _ => some ⟨0o100644, [120], true⟩

theorem openable_oneByteFiles (path : Bytes) : Openable oneByteFiles path := by
  intro file hfile _ _
  obtain rfl := Option.some.inj hfile
  exact ⟨⟨rfl, by decide⟩, by decide⟩

theorem held_oneByteFiles {c : HttpConn} {d : Parser}
    {stored : Option ℤ} (hread : c.parser.readRequest = (.doRequest stored, d)) :
    (c.processRead oneByteFiles).2.held = some 1 := by
  rw [HttpConn.processRead, hread]
  rfl

/-- The response to a request for a file is ready to be sent. -/
theorem start_reaches_mapped :
    ∃ r : Recorded (Fin 8),
      ReflTransGen ReleasingMove (start fun _ => HttpConn.blank) r ∧
      r.server.main = .dispatching ∧ r.server.batch = [] ∧
      r.server.armed 5 = some .output ∧
      (r.server.users 5).held = some 1 ∧ r.calls 5 = [.mmap 1] ∧
      ∃ header file, (r.server.users 5).Prepared header file ∧
        (header ++ file).length ≤ min 1000 HttpConn.maxRwCount := by
  have hhead : parseHead (ascii "GET /a HTTP/1.1\r\n\r\n") =
      .complete ⟨some (ascii "/a"), 4, none, false, 0⟩ [] := by
    decide +kernel
  obtain ⟨d, hreach⟩ := Parser.exists_doRequest (by decide +kernel) hhead rfl
  have hdata : Parser.fresh.read
      [.data (ascii "GET /a HTTP/1.1\r\n\r\n"), .eagain] =
        some (true, Parser.fresh.receive (ascii "GET /a HTTP/1.1\r\n\r\n")) :=
    Parser.read_data_eagain (by decide) (by decide +kernel)
  obtain ⟨s, hrun, hmain, hbatch, hw, hopen, husers⟩ :=
    start_reaches_holding hdata
  have hkept := kept_of_run (fun _ => rfl) hrun
  have hidx : (s.users 5).writeIdx = 0 := by rw [husers]; rfl
  have hread : (s.users 5).parser.readRequest = (.doRequest none, d) := by
    rw [husers]
    exact hreach
  have hheld := held_oneByteFiles hread
  obtain ⟨e, he, -, hsockfd, -, haddress, hstat⟩ :=
    HttpConn.process_of_ne_noRequest oneByteFiles hidx (by simp [hread])
  have heheld : e.held = some 1 :=
    (HttpConn.held_congr haddress hstat).trans hheld
  have hsockfd' : e.sockfd = (5 : ℕ) := by rw [hsockfd, husers]; rfl
  have hbytes : ([] : List Bytes).flatten ++ ascii "GET /a HTTP/1.1\r\n\r\n" =
      ascii "GET /a HTTP/1.1\r\n\r\n" := rfl
  have hpending := HttpConn.pending_init { HttpConn.blank with sockfd := 5 }
    (r := ascii "GET /a HTTP/1.1\r\n\r\n") (by decide)
  obtain ⟨e', header, file, he', hprepared, htext, -⟩ :=
    hpending.process_last hhead rfl (by decide) hbytes (openable_oneByteFiles _)
  have hsame : e' = e := by
    rw [husers] at he
    exact congrArg Prod.snd (he'.symm.trans he)
  have hlength : (header ++ file).length ≤ min 1000 HttpConn.maxRwCount := by
    rw [htext]
    decide +kernel
  let t : Server (Fin 8) :=
    { s with
      users := Function.update s.users 5 e
      workers := Function.update s.workers 0 (.finishing 5 .responding) }
  have hprocess : Move s (.process 0 oneByteFiles) t := by
    have hmove : Move s (.process 0 oneByteFiles)
        (s.process 0 5 oneByteFiles) := .process hw
    rwa [hkept.inv.process_eq oneByteFiles hw, he] at hmove
  have hcalls : (Label.process 0 oneByteFiles : Label (Fin 8)).mapCalls s 5 =
      [.mmap 1] := by
    rw [Label.mapCalls, if_pos hw, HttpConn.processCalls_eq
      ((hkept.slots 5).held_eq_none hidx), hheld]
    rfl
  have husers' : t.users 5 = e := by simp [t]
  have hw' : t.workers 0 = .finishing 5 .responding := by simp [t]
  let u : Server (Fin 8) :=
    { t with
      workers := Function.update t.workers 0 .idle
      armed := Function.update t.armed 5 (some .output) }
  have hfinish : Move t (.finish 0) u := by
    have hmove : Move t (.finish 0) (t.finish 0 5 .responding) := .finish hw'
    rw [Server.finish, husers', hsockfd',
      Server.modifyfd_of_isOpen (by exact hopen)] at hmove
    exact hmove
  have hstep : ReleasingMove ⟨s, fun _ => []⟩ ⟨t, fun fd => [] ++
      (Label.process 0 oneByteFiles : Label (Fin 8)).mapCalls s fd⟩ :=
    ⟨.process 0 oneByteFiles, ⟨hprocess, rfl⟩, trivial⟩
  exact ⟨⟨u, _⟩, (hrun.tail hstep).tail
    (releasingMove_of_quiet hfinish rfl trivial), hmain, hbatch, by simp [u],
    (congrArg HttpConn.held husers').trans heheld, hcalls, header, file,
    husers'.symm ▸ hsame ▸ hprepared, hlength⟩

/-- A file of one byte has been mapped, and sent. -/
theorem balanced_calls_mapped :
    ∃ r : Recorded (Fin 8), r.calls 5 = [.mmap 1, .munmap 1] ∧
      Balanced (r.calls 5) none := by
  obtain ⟨r, hrun, hmain, hbatch, harmed, hheld, hcalls, header, file, hprepared,
    hlength⟩ := start_reaches_mapped
  let s := r.server.fetch [.ready 5 ⟨false, false, true⟩]
  let t : Server (Fin 8) := { s with batch := [], main := .writing 5 }
  have hfetch : Move r.server (.fetch [.ready 5 ⟨false, false, true⟩]) s := by
    refine .fetch hmain hbatch (by decide) ?_ (by decide)
    intro e he
    rw [List.mem_singleton.mp he]
    exact ⟨.output, harmed, by simp, by simp, by simp⟩
  have hdispatch : Move s .dispatch t :=
    @Move.dispatch _ _ s (.ready 5 ⟨false, false, true⟩) [] hmain rfl
  have hall := hprepared.write_all hlength
  let u := t.write 5 ⟨.completed, (r.server.users 5).finish, header ++ file⟩
  have hwrite : Move t (.write 5 [.accepted 1000]) u := .write rfl hall
  have hunmap : (Label.write 5 [.accepted 1000] : Label (Fin 8)).mapCalls t 5 =
      [.munmap 1] := by
    have hcall : (r.server.users 5).writeCalls [.accepted 1000] =
        (r.server.users 5).held.toList.map .munmap := by
      simp [HttpConn.writeCalls, hall, HttpConn.WriteExit.unmaps]
    rw [Label.mapCalls, if_pos rfl]
    exact hcall.trans (by rw [hheld]; rfl)
  let r' : Recorded (Fin 8) := ⟨u, fun fd => r.calls fd ++
    (Label.write 5 [.accepted 1000] : Label (Fin 8)).mapCalls t fd⟩
  have hlast : ReleasingMove ⟨t, r.calls⟩ r' :=
    ⟨.write 5 [.accepted 1000], ⟨hwrite, rfl⟩, trivial⟩
  have hsent := ((hrun.tail (releasingMove_of_quiet hfetch rfl trivial)).tail
    (releasingMove_of_quiet hdispatch rfl trivial)).tail hlast
  have hboth : r'.calls 5 = [.mmap 1, .munmap 1] := by
    change r.calls 5 ++ _ = _
    rw [hcalls, hunmap]
    rfl
  refine ⟨r', hboth, ?_⟩
  have hbalanced := (balanced_calls (fun _ => rfl) hsent 5).1
  have hnone : (r'.server.users 5).held = none := by
    change (u.users 5).held = none
    rw [(Server.frame_write t 5 _).1, Function.update_self]
    exact HttpConn.held_finish _
  rwa [hnone] at hbalanced

/-- The client hangs up before its file is sent: the connection is closed, and
the mapping stays. -/
theorem mapping_leaks :
    ∃ r : Recorded (Fin 8),
      ReflTransGen (fun r r' => ∃ l, RecordedMove r l r')
        (start fun _ => HttpConn.blank) r ∧
      r.server.isOpen 5 = false ∧ (r.server.users 5).held = some 1 ∧
      r.calls 5 = [.mmap 1] := by
  obtain ⟨r, hrun, hmain, hbatch, harmed, hheld, hcalls, -⟩ := start_reaches_mapped
  let s := r.server.fetch [.ready 5 ⟨true, false, true⟩]
  let t : Server (Fin 8) := { s with batch := [], main := .closing 5 }
  have hfetch : Move r.server (.fetch [.ready 5 ⟨true, false, true⟩]) s := by
    refine .fetch hmain hbatch (by decide) ?_ (by decide)
    intro e he
    rw [List.mem_singleton.mp he]
    exact ⟨.output, harmed, by simp, by simp, by simp⟩
  have hdispatch : Move s .dispatch t :=
    @Move.dispatch _ _ s (.ready 5 ⟨true, false, true⟩) [] hmain rfl
  have hclose : Move t (.closeconn 5) (t.closeconn 5) := .closeconn rfl
  have hhangup : ReflTransGen ReleasingMove (start fun _ => HttpConn.blank)
      ⟨t, r.calls⟩ :=
    (hrun.tail (releasingMove_of_quiet hfetch rfl trivial)).tail
      (releasingMove_of_quiet hdispatch rfl trivial)
  have hinv : t.Inv := (kept_of_run (fun _ => rfl) hhangup).inv
  obtain ⟨hclosed, heq⟩ := hinv.held_closeconn hclose
  have hlast : RecordedMove ⟨t, r.calls⟩ (.closeconn 5)
      ⟨t.closeconn 5, r.calls⟩ := by
    refine ⟨hclose, ?_⟩
    funext fd
    exact (List.append_nil _).symm
  refine ⟨_, (ReflTransGen.mono ?_ _ _ hhangup).tail ⟨_, hlast⟩, hclosed,
    heq.trans hheld, hcalls⟩
  rintro r r' ⟨l, hstep, -⟩
  exact ⟨l, hstep⟩

end Recorded

end BackendLab.Proactor
