import BackendLab.Proactor.Responses.Fetching

/-!
# Connections that are closed behind their response

A client that does not ask to keep the connection, or whose request is refused: the
first response that a new connection comes to, in whatever reads the bytes arrive.
-/

namespace BackendLab.Proactor

open Support

namespace Parser

/-! ## A refused request has set nothing -/

theorem scanLine_linger (n : ℕ) (c : Parser) :
    (scanLine n c).2.linger = c.linger := by
  induction n generalizing c with
  | zero => rfl
  | succ n ih =>
      simp only [scanLine]
      repeat' split
      all_goals first | rfl | exact ih _

theorem parseRequestLine_linger (c : Parser) (text : ℕ) :
    (c.parseRequestLine text).2.linger = c.linger := by
  simp only [parseRequestLine, parseTarget]
  repeat' split
  all_goals rfl

/-- A header line is never refused, and leads to no request line. -/
theorem parseHeaders_cases {c d : Parser} {text : ℕ} {code : HttpCode}
    (hstate : c.checkState = .header) (h : c.parseHeaders text = (code, d)) :
    code ≠ .badRequest ∧ d.checkState ≠ .requestLine := by
  simp only [parseHeaders] at h
  repeat' split at h
  all_goals
    obtain ⟨rfl, rfl⟩ := Prod.mk.inj h
    exact ⟨by simp, by simp [hstate]⟩

theorem parseContent_checkState (c : Parser) (text : ℕ) :
    (c.parseContent text).2.checkState = c.checkState := by
  simp only [parseContent]
  repeat' split
  all_goals rfl

/-- While the request line is to come, nothing has asked to keep the connection. -/
theorem handleLine_linger {c : Parser}
    (hc : c.checkState = .requestLine → c.linger = false) :
    (∀ r, c.handleLine = .inl r → r.1 = .badRequest → r.2.linger = false) ∧
    ∀ s, c.handleLine = .inr s → s.2.checkState = .requestLine →
      s.2.linger = false := by
  cases hstate : c.checkState with
  | requestLine =>
      have hlinger := (parseRequestLine_linger c.restart c.startLine).trans (hc hstate)
      constructor
      · intro r hr _
        rw [handleLine] at hr
        simp only [hstate] at hr
        split at hr
        next d hline =>
          rw [hline] at hlinger
          obtain rfl := Sum.inl.inj hr
          exact hlinger
        · cases hr
      · intro s hs _
        rw [handleLine] at hs
        simp only [hstate] at hs
        split at hs
        · cases hs
        next hline =>
          rw [hline] at hlinger
          obtain rfl := Sum.inr.inj hs
          exact hlinger
  | header =>
      constructor
      · intro r hr hbad
        rw [handleLine] at hr
        simp only [hstate] at hr
        split at hr
        next d hline =>
          exact absurd rfl (parseHeaders_cases (by simpa using hstate) hline).1
        next d hline =>
          obtain rfl := Sum.inl.inj hr
          cases hbad
        · cases hr
      · intro s hs hline
        rw [handleLine] at hs
        simp only [hstate] at hs
        split at hs
        · cases hs
        · cases hs
        next hparse =>
          obtain rfl := Sum.inr.inj hs
          exact absurd hline (parseHeaders_cases (by simpa using hstate) hparse).2
  | content =>
      have hkept := parseContent_checkState c.restart c.startLine
      constructor
      · intro r hr hbad
        rw [handleLine] at hr
        simp only [hstate] at hr
        split at hr
        · obtain rfl := Sum.inl.inj hr
          cases hbad
        · cases hr
      · intro s hs hline
        rw [handleLine] at hs
        simp only [hstate] at hs
        split at hs
        · cases hs
        next hparse =>
          rw [hparse] at hkept
          obtain rfl := Sum.inr.inj hs
          rw [show _ = c.checkState from hkept, hstate] at hline
          cases hline

theorem readRequestStep_linger {s : LineStatus × Parser}
    (hs : s.2.checkState = .requestLine → s.2.linger = false) :
    (∀ r, readRequestStep s = .inl r → r.1 = .badRequest → r.2.linger = false) ∧
    ∀ s', readRequestStep s = .inr s' → s'.2.checkState = .requestLine →
      s'.2.linger = false := by
  obtain ⟨status, c⟩ := s
  simp only [readRequestStep]
  split_ifs with hbody
  · exact handleLine_linger hs
  · obtain ⟨-, -, hstate, -⟩ := scanLine_frame (c.readIdx - c.checkedIndex) c
    have hlinger := scanLine_linger (c.readIdx - c.checkedIndex) c
    rw [← parseLine] at hstate hlinger
    split
    next d hline =>
      rw [hline] at hstate hlinger
      apply handleLine_linger
      intro hd
      exact hlinger.trans (hs (hstate.symm.trans hd))
    next =>
      constructor
      · intro r hr hbad
        obtain rfl := Sum.inl.inj hr
        cases hbad
      · intro s' hs'
        cases hs'

/-- The request line is refused before any header line is read. -/
theorem linger_of_badRequest {s : Bytes} {d : Parser}
    (h : (Parser.fresh.receive s).readRequest = (.badRequest, d)) :
    d.linger = false := by
  have hrun := readRequestLoop.run_invariant
    (fun s => s.2.checkState = .requestLine → s.2.linger = false)
    (fun r => r.1 = .badRequest → r.2.linger = false)
    (fun s s' hs hstep => (readRequestStep_linger hs).2 s' hstep)
    (fun s r hs hstep => (readRequestStep_linger hs).1 r hstep)
    (.ok, Parser.fresh.receive s) (fun _ => rfl)
  rw [← readRequest, h] at hrun
  exact hrun rfl

end Parser

namespace HttpConn

/-! ## The first response -/

/-- What a request comes to that is not a request. -/
def refusal : Answer :=
  ⟨400, error400Title, error400Form⟩

/-- The connection with its first response prepared, when its bytes arrive in the
given reads. -/
def firstResponse (fs : FileSystem) : HttpConn → List Bytes → Option HttpConn
  | _, [] => none
  | c, bytes :: reads =>
      match (c.withParser (c.parser.receive bytes)).process fs with
      | (.waiting, d) => d.firstResponse fs reads
      | (.responding, d) => some d
      | (.closing, _) => none

variable {fs : FileSystem} {c conn : HttpConn} {xs reads : List Bytes} {r : Bytes}

/-- A request that is complete with the last of its bytes is answered then. -/
theorem Pending.firstResponse_complete (hp : Pending c conn xs r) {h : Head}
    (hhead : parseHead r = .complete h []) (hlength : h.contentLength = 0)
    (hfit : r.length ≤ readBufferSize) (hbytes : xs.flatten ++ reads.flatten = r)
    (hopen : Openable fs (requestPath r)) :
    ∃ d header file, c.firstResponse fs reads = some d ∧ d.Prepared header file ∧
      header ++ file = (answerFor fs (requestPath r)).textFor h.linger ∧
      d.parser.linger = h.linger := by
  induction reads generalizing c xs with
  | nil =>
      rw [List.flatten_nil, List.append_nil] at hbytes
      exact absurd (congrArg List.length hbytes) hp.lt.ne
  | cons bytes reads ih =>
      rw [List.flatten_cons, ← List.append_assoc] at hbytes
      by_cases hrest : reads.flatten = []
      · rw [hrest, List.append_nil] at hbytes
        obtain ⟨d, header, file, hprocess, hprepared, htext, hlinger, -⟩ :=
          hp.process_last hhead hlength hfit hbytes hopen
        refine ⟨d, header, file, ?_, hprepared, htext, hlinger⟩
        rw [firstResponse, hprocess]
      · obtain ⟨d, hwait, hd⟩ := hp.process_more fs hhead hfit hbytes hrest
        have hflat : (xs ++ [bytes]).flatten = xs.flatten ++ bytes := by simp
        rw [firstResponse, hwait]
        exact ih hd (by rw [hflat, hbytes])

/-- A request line that is refused is answered, and nothing is kept. -/
theorem Pending.process_bad (hp : Pending c conn xs r) {bytes : Bytes}
    (hfit : (xs.flatten ++ bytes).length ≤ readBufferSize)
    (hbad : parseHead (xs.flatten ++ bytes) = .bad) (fs : FileSystem) :
    ∃ d, (c.withParser (c.parser.receive bytes)).process fs = (.responding, d) ∧
      d.Prepared (refusal.textFor false) [] ∧ d.parser.linger = false := by
  have hcall := Parser.readRequest_pieces bytes hfit hp.reads hp.state
  have hout := Parser.readRequest_fresh hfit
  rw [hbad] at hout
  obtain ⟨p, hrun⟩ := hout
  have hlinger := Parser.linger_of_badRequest hrun
  rw [← hcall] at hrun
  have hread : (c.withParser (c.parser.receive bytes)).processRead fs =
      (.badRequest, c.withParser p) := by
    simp only [processRead, withParser, hrun]
  have hidx : (c.withParser p).writeIdx = 0 := by
    rw [hp.conn_eq]
    rfl
  have ht : responseText (c.withParser p).parser.linger (c.withParser p).fileStat.size
      .badRequest = some (refusal.textFor false) := by
    rw [show (c.withParser p).parser.linger = false from hlinger]
    rfl
  obtain ⟨e, hprocess, hparser, -, hprepared⟩ :=
    process_prepared hread hidx ht (fun h => by cases h)
  exact ⟨e, hprocess, hprepared, (congrArg Parser.linger hparser).trans hlinger⟩

/-- Bytes that are the beginning of a request line or of headers ask for more. -/
theorem Pending.process_incomplete (hp : Pending c conn xs r) {bytes rest : Bytes}
    {h : Head} (hhead : parseHead (xs.flatten ++ bytes) = .incomplete h rest)
    (hlt : (xs.flatten ++ bytes).length < r.length)
    (hfit : r.length ≤ readBufferSize) (fs : FileSystem) :
    ∃ d, (c.withParser (c.parser.receive bytes)).process fs = (.waiting, d) ∧
      Pending d conn (xs ++ [bytes]) r := by
  have hroom : (xs.flatten ++ bytes).length ≤ readBufferSize := by omega
  have hcall := Parser.readRequest_pieces bytes hroom hp.reads hp.state
  have hout := Parser.readRequest_fresh hroom
  rw [hhead] at hout
  obtain ⟨p, hrun, -, hp', -⟩ := hout
  rw [← hcall] at hrun
  refine ⟨_, process_of_noRequest (c := c.withParser (c.parser.receive bytes)) fs hrun,
    ?_, Parser.afterReads_concat.mpr ⟨_, hp.reads, hrun⟩, hp'.checkState_ne, ?_⟩
  · rw [hp.conn_eq]
    rfl
  · rwa [List.flatten_append, List.flatten_singleton]

/-- A request that is refused is answered at the latest with the last of its
bytes. -/
theorem Pending.firstResponse_bad (hp : Pending c conn xs r)
    (hbad : parseHead r = .bad) (hfit : r.length ≤ readBufferSize)
    (hbytes : xs.flatten ++ reads.flatten = r) (fs : FileSystem) :
    ∃ d, c.firstResponse fs reads = some d ∧
      d.Prepared (refusal.textFor false) [] ∧ d.parser.linger = false := by
  induction reads generalizing c xs with
  | nil =>
      rw [List.flatten_nil, List.append_nil] at hbytes
      exact absurd (congrArg List.length hbytes) hp.lt.ne
  | cons bytes reads ih =>
      rw [List.flatten_cons, ← List.append_assoc] at hbytes
      have hlen := congrArg List.length hbytes
      rw [List.length_append] at hlen
      cases hhead : parseHead (xs.flatten ++ bytes) with
      | bad =>
          obtain ⟨d, hprocess, hd⟩ := hp.process_bad (by omega) hhead fs
          refine ⟨d, ?_, hd⟩
          rw [firstResponse, hprocess]
      | complete h rest =>
          have hmore := parseHead_append reads.flatten hhead
          rw [hbytes, hbad] at hmore
          cases hmore
      | incomplete h rest =>
          have hrest : reads.flatten ≠ [] := by
            intro hnil
            rw [hnil, List.append_nil] at hbytes
            rw [hbytes, hbad] at hhead
            cases hhead
          have hpos := List.length_pos_iff.mpr hrest
          obtain ⟨d, hwait, hd⟩ := hp.process_incomplete hhead (by omega) hfit fs
          have hflat : (xs ++ [bytes]).flatten = xs.flatten ++ bytes := by simp
          rw [firstResponse, hwait]
          exact ih hd (by rw [hflat, hbytes])

end HttpConn

end BackendLab.Proactor
