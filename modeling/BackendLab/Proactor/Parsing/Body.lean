import BackendLab.Proactor.Parsing.Grammar

/-!
# The body of a request

Behind the header section `process_read` only waits for `m_content_length`
bytes.  It does not leave the buffer alone while it waits: when the body is
incomplete the loop falls through to the line scanner, which moves
`m_checked_index` over body bytes, and that index is the one the next test
starts from.
-/

namespace BackendLab.Proactor

open Support

namespace Parser

variable {c d : Parser} {h : Head} {n : ℕ}

/-- The strings that the header lines have left in the buffer. -/
structure Carries (c : Parser) (h : Head) : Prop where
  url : c.PointsTo c.url h.url
  urlAt : h.url ≠ none → c.url = some h.urlAt
  host : c.PointsTo c.host h.host
  linger : c.linger = h.linger

theorem Represents.carries (hr : c.Represents h) : c.Carries h :=
  ⟨hr.url, hr.urlAt, hr.host, hr.linger⟩

theorem Carries.mono (hc : c.Carries h)
    (hstring : ∀ p t, StringAt c.mem p t → p + t.length < c.startLine →
      StringAt d.mem p t)
    (hstart : c.startLine ≤ d.startLine)
    (hfields : d.url = c.url ∧ d.host = c.host ∧ d.linger = c.linger) :
    d.Carries h := by
  obtain ⟨hurl, hhost, hlinger⟩ := hfields
  refine ⟨?_, fun h0 => hurl.trans (hc.urlAt h0), ?_, hlinger.trans hc.linger⟩
  · rw [hurl]
    exact hc.url.mono hstring hstart
  · rw [hhost]
    exact hc.host.mono hstring hstart

theorem Carries.cut (hc : c.Carries h) {i : ℕ} (hi : c.startLine ≤ i) :
    (c.cut i).Carries h := by
  refine hc.mono (fun p t hp hlt => ?_) le_rfl ⟨rfl, rfl, rfl⟩
  rw [cut_mem]
  exact hp.set_of_ne 0 (Or.inr (by omega))

/-- The connection waits for the body of a request with the header section
`h`, which ends before the index `n`. -/
structure InBody (c : Parser) (h : Head) (n : ℕ) : Prop where
  scanning : c.Scanning
  carries : c.Carries h
  checkState : c.checkState = .content
  contentLength : c.contentLength = h.contentLength
  start_le : n ≤ c.startLine

theorem HeadEnd.inBody {rest : Bytes} (he : HeadEnd c h rest) :
    InBody { c with checkState := .content } h c.startLine where
  scanning := ⟨he.scanning.start_le, he.scanning.checked_le,
    he.scanning.read_le, he.scanning.scanned, he.scanning.prev⟩
  carries := ⟨he.represents.url, he.represents.urlAt, he.represents.host,
    he.represents.linger⟩
  checkState := rfl
  contentLength := he.represents.contentLength
  start_le := le_rfl

namespace InBody

theorem receive (hb : c.InBody h n) {x : Bytes}
    (hfit : c.readIdx + x.length ≤ readBufferSize) :
    (c.receive x).InBody h n where
  scanning := hb.scanning.receive hfit
  carries := by
    have hstart := hb.scanning.start_le.trans hb.scanning.checked_le
    exact hb.carries.mono
      (fun p t hp hlt => stringAt_receive hp (by omega)) le_rfl ⟨rfl, rfl, rfl⟩
  checkState := hb.checkState
  contentLength := hb.contentLength
  start_le := hb.start_le

theorem restart (hb : c.InBody h n) : c.restart.InBody h n where
  scanning := hb.scanning.restart
  carries := hb.carries.mono (fun _ _ hp _ => hp) hb.scanning.start_le
    ⟨rfl, rfl, rfl⟩
  checkState := hb.checkState
  contentLength := hb.contentLength
  start_le := hb.start_le.trans hb.scanning.start_le

theorem moveTo (hb : c.InBody h n) :
    (c.moveTo (c.startLine + lineBytes c.unparsed)).InBody h n where
  scanning := hb.scanning.moveTo
  carries := ⟨hb.carries.url, hb.carries.urlAt, hb.carries.host,
    hb.carries.linger⟩
  checkState := hb.checkState
  contentLength := hb.contentLength
  start_le := hb.start_le

theorem carries_endLine (hb : c.InBody h n) (k : ℕ) :
    (c.endLine (c.startLine + k)).Carries h :=
  hb.carries.mono
    (fun _ _ hp hlt => stringAt_endLine_of_lt hp (by omega)) le_rfl
    ⟨rfl, rfl, rfl⟩

theorem endLine_restart (hb : c.InBody h n) {l rest : Bytes}
    (hsplit : splitLine c.unparsed = some (l, rest)) :
    (c.endLine (c.startLine + l.length)).restart.InBody h n where
  scanning := hb.scanning.endLine_restart hsplit
  carries := by
    refine (hb.carries_endLine l.length).mono (fun _ _ hp _ => hp) ?_
      ⟨rfl, rfl, rfl⟩
    change c.startLine ≤ c.startLine + l.length + 2
    omega
  checkState := hb.checkState
  contentLength := hb.contentLength
  start_le := by
    have hstart := hb.start_le
    change n ≤ c.startLine + l.length + 2
    omega

/-- A round that reaches the test of `parse_content` does so in a state that
is still waiting for the same body. -/
structure Tests (c e : Parser) (h : Head) (n : ℕ) : Prop where
  carries : e.Carries h
  checkState : e.checkState = .content
  contentLength : e.contentLength = h.contentLength
  start_le : n ≤ e.startLine
  start_le_checked : e.startLine ≤ e.checkedIndex
  restart : e.restart.InBody h n
  readIdx : e.readIdx = c.readIdx
  checked_le : c.checkedIndex ≤ e.checkedIndex

/-- One round of the main loop behind the header section. -/
theorem step (hb : c.InBody h n) (status : LineStatus) :
    (readRequestStep (status, c) = .inl (.noRequest,
        c.moveTo (c.startLine + lineBytes c.unparsed)) ∧
      splitLine c.unparsed = none) ∨
      ∃ e, Tests c e h n ∧ readRequestStep (status, c) = e.handleLine ∧
        (status = .ok → e = c) ∧
        (status ≠ .ok → splitLine c.unparsed ≠ none ∧
          c.checkedIndex < e.checkedIndex) := by
  by_cases hok : status = .ok
  · subst hok
    refine Or.inr ⟨c, ⟨hb.carries, hb.checkState, hb.contentLength, hb.start_le,
      hb.scanning.start_le, hb.restart, rfl, le_rfl⟩, readRequestStep_of_content hb.checkState,
      fun _ => rfl, fun h => absurd rfl h⟩
  · have hscan : ¬ (c.checkState = .content ∧ status = .ok) := fun h => hok h.2
    cases hsplit : splitLine c.unparsed with
    | none =>
        exact Or.inl ⟨step_of_splitLine_none hb.scanning hscan hsplit, rfl⟩
    | some p =>
        obtain ⟨l, rest⟩ := p
        have hscanned := hb.scanning.checked_le_lineBytes
        rw [lineBytes_of_splitLine hsplit] at hscanned
        refine Or.inr ⟨c.endLine (c.startLine + l.length),
          ⟨hb.carries_endLine _, hb.checkState, hb.contentLength, hb.start_le,
            ?_, hb.endLine_restart hsplit, rfl, ?_⟩,
          step_of_splitLine hb.scanning hscan hsplit, fun h => absurd h hok,
          fun _ => ⟨by simp, ?_⟩⟩
        · change c.startLine ≤ c.startLine + l.length + 2
          omega
        · change c.checkedIndex ≤ c.startLine + l.length + 2
          omega
        · change c.checkedIndex < c.startLine + l.length + 2
          omega

/-- The whole call: it waits on, or takes the bytes from the start of some line
of the body for the body. -/
theorem run (hb : c.InBody h n) (hpos : 0 ≤ h.contentLength)
    (status : LineStatus) :
    (∃ d, readRequestLoop.run (status, c) = (.noRequest, d) ∧ d.InBody h n ∧
        d.readIdx = c.readIdx ∧ c.checkedIndex ≤ d.checkedIndex) ∨
      ∃ i d, readRequestLoop.run (status, c) = (.doRequest (some i), d) ∧
        d.Carries h := by
  have hrun := readRequestLoop.run_invariant
    (fun s => s.2.InBody h n ∧ s.2.readIdx = c.readIdx ∧
      c.checkedIndex ≤ s.2.checkedIndex)
    (fun r => (∃ d, r = (.noRequest, d) ∧ d.InBody h n ∧
        d.readIdx = c.readIdx ∧ c.checkedIndex ≤ d.checkedIndex) ∨
      ∃ i d, r = (.doRequest (some i), d) ∧ d.Carries h)
    ?_ ?_ (status, c) ⟨hb, rfl, le_rfl⟩
  · exact hrun
  · rintro ⟨status, e⟩ ⟨status', e'⟩ ⟨he, hread, hchecked⟩ hstep
    rcases he.step status with ⟨hnone, -⟩ | ⟨f, ht, hline, -⟩
    · cases hnone.symm.trans hstep
    · have hnext := hline.symm.trans hstep
      rw [handleLine_of_content ht.checkState] at hnext
      split_ifs at hnext
      simp only [Sum.inr.injEq, Prod.mk.injEq] at hnext
      obtain ⟨-, rfl⟩ := hnext
      exact ⟨ht.restart, ht.readIdx.trans hread, hchecked.trans ht.checked_le⟩
  · rintro ⟨status, e⟩ r ⟨he, hread, hchecked⟩ hstep
    rcases he.step status with ⟨hnone, -⟩ | ⟨f, ht, hline, -⟩
    · left
      cases hnone.symm.trans hstep
      exact ⟨_, rfl, he.moveTo, hread,
        hchecked.trans he.scanning.checked_le_lineBytes⟩
    · right
      have hnext := hline.symm.trans hstep
      rw [handleLine_of_content ht.checkState] at hnext
      split_ifs at hnext with hcomplete hin
      · simp only [Sum.inl.injEq] at hnext
        refine ⟨_, _, hnext.symm, ?_⟩
        have hend : f.startLine ≤ (f.contentEnd f.startLine).toNat := by
          unfold contentEnd
          rw [ht.contentLength]
          omega
        exact (ht.carries.cut hend).mono (fun _ _ hp _ => hp)
          ht.start_le_checked ⟨rfl, rfl, rfl⟩
      · unfold contentEnd at hin
        rw [ht.contentLength] at hin
        omega

end InBody

/-! ## Lengths for which the test does not overflow -/

/-- The sum in the test of `parse_content` stays in the range of `int`. -/
def InRange (h : Head) : Prop :=
  0 < h.contentLength ∧ h.contentLength + readBufferSize < 2 ^ 31

theorem contentComplete_iff (hr : InRange h)
    (hlength : c.contentLength = h.contentLength)
    (hchecked : c.checkedIndex ≤ readBufferSize) :
    c.contentComplete ↔ h.contentLength + c.checkedIndex ≤ c.readIdx := by
  obtain ⟨hpos, hlt⟩ := hr
  unfold contentComplete
  rw [hlength, toInt32_eq_self (by omega) (by omega)]

/-- A negative length passes the test of `parse_content` at once. -/
theorem contentComplete_of_neg (hs : c.Scanning) (hneg : c.contentLength < 0)
    (hlength : c.contentLength = h.contentLength) : c.contentComplete := by
  have hrange := toInt32_range (clampLong h.declared)
  have hchecked := hs.checked_le
  have hread := hs.read_le
  rw [← Head.contentLength, ← hlength] at hrange
  unfold contentComplete
  rw [toInt32_eq_self (by omega) (by simp only [readBufferSize] at hread; omega)]
  omega

namespace InBody

theorem checked_le (hb : c.InBody h n) : c.checkedIndex ≤ readBufferSize :=
  hb.scanning.checked_le.trans hb.scanning.read_le

theorem readRequest_of_complete (hb : c.InBody h n) (hc : c.contentComplete) :
    c.readRequest = (.doRequest (some (c.contentEnd c.startLine)),
      if 0 ≤ c.contentEnd c.startLine then
        c.restart.cut (c.contentEnd c.startLine).toNat
      else c.restart) := by
  apply run_of_exit
  rw [readRequestStep_of_content hb.checkState,
    handleLine_of_content hb.checkState, if_pos hc]

/-- Once the test has failed it fails for the rest of the call, since the
scanner only moves `m_checked_index` forward. -/
theorem run_waits (hb : c.InBody h n) (hr : InRange h)
    (hwait : (c.readIdx : ℤ) < h.contentLength + c.checkedIndex)
    (status : LineStatus) :
    ∃ d, readRequestLoop.run (status, c) = (.noRequest, d) ∧ d.InBody h n ∧
      d.readIdx = c.readIdx ∧ c.checkedIndex ≤ d.checkedIndex := by
  have hno : ∀ (e f : Parser) (status : LineStatus), e.InBody h n →
      (e.readIdx : ℤ) < h.contentLength + e.checkedIndex →
      InBody.Tests e f h n → ¬ f.contentComplete := by
    intro e f status he hlt ht
    rw [contentComplete_iff hr ht.contentLength ht.restart.checked_le,
      ht.readIdx]
    have hle := ht.checked_le
    omega
  have hexit := readRequestLoop.run_invariant
    (fun s => s.2.InBody h n ∧
      (s.2.readIdx : ℤ) < h.contentLength + s.2.checkedIndex)
    (fun r => r.1 = .noRequest) ?_ ?_ (status, c) ⟨hb, hwait⟩
  · rcases hb.run (le_of_lt hr.1) status with hwaits | ⟨i, d, hrun, -⟩
    · exact hwaits
    · rw [hrun] at hexit
      cases hexit
  · rintro ⟨status, e⟩ ⟨status', e'⟩ ⟨he, hlt⟩ hstep
    rcases he.step status with ⟨hnone, -⟩ | ⟨f, ht, hline, -⟩
    · cases hnone.symm.trans hstep
    · have hnext := hline.symm.trans hstep
      rw [handleLine_of_content ht.checkState,
        if_neg (hno e f status he hlt ht)] at hnext
      simp only [Sum.inr.injEq, Prod.mk.injEq] at hnext
      obtain ⟨-, rfl⟩ := hnext
      have hle : e.checkedIndex ≤ f.checkedIndex := ht.checked_le
      simp only at hlt
      refine ⟨ht.restart, ?_⟩
      simp only [restart_readIdx, restart_checkedIndex, ht.readIdx]
      omega
  · rintro ⟨status, e⟩ r ⟨he, hlt⟩ hstep
    rcases he.step status with ⟨hnone, -⟩ | ⟨f, ht, hline, -⟩
    · cases hnone.symm.trans hstep
      rfl
    · have hnext := hline.symm.trans hstep
      rw [handleLine_of_content ht.checkState,
        if_neg (hno e f status he hlt ht)] at hnext
      cases hnext

end InBody

/-! ## A body of which nothing has been scanned yet -/

/-- The scanner stays where it is on the bytes `s`: they start with a line end
that is not the CRLF of an empty line. -/
def Stuck (s : Bytes) : Prop :=
  splitLine s = none ∧ lineBytes s = 0

/-- The connection waits for the body, has received `rest` of it, and has not
moved into it. -/
structure AtBody (c : Parser) (h : Head) (n : ℕ) (rest : Bytes) : Prop
    extends InBody c h n where
  checkedIndex : c.checkedIndex = n
  unparsed : c.unparsed = rest

theorem HeadEnd.atBody {rest : Bytes} (he : HeadEnd c h rest)
    (hn : c.startLine = n) :
    AtBody { c with checkState := .content } h n rest where
  toInBody := hn ▸ he.inBody
  checkedIndex := he.checkedIndex.trans hn
  unparsed := he.unparsed

namespace AtBody

variable {rest : Bytes}

theorem startLine (hb : c.AtBody h n rest) : c.startLine = n :=
  le_antisymm (hb.scanning.start_le.trans hb.checkedIndex.le) hb.start_le

theorem readIdx (hb : c.AtBody h n rest) : c.readIdx = n + rest.length := by
  have hlen := hb.scanning.length_unparsed
  have hstart := hb.scanning.start_le.trans hb.scanning.checked_le
  rw [hb.unparsed, hb.startLine] at hlen
  rw [hb.startLine] at hstart
  omega

theorem receive (hb : c.AtBody h n rest) {x : Bytes}
    (hfit : c.readIdx + x.length ≤ readBufferSize) :
    (c.receive x).AtBody h n (rest ++ x) where
  toInBody := hb.toInBody.receive hfit
  checkedIndex := hb.checkedIndex
  unparsed := by rw [unparsed_receive hb.scanning hfit, hb.unparsed]

theorem restart_eq (hb : c.AtBody h n rest) : c.restart = c := by
  have heq : c.startLine = c.checkedIndex :=
    hb.startLine.trans hb.checkedIndex.symm
  exact congrArg (fun i => { c with startLine := i }) heq.symm

/-- With a negative length the NUL lands in front of the body. -/
theorem readRequest_of_neg (hb : c.AtBody h n rest)
    (hneg : h.contentLength < 0) :
    c.readRequest = (.doRequest (some (n + h.contentLength)),
      if 0 ≤ n + h.contentLength then c.cut (n + h.contentLength).toNat
      else c) := by
  have hcomplete := contentComplete_of_neg hb.scanning
    (hb.contentLength.trans_lt hneg) hb.contentLength
  have hend : c.contentEnd c.startLine = n + h.contentLength := by
    rw [contentEnd, hb.contentLength, hb.startLine]
  rw [hb.readRequest_of_complete hcomplete, hend, hb.restart_eq]

/-- A complete body is recognised when nothing of it has been scanned. -/
theorem readRequest_of_le (hb : c.AtBody h n rest) (hr : InRange h)
    (hle : h.contentLength ≤ rest.length) :
    ∃ d, c.readRequest = (.doRequest (some (n + h.contentLength)), d) ∧
      d.Carries h := by
  have hcomplete : c.contentComplete := by
    rw [contentComplete_iff hr hb.contentLength hb.checked_le,
      hb.checkedIndex, hb.readIdx]
    push_cast
    omega
  have hend : c.contentEnd c.startLine = n + h.contentLength := by
    rw [contentEnd, hb.contentLength, hb.startLine]
  have hrun := hb.readRequest_of_complete hcomplete
  rw [hend, hb.restart_eq, if_pos (by have := hr.1; omega)] at hrun
  refine ⟨_, hrun, hb.carries.cut ?_⟩
  have hpos := hr.1
  rw [hb.startLine]
  omega

/-- While the body is incomplete, the call leaves `m_checked_index` where it is
exactly when the scanner is stuck on the first bytes of the body. -/
theorem readRequest_of_lt (hb : c.AtBody h n rest) (hr : InRange h)
    (hlt : rest.length < h.contentLength) :
    ∃ d, c.readRequest = (.noRequest, d) ∧ d.InBody h n ∧
      d.readIdx = c.readIdx ∧
      (Stuck rest → d.AtBody h n rest) ∧
      (¬ Stuck rest → n < d.checkedIndex) := by
  have hwait : (c.readIdx : ℤ) < h.contentLength + c.checkedIndex := by
    rw [hb.readIdx, hb.checkedIndex]
    push_cast
    omega
  have hincomplete : ¬ c.contentComplete := by
    rw [contentComplete_iff hr hb.contentLength hb.checked_le]
    omega
  have hfirst : readRequestStep (.ok, c) = .inr (.openLine, c) := by
    rw [readRequestStep_of_content hb.checkState,
      handleLine_of_content hb.checkState, if_neg hincomplete, hb.restart_eq]
  rw [readRequest, run_of_round hfirst]
  rcases hb.step .openLine with ⟨hstep, hnone⟩ | ⟨e, ht, hline, -, hmove⟩
  · refine ⟨_, run_of_exit hstep, hb.moveTo, rfl, fun hstuck => ?_,
      fun hstuck => ?_⟩
    · have hzero : lineBytes c.unparsed = 0 := by rw [hb.unparsed, hstuck.2]
      refine ⟨hb.moveTo, ?_, hb.unparsed⟩
      rw [moveTo_checkedIndex, hzero, hb.startLine, Nat.add_zero]
    · have hpos : lineBytes rest ≠ 0 := fun hzero =>
        hstuck ⟨by rwa [hb.unparsed] at hnone, hzero⟩
      rw [moveTo_checkedIndex, hb.startLine, hb.unparsed]
      omega
  · obtain ⟨hline', hmoved⟩ := hmove (by decide)
    have hstuck : ¬ Stuck rest := fun h => hline' (by rw [hb.unparsed, h.1])
    have hle := ht.checked_le
    have hfail : ¬ e.contentComplete := by
      rw [contentComplete_iff hr ht.contentLength ht.restart.checked_le,
        ht.readIdx]
      omega
    rw [handleLine_of_content ht.checkState, if_neg hfail] at hline
    obtain ⟨d, hrun, hd, hread, hchecked⟩ := ht.restart.run_waits hr (by
      simp only [restart_readIdx, restart_checkedIndex, ht.readIdx]
      omega) .openLine
    rw [run_of_round hline]
    refine ⟨d, hrun, hd, hread.trans ht.readIdx,
      fun h => absurd h hstuck, fun _ => ?_⟩
    have hstart := hb.checkedIndex
    simp only [restart_checkedIndex] at hchecked
    omega

end AtBody

end Parser

end BackendLab.Proactor
