import BackendLab.Proactor.Parsing.Splitting
import BackendLab.Support.Runs

/-!
# The indices of the read buffer

A run of one connection from `init()` on: `read()` and `process_read()` are called
in any order, whatever `recv` reports.  Until `do_request` is called the indices
into `m_read_buf` stay in order, `parse_line` looks only at bytes that have been
received, and the bytes it has not looked at are those that came last.

`process_read` is taken apart here into the evaluation of its loop condition and
the handling of a line, so that the states between the two are states of the run.
-/

namespace BackendLab.Proactor

open Support Relation

namespace Parser

variable {c d : Parser} {status : LineStatus}

/-! ## What the line scanner touches -/

/-- What a call of `parse_line` does: its result, the indices of `m_read_buf` that
it reads or writes, and whether it completes a line at an LF by looking back. -/
structure ScanLog where
  result : LineStatus × Parser
  touched : List ℕ
  looksBack : Bool

/-- The loop of `parse_line`, with what it touches. -/
def scanLineLog : ℕ → Parser → ScanLog
  | 0, c => ⟨(.openLine, c), [], false⟩
  | n + 1, c =>
      let i := c.checkedIndex
      if c.byteAt i = carriageReturn then
        if i + 1 = c.readIdx then ⟨(.openLine, c), [i], false⟩
        else if c.byteAt (i + 1) = lineFeed then
          ⟨(.ok, ((c.cut i).cut (i + 1)).moveTo (i + 2)), [i, i + 1], false⟩
        else ⟨(.bad, c), [i, i + 1], false⟩
      else if c.byteAt i = lineFeed then
        if 1 < i ∧ c.byteAt (i - 1) = carriageReturn then
          ⟨(.ok, ((c.cut (i - 1)).cut i).moveTo (i + 1)), [i, i - 1], true⟩
        else ⟨(.bad, c), if 1 < i then [i, i - 1] else [i], false⟩
      else
        let log := scanLineLog n (c.moveTo (i + 1))
        { log with touched := i :: log.touched }

def parseLineLog (c : Parser) : ScanLog :=
  scanLineLog (c.readIdx - c.checkedIndex) c

theorem scanLineLog_result (n : ℕ) (c : Parser) :
    (scanLineLog n c).result = scanLine n c := by
  induction n generalizing c with
  | zero => rfl
  | succ n ih =>
      simp only [scanLineLog, scanLine]
      split_ifs
      all_goals first
        | rfl
        | exact ih _

theorem parseLineLog_result (c : Parser) :
    c.parseLineLog.result = c.parseLine :=
  scanLineLog_result _ c

theorem touched_lt {n : ℕ} (hn : c.checkedIndex + n = c.readIdx) :
    ∀ i ∈ (scanLineLog n c).touched, i < c.readIdx := by
  induction n generalizing c with
  | zero => simp [scanLineLog]
  | succ n ih =>
      have hrest := ih (c := c.moveTo (c.checkedIndex + 1)) (by
        simp only [moveTo_checkedIndex, moveTo_readIdx]
        omega)
      simp only [scanLineLog]
      split_ifs with hcr hend hlf hlf hback hback
      all_goals simp only [List.mem_cons, List.not_mem_nil, or_false,
        forall_eq_or_imp, forall_eq]
      · omega
      · omega
      · omega
      · omega
      · omega
      · omega
      · exact ⟨by omega, hrest⟩

theorem looksBack_eq_false (n : ℕ) (hprev : c.PrevNotCr) :
    (scanLineLog n c).looksBack = false := by
  induction n generalizing c with
  | zero => rfl
  | succ n ih =>
      simp only [scanLineLog]
      split_ifs with hcr hend hlf hlf hback
      · rfl
      · rfl
      · rfl
      · rcases hprev with hzero | hne
        · omega
        · exact absurd hback.2 hne
      · rfl
      · rfl
      · have hnext : (c.moveTo (c.checkedIndex + 1)).PrevNotCr := .inr hcr
        exact ih hnext

/-! ## What handling a line leaves alone -/

/-- A request line that is refused is cut only inside its own text, too. -/
theorem handleLine_refused {t : Bytes} (h : StringAt c.mem c.startLine t)
    (hbad : c.handleLine = .inl (.badRequest, d)) :
    d.readIdx = c.readIdx ∧ d.checkedIndex = c.checkedIndex ∧
      d.startLine = c.checkedIndex ∧
      ∀ k, c.startLine + t.length ≤ k → d.mem.drop k = c.mem.drop k := by
  cases hstate : c.checkState with
  | requestLine =>
      have hframe := parseRequestLine_frame c.restart c.startLine
      rw [parseRequestLine_eq (c := c.restart) h] at hframe
      rw [handleLine_of_requestLine hstate h] at hbad
      split at hbad
      next heq =>
        obtain rfl := (Prod.mk.inj (Sum.inl.inj hbad)).2
        rw [heq] at hframe
        refine ⟨hframe.1, hframe.2.1, hframe.2.2, fun k hk => ?_⟩
        have hdrop := applyRequestLine_drop c.restart hk
        rwa [heq] at hdrop
      · cases hbad
  | header =>
      rw [handleLine_of_header hstate h] at hbad
      split_ifs at hbad
      all_goals cases hbad
  | content =>
      rw [handleLine_of_content hstate] at hbad
      split_ifs at hbad
      all_goals cases hbad

/-- The scanning invariant, for a line that has just been handled. -/
theorem Scanning.handled (hs : c.Scanning) (hread : d.readIdx = c.readIdx)
    (hchecked : d.checkedIndex = c.checkedIndex)
    (hstart : d.startLine = c.checkedIndex)
    (hmem : d.mem.drop (c.checkedIndex - 1) = c.mem.drop (c.checkedIndex - 1)) :
    d.Scanning where
  start_le := by omega
  checked_le := by
    rw [hread, hchecked]
    exact hs.checked_le
  read_le := hread ▸ hs.read_le
  scanned := by simp [hstart, hchecked]
  prev := by
    have hbyte : d.byteAt (c.checkedIndex - 1) =
        c.byteAt (c.checkedIndex - 1) := by
      have hhead := congrArg (fun m => m[0]?) hmem
      simp only [List.getElem?_drop, Nat.add_zero] at hhead
      simp only [byteAt, List.getD, hhead]
    rw [hstart, hbyte]
    exact hs.prevNotCr

/-- The state behind a completed line is one in which the line has been
scanned. -/
theorem Scanning.endLine (hs : c.Scanning) {l rest : Bytes}
    (hsplit : splitLine c.unparsed = some (l, rest)) :
    (c.endLine (c.startLine + l.length)).Scanning where
  start_le := by
    change c.startLine ≤ c.startLine + l.length + 2
    omega
  checked_le := by
    have hidx := hs.readIdx_eq hsplit
    change c.startLine + l.length + 2 ≤ c.readIdx
    omega
  read_le := hs.read_le
  scanned := by
    have hline : ((c.endLine (c.startLine + l.length)).mem.drop
        c.startLine).take (l.length + 2) = l ++ [0, 0] := by
      have hmem := hs.drop_startLine hsplit
      simp only [Parser.endLine, moveTo_mem, cut_mem]
      rw [List.drop_set, if_neg (by omega), List.drop_set, if_neg (by omega),
        hmem,
        show c.startLine + l.length + 1 - c.startLine = l.length + 1 by omega,
        show c.startLine + l.length - c.startLine = l.length by omega]
      simp [List.take_append, List.take_of_length_le]
    have hwidth : (c.endLine (c.startLine + l.length)).checkedIndex -
        (c.endLine (c.startLine + l.length)).startLine = l.length + 2 := by
      change c.startLine + l.length + 2 - c.startLine = _
      omega
    have hstart : (c.endLine (c.startLine + l.length)).startLine =
        c.startLine := rfl
    rw [hwidth, hstart, hline]
    intro b hb
    rcases List.mem_append.mp hb with hb | hb
    · exact (splitLine_eq_some_iff.mp hsplit).2 b hb
    · obtain rfl : b = 0 := by simpa using hb
      decide
  prev := by
    by_cases hzero : c.startLine = 0
    · exact .inl hzero
    · right
      have hsame : (c.endLine (c.startLine + l.length)).byteAt
          (c.startLine - 1) = c.byteAt (c.startLine - 1) := by
        simp only [byteAt, List.getD, Parser.endLine, moveTo_mem, cut_mem]
        rw [List.getElem?_set_ne (by omega), List.getElem?_set_ne (by omega)]
      change (c.endLine (c.startLine + l.length)).byteAt (c.startLine - 1) ≠ _
      rw [hsame]
      exact hs.prev.resolve_left hzero

end Parser

/-! ## The loop of `process_read` ends -/

namespace Parser

variable {c d : Parser} {status status' : LineStatus}

theorem scanLine_checked_le {n : ℕ} (hn : c.checkedIndex + n = c.readIdx) :
    (scanLine n c).2.checkedIndex ≤ c.readIdx := by
  induction n generalizing c with
  | zero =>
      simp only [scanLine]
      omega
  | succ n ih =>
      simp only [scanLine]
      split_ifs
      all_goals try simp only [moveTo_checkedIndex]
      · omega
      · omega
      · omega
      · omega
      · omega
      · refine ih (c := c.moveTo (c.checkedIndex + 1)) ?_
        simp only [moveTo_checkedIndex, moveTo_readIdx]
        omega

/-- A round keeps `m_checked_index` inside the bytes received. -/
theorem checked_le_of_round (h : c.checkedIndex ≤ c.readIdx)
    (hround : readRequestStep (status, c) = .inr (status', d)) :
    d.checkedIndex ≤ d.readIdx := by
  by_cases hscan : c.checkState = .content ∧ status = .ok
  · obtain ⟨hstate, rfl⟩ := hscan
    rw [readRequestStep_of_content hstate] at hround
    obtain ⟨hread, hchecked, -, -⟩ := handleLine_frame hround
    rw [hread, hchecked]
    exact h
  · have hparse := scanLine_checked_le (Nat.add_sub_cancel' h)
    have hframe := (scanLine_frame (c.readIdx - c.checkedIndex) c).1
    rw [← parseLine] at hparse hframe
    rw [readRequestStep_of_scan hscan] at hround
    split at hround
    next e hline =>
      obtain ⟨hread, hchecked, -, -⟩ := handleLine_frame hround
      rw [hline] at hparse hframe
      rw [hread, hchecked, hframe]
      exact hparse
    next => cases hround

/-- Twice the number of bytes received and not looked at, and one more if the body
of the request is to be tested next. -/
def remaining : LineStatus × Parser → ℤ
  | (status, c) =>
      2 * ((c.readIdx : ℤ) - c.checkedIndex) +
        if c.checkState = .content ∧ status = .ok then 1 else 0

theorem remaining_eq_rank (h : c.checkedIndex ≤ c.readIdx) :
    remaining (status, c) = readRequestRank (status, c) := by
  simp only [remaining, readRequestRank]
  split <;> omega

/-- From every state with `m_checked_index <= m_read_idx` the loop of
`process_read` ends: what remains is never negative and gets less in every round,
so that there are no more rounds than remain at first. -/
theorem readRequest_terminates (h : c.checkedIndex ≤ c.readIdx) :
    (∀ s, ReflTransGen (fun s t => readRequestStep s = .inr t) (.ok, c) s →
      0 ≤ remaining s ∧
        ∀ t, readRequestStep s = .inr t → remaining t < remaining s) ∧
      readRequestLoop.runFor ((remaining (.ok, c)).toNat + 1) (.ok, c) =
        some c.readRequest := by
  constructor
  · intro s hrounds
    have hs : s.2.checkedIndex ≤ s.2.readIdx :=
      invariant_of_run (I := fun s : LineStatus × Parser =>
        s.2.checkedIndex ≤ s.2.readIdx) hrounds h
        fun s t hs hround => checked_le_of_round hs hround
    obtain ⟨status, d⟩ := s
    rw [remaining_eq_rank hs]
    refine ⟨Int.natCast_nonneg _, ?_⟩
    rintro ⟨status', e⟩ hround
    rw [remaining_eq_rank (checked_le_of_round hs hround)]
    exact Int.ofNat_lt.mpr (readRequestRank_lt hround)
  · rw [remaining_eq_rank h, Int.toNat_natCast]
    exact readRequestLoop.runFor_eq_some_run (Nat.lt_succ_self _)

/-- A body of one byte, announced as two, is tested and then scanned. -/
theorem readRequest_terminates_body :
    readRequestLoop.runFor 4 (.ok, { Parser.fresh with
        readIdx := 1, checkState := .content, contentLength := 2 }) =
      some { Parser.fresh with
        readIdx := 1, checkState := .content, contentLength := 2 }.readRequest :=
  (readRequest_terminates (c := { Parser.fresh with
    readIdx := 1, checkState := .content, contentLength := 2 }) (by decide)).2

end Parser

/-! ## Runs from `init()` on -/

/-- Where a run stands: outside of `process_read`, at the condition of its loop
with the value of `line_status`, or in the body of the loop. -/
inductive Reader.Place where
  | outside
  | condition (status : LineStatus)
  | body
  deriving DecidableEq, Repr

/-- A connection that is being read, with all bytes received since `init()`. -/
structure Reader where
  parser : Parser
  received : Bytes
  place : Reader.Place

def Reader.init : Reader := ⟨.fresh, [], .outside⟩

/-- The steps of `read()` and `process_read()`.  There is none behind a call of
`do_request`. -/
inductive ReaderStep : Reader → Reader → Prop
  | read {c d : Parser} {received : Bytes} {outcomes : List RecvOutcome}
      {ok : Bool} (h : c.read outcomes = some (ok, d)) :
      ReaderStep ⟨c, received, .outside⟩
        ⟨d, received ++ c.readBytes outcomes, .outside⟩
  | processRead {c : Parser} {received : Bytes} :
      ReaderStep ⟨c, received, .outside⟩ ⟨c, received, .condition .ok⟩
  | content {c : Parser} {received : Bytes} (h : c.checkState = .content) :
      ReaderStep ⟨c, received, .condition .ok⟩ ⟨c, received, .body⟩
  | line {c d : Parser} {received : Bytes} {status : LineStatus}
      (hscan : ¬ (c.checkState = .content ∧ status = .ok))
      (h : c.parseLine = (.ok, d)) :
      ReaderStep ⟨c, received, .condition status⟩ ⟨d, received, .body⟩
  | noRequest {c d : Parser} {received : Bytes} {status status' : LineStatus}
      (hscan : ¬ (c.checkState = .content ∧ status = .ok))
      (h : c.parseLine = (status', d)) (hstatus : status' ≠ .ok) :
      ReaderStep ⟨c, received, .condition status⟩ ⟨d, received, .outside⟩
  | handle {c d : Parser} {received : Bytes} {status : LineStatus}
      (h : c.handleLine = .inr (status, d)) :
      ReaderStep ⟨c, received, .body⟩ ⟨d, received, .condition status⟩
  | badRequest {c d : Parser} {received : Bytes}
      (h : c.handleLine = .inl (.badRequest, d)) :
      ReaderStep ⟨c, received, .body⟩ ⟨d, received, .outside⟩

namespace Reader

variable {s t : Reader}

/-- The bytes that the parser has not looked at are those received last, and a
line that is to be handled is a string that ends before them. -/
structure InOrder (s : Reader) : Prop where
  scanning : s.parser.Scanning
  length : s.parser.readIdx = s.received.length
  unscanned : (s.parser.mem.drop s.parser.checkedIndex).take
      (s.parser.readIdx - s.parser.checkedIndex) =
    s.received.drop s.parser.checkedIndex
  line : s.place = .body → s.parser.checkState = .content ∨
    ∃ text, StringAt s.parser.mem s.parser.startLine text ∧
      s.parser.startLine + text.length < s.parser.checkedIndex

theorem inOrder_init : init.InOrder where
  scanning := Parser.scanning_fresh
  length := rfl
  unscanned := by simp [init, Parser.fresh]
  line := nofun

/-- The part of the buffer behind `j` is what came last, if that behind `i` is. -/
theorem unscanned_mono {m received : Bytes} {i j n : ℕ} (hij : i ≤ j)
    (h : (m.drop i).take (n - i) = received.drop i) :
    (m.drop j).take (n - j) = received.drop j := by
  have hdrop := congrArg (List.drop (j - i)) h
  rw [List.drop_take, List.drop_drop, List.drop_drop,
    Nat.add_sub_cancel' hij] at hdrop
  rw [← hdrop]
  congr 1
  omega

section Steps

variable {c d : Parser} {received : Bytes} {status : LineStatus}

theorem InOrder.read {outcomes : List RecvOutcome} {ok : Bool}
    (hs : InOrder ⟨c, received, .outside⟩)
    (h : c.read outcomes = some (ok, d)) :
    InOrder ⟨d, received ++ c.readBytes outcomes, .outside⟩ := by
  have hscanning : c.Scanning := hs.scanning
  have hlength : c.readIdx = received.length := hs.length
  have hchecked := hscanning.checked_le
  obtain ⟨rfl, hfit⟩ := Parser.read_eq_receive h hscanning.read_le
  generalize c.readBytes outcomes = bytes at hfit ⊢
  refine ⟨hscanning.receive hfit, ?_, ?_, nofun⟩
  · simp only [Parser.receive_readIdx, List.length_append, hlength]
  · have hold : (c.mem.drop c.checkedIndex).take (c.readIdx - c.checkedIndex) =
        received.drop c.checkedIndex := hs.unscanned
    have htake : (c.mem.take c.readIdx).length = c.readIdx := by
      rw [List.length_take, Parser.length_mem]
      omega
    have hall : (c.receive bytes).mem.take (c.readIdx + bytes.length) =
        c.mem.take c.readIdx ++ bytes := by
      rw [Parser.mem_receive hfit, ← List.append_assoc]
      exact List.take_left' (by rw [List.length_append, htake])
    simp only [Parser.receive_checkedIndex, Parser.receive_readIdx]
    rw [← List.drop_take, hall, List.drop_append_of_le_length (by omega),
      List.drop_append_of_le_length (by omega), List.drop_take, hold]

theorem InOrder.parseLine {place : Place}
    (hs : InOrder ⟨c, received, .condition status⟩) {status' : LineStatus}
    (h : c.parseLine = (status', d))
    (hplace : place = if status' = .ok then .body else .outside) :
    InOrder ⟨d, received, place⟩ := by
  have hscanning : c.Scanning := hs.scanning
  have hline := hscanning.parseLine_eq
  have hscanned := hscanning.checked_le_lineBytes
  cases hsplit : splitLine c.unparsed with
  | none =>
      rw [hsplit] at hline
      obtain ⟨status'', hne, hline⟩ := hline
      rw [hline] at h
      obtain ⟨rfl, rfl⟩ := Prod.mk.inj h
      rw [if_neg hne] at hplace
      refine ⟨hscanning.moveTo, hs.length, ?_, by simp [hplace]⟩
      exact unscanned_mono hscanned hs.unscanned
  | some p =>
      obtain ⟨l, rest⟩ := p
      rw [hsplit] at hline
      simp only at hline
      rw [hline] at h
      obtain ⟨rfl, rfl⟩ := Prod.mk.inj h
      rw [lineBytes_of_splitLine hsplit] at hscanned
      refine ⟨hscanning.endLine hsplit, hs.length, ?_, fun _ => .inr ?_⟩
      · have hmem : (c.endLine (c.startLine + l.length)).mem.drop
            (c.startLine + l.length + 2) =
              c.mem.drop (c.startLine + l.length + 2) :=
          Parser.drop_endLine c _
        have hle : c.checkedIndex ≤ c.startLine + l.length + 2 := by omega
        change ((c.endLine (c.startLine + l.length)).mem.drop
          (c.startLine + l.length + 2)).take _ = _
        rw [hmem]
        exact unscanned_mono hle hs.unscanned
      · refine ⟨lineText l, hscanning.stringAt_line hsplit, ?_⟩
        have hle := lineText_length_le l
        change c.startLine + (lineText l).length < c.startLine + l.length + 2
        omega

/-- Behind a line that has been handled, whatever the parser made of it. -/
theorem InOrder.handled {place : Place} {text : Bytes}
    (hs : InOrder ⟨c, received, .body⟩)
    (htext : c.startLine + text.length < c.checkedIndex)
    (hread : d.readIdx = c.readIdx)
    (hchecked : d.checkedIndex = c.checkedIndex)
    (hstart : d.startLine = c.checkedIndex)
    (hmem : ∀ k, c.startLine + text.length ≤ k → d.mem.drop k = c.mem.drop k)
    (hplace : place ≠ .body) : InOrder ⟨d, received, place⟩ := by
  have hscanning : c.Scanning := hs.scanning
  refine ⟨hscanning.handled hread hchecked hstart (hmem _ (by omega)),
    hread.trans hs.length, ?_, fun h => absurd h hplace⟩
  simp only [hread, hchecked, hmem c.checkedIndex (by omega)]
  exact hs.unscanned

theorem InOrder.handle (hs : InOrder ⟨c, received, .body⟩)
    (h : c.handleLine = .inr (status, d)) :
    InOrder ⟨d, received, .condition status⟩ := by
  by_cases hstate : c.checkState = .content
  · rw [Parser.handleLine_of_content hstate] at h
    split_ifs at h
    obtain ⟨-, rfl⟩ := Prod.mk.inj (Sum.inr.inj h)
    exact ⟨hs.scanning.restart, hs.length, hs.unscanned, nofun⟩
  · obtain ⟨text, hstring, htext⟩ := (hs.line rfl).resolve_left hstate
    obtain ⟨hread, hchecked, hstart, -⟩ := Parser.handleLine_frame h
    obtain ⟨-, hmem⟩ := Parser.handleLine_next hstate hstring h
    exact hs.handled htext hread hchecked hstart hmem (by simp)

theorem InOrder.badRequest (hs : InOrder ⟨c, received, .body⟩)
    (h : c.handleLine = .inl (.badRequest, d)) :
    InOrder ⟨d, received, .outside⟩ := by
  rcases hs.line rfl with hstate | ⟨text, hstring, htext⟩
  · have hstate' : c.checkState = .content := hstate
    rw [Parser.handleLine_of_content hstate'] at h
    split_ifs at h
    all_goals cases h
  · obtain ⟨hread, hchecked, hstart, hmem⟩ :=
      Parser.handleLine_refused hstring h
    exact hs.handled htext hread hchecked hstart hmem (by simp)

end Steps

theorem InOrder.step (hs : s.InOrder) (h : ReaderStep s t) : t.InOrder := by
  cases h with
  | read h => exact hs.read h
  | processRead => exact ⟨hs.scanning, hs.length, hs.unscanned, nofun⟩
  | content h => exact ⟨hs.scanning, hs.length, hs.unscanned, fun _ => .inl h⟩
  | line hscan h => exact hs.parseLine h rfl
  | noRequest hscan h hstatus => exact hs.parseLine h (if_neg hstatus).symm
  | handle h => exact hs.handle h
  | badRequest h => exact hs.badRequest h

/-- In every state that a run from `init()` reaches before `do_request` is called,
the indices are in order and inside the read buffer; a call of `parse_line` touches
only bytes that have been received, and does not complete a line by looking back
from an LF; and the bytes that have not been looked at are those received last. -/
theorem indices_in_order (h : ReflTransGen ReaderStep init s) :
    s.parser.startLine ≤ s.parser.checkedIndex ∧
      s.parser.checkedIndex ≤ s.parser.readIdx ∧
      s.parser.readIdx ≤ readBufferSize ∧
      (∀ i ∈ s.parser.parseLineLog.touched, i < s.parser.readIdx) ∧
      s.parser.parseLineLog.looksBack = false ∧
      s.parser.parseLineLog.result = s.parser.parseLine ∧
      (s.parser.mem.drop s.parser.checkedIndex).take
          (s.parser.readIdx - s.parser.checkedIndex) =
        s.received.drop (s.received.length -
          (s.parser.readIdx - s.parser.checkedIndex)) := by
  have hs : s.InOrder := invariant_of_run h inOrder_init
    fun s t hs hstep => hs.step hstep
  have hchecked := hs.scanning.checked_le
  refine ⟨hs.scanning.start_le, hchecked, hs.scanning.read_le, ?_,
    Parser.looksBack_eq_false _ hs.scanning.prevNotCr,
    Parser.parseLineLog_result _, ?_⟩
  · exact Parser.touched_lt (Nat.add_sub_cancel' hchecked)
  · rw [hs.unscanned, ← hs.length, Nat.sub_sub_self hchecked]

/-- A CR is received, and scanned as the possible start of a line end. -/
theorem indices_in_order_cr :
    ∃ s, ReflTransGen ReaderStep init s ∧ s.received = [carriageReturn] ∧
      s.place = .condition .ok ∧ s.parser.checkedIndex ≤ s.parser.readIdx ∧
      ∀ i ∈ s.parser.parseLineLog.touched, i < s.parser.readIdx := by
  have hdata : Parser.fresh.read [.data [carriageReturn], .eagain] =
      some (true, Parser.fresh.receive [carriageReturn]) :=
    Parser.read_data_eagain (by decide) (by decide)
  have hread : ReaderStep init
      ⟨Parser.fresh.receive [carriageReturn], [carriageReturn], .outside⟩ :=
    .read hdata
  have hrun := (ReflTransGen.single hread).tail .processRead
  have horder := indices_in_order hrun
  exact ⟨_, hrun, rfl, rfl, horder.2.1, horder.2.2.2.1⟩

/-! ## Whole calls of `process_read` -/

section Calls

variable {c d : Parser} {received : Bytes} {status status' : LineStatus}

theorem steps_of_round
    (h : Parser.readRequestStep (status, c) = .inr (status', d)) :
    ReflTransGen ReaderStep ⟨c, received, .condition status⟩
      ⟨d, received, .condition status'⟩ := by
  by_cases hscan : c.checkState = .content ∧ status = .ok
  · obtain ⟨hstate, rfl⟩ := hscan
    rw [Parser.readRequestStep_of_content hstate] at h
    exact (ReflTransGen.single (.content hstate)).tail (.handle h)
  · rw [Parser.readRequestStep_of_scan hscan] at h
    split at h
    next e hline => exact (ReflTransGen.single (.line hscan hline)).tail (.handle h)
    next => cases h

theorem steps_of_exit {exit : Parser.ReadExit}
    (h : Parser.readRequestStep (status, c) = .inl (exit, d))
    (hexit : exit = .noRequest ∨ exit = .badRequest) :
    ReflTransGen ReaderStep ⟨c, received, .condition status⟩
      ⟨d, received, .outside⟩ := by
  have hhandle : ∀ e : Parser, e.handleLine = .inl (exit, d) →
      ReaderStep ⟨e, received, .body⟩ ⟨d, received, .outside⟩ := by
    intro e he
    rcases hexit with rfl | rfl
    · exact absurd he (Parser.handleLine_ne_noRequest e d)
    · exact .badRequest he
  by_cases hscan : c.checkState = .content ∧ status = .ok
  · obtain ⟨hstate, rfl⟩ := hscan
    rw [Parser.readRequestStep_of_content hstate] at h
    exact (ReflTransGen.single (.content hstate)).tail (hhandle c h)
  · rw [Parser.readRequestStep_of_scan hscan] at h
    split at h
    next e hline =>
      exact (ReflTransGen.single (.line hscan hline)).tail (hhandle e h)
    next status' e hne hline =>
      obtain ⟨-, rfl⟩ := Prod.mk.inj (Sum.inl.inj h)
      exact ReflTransGen.single (.noRequest hscan hline hne)

/-- A call of `process_read` that does not come to `do_request` is a part of a
run. -/
theorem steps_of_readRequest {exit : Parser.ReadExit}
    (h : c.readRequest = (exit, d))
    (hexit : exit = .noRequest ∨ exit = .badRequest) :
    ReflTransGen ReaderStep ⟨c, received, .outside⟩ ⟨d, received, .outside⟩ := by
  obtain ⟨⟨status, e⟩, hrounds, hlast⟩ :=
    Parser.readRequestLoop.exists_rounds (.ok, c)
  rw [← Parser.readRequest, h] at hlast
  have hsteps : ReflTransGen ReaderStep ⟨c, received, .condition .ok⟩
      ⟨e, received, .condition status⟩ := by
    refine hrounds.lift' (fun s : LineStatus × Parser =>
      (⟨s.2, received, .condition s.1⟩ : Reader)) ?_
    rintro ⟨status, c⟩ ⟨status', d⟩ hround
    exact steps_of_round hround
  exact ((ReflTransGen.single .processRead).trans hsteps).trans
    (steps_of_exit hlast hexit)

end Calls

end Reader

end BackendLab.Proactor
