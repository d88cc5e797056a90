import BackendLab.Proactor.Connection.Model
import BackendLab.Support.Loop

/-!
# The request parser

`parse_line`, `parse_request_line`, `parse_headers`, `parse_content` and the
loop of `process_read`, on the connection object they share.  The parser cuts
the read buffer in place: line ends and separators become NULs, and `m_url`,
`m_version` and `m_host` point between them.

`do_request` needs the file system and is modelled with the response.  Here
`readRequest` is `process_read` up to that call.
-/

namespace BackendLab.Proactor

open Support

/-- The separators of a request line, and the blanks skipped in a header. -/
def blanks : Bytes := ascii " \t"

def slash : UInt8 := 47

namespace Parser

/-- `m_read_buf` as the memory that the string functions work on. -/
def mem (c : Parser) : Bytes := c.readBuf.toList

def byteAt (c : Parser) (i : ℕ) : UInt8 := c.mem.getD i 0

/-- `m_read_buf[i] = '\0'`. -/
def cut (c : Parser) (i : ℕ) : Parser :=
  { c with readBuf := c.readBuf.setIfInBounds i 0 }

/-- `m_checked_index = i`. -/
def moveTo (c : Parser) (i : ℕ) : Parser :=
  { c with checkedIndex := i }

/-- `m_start_line = m_checked_index`. -/
def restart (c : Parser) : Parser :=
  { c with startLine := c.checkedIndex }

section Fields

variable (c : Parser) (i : ℕ)

@[simp] theorem cut_mem : (c.cut i).mem = c.mem.set i 0 := by
  simp [cut, mem]

@[simp] theorem cut_readIdx : (c.cut i).readIdx = c.readIdx := rfl
@[simp] theorem cut_checkedIndex : (c.cut i).checkedIndex = c.checkedIndex := rfl
@[simp] theorem cut_startLine : (c.cut i).startLine = c.startLine := rfl
@[simp] theorem cut_checkState : (c.cut i).checkState = c.checkState := rfl
@[simp] theorem cut_contentLength :
    (c.cut i).contentLength = c.contentLength := rfl
@[simp] theorem moveTo_mem : (c.moveTo i).mem = c.mem := rfl
@[simp] theorem moveTo_readIdx : (c.moveTo i).readIdx = c.readIdx := rfl
@[simp] theorem moveTo_checkedIndex : (c.moveTo i).checkedIndex = i := rfl
@[simp] theorem moveTo_startLine : (c.moveTo i).startLine = c.startLine := rfl
@[simp] theorem moveTo_checkState :
    (c.moveTo i).checkState = c.checkState := rfl
@[simp] theorem moveTo_contentLength :
    (c.moveTo i).contentLength = c.contentLength := rfl

@[simp] theorem restart_mem : c.restart.mem = c.mem := rfl
@[simp] theorem restart_readIdx : c.restart.readIdx = c.readIdx := rfl
@[simp] theorem restart_checkedIndex :
    c.restart.checkedIndex = c.checkedIndex := rfl
@[simp] theorem restart_startLine : c.restart.startLine = c.checkedIndex := rfl
@[simp] theorem restart_checkState :
    c.restart.checkState = c.checkState := rfl
@[simp] theorem restart_contentLength :
    c.restart.contentLength = c.contentLength := rfl

@[simp] theorem length_mem : c.mem.length = readBufferSize := by
  simp [mem]

end Fields

/-! ## The line scanner -/

/-- The `for` loop of `parse_line`, with the number of bytes left to look at. -/
def scanLine : ℕ → Parser → LineStatus × Parser
  | 0, c => (.openLine, c)
  | n + 1, c =>
      let i := c.checkedIndex
      if c.byteAt i = carriageReturn then
        if i + 1 = c.readIdx then (.openLine, c)
        else if c.byteAt (i + 1) = lineFeed then
          (.ok, ((c.cut i).cut (i + 1)).moveTo (i + 2))
        else (.bad, c)
      else if c.byteAt i = lineFeed then
        if 1 < i ∧ c.byteAt (i - 1) = carriageReturn then
          (.ok, ((c.cut (i - 1)).cut i).moveTo (i + 1))
        else (.bad, c)
      else scanLine n (c.moveTo (i + 1))

def parseLine (c : Parser) : LineStatus × Parser :=
  scanLine (c.readIdx - c.checkedIndex) c

/-! ## Request line, headers and body -/

/-- The last part of `parse_request_line`: an absolute target loses its
scheme and host, and what is left has to start with a slash. -/
def parseTarget (c : Parser) (u : ℕ) : HttpCode × Parser :=
  let c :=
    if strncasecmpEq c.mem u (ascii "http://") 7 then
      { c with url := strchr c.mem (u + 7) slash }
    else c
  match c.url with
  | none => (.badRequest, c)
  | some u =>
      if c.byteAt u = slash then (.noRequest, { c with checkState := .header })
      else (.badRequest, c)

def parseRequestLine (c : Parser) (text : ℕ) : HttpCode × Parser :=
  match strpbrk c.mem text blanks with
  | none => (.badRequest, { c with url := none })
  | some q =>
      let c := { c.cut q with url := some (q + 1) }
      if strcasecmpEq c.mem text (ascii "GET") then
        let c := { c with method := .get }
        match strpbrk c.mem (q + 1) blanks with
        | none => (.badRequest, { c with version := none })
        | some r =>
            let c := { c.cut r with version := some (r + 1) }
            if strcasecmpEq c.mem (r + 1) (ascii "HTTP/1.1") then
              c.parseTarget (q + 1)
            else (.badRequest, c)
      else (.badRequest, c)

def parseHeaders (c : Parser) (text : ℕ) : HttpCode × Parser :=
  if c.byteAt text = 0 then
    if c.contentLength ≠ 0 then (.noRequest, { c with checkState := .content })
    else (.getRequest, c)
  else if strncasecmpEq c.mem text (ascii "Connection:") 11 then
    let text := text + 11
    let text := text + strspn c.mem text blanks
    if strcasecmpEq c.mem text (ascii "keep-alive") then
      (.noRequest, { c with linger := true })
    else (.noRequest, c)
  else if strncasecmpEq c.mem text (ascii "Content-Length:") 15 then
    let text := text + 15
    let text := text + strspn c.mem text blanks
    (.noRequest, { c with contentLength := toInt32 (atol (cstr c.mem text)) })
  else if strncasecmpEq c.mem text (ascii "Host:") 5 then
    let text := text + 5
    let text := text + strspn c.mem text blanks
    (.noRequest, { c with host := some text })
  else (.noRequest, c)

/-- The test of `parse_content`, with the `int` addition it makes. -/
def contentComplete (c : Parser) : Prop :=
  toInt32 (c.contentLength + c.checkedIndex) ≤ c.readIdx

instance (c : Parser) : Decidable c.contentComplete :=
  inferInstanceAs (Decidable (_ ≤ _))

/-- The index of `m_read_buf` at which `parse_content(text)` stores its NUL. -/
def contentEnd (c : Parser) (text : ℕ) : ℤ :=
  text + c.contentLength

/-- A store outside `m_read_buf` hits something that is not modelled here. -/
def parseContent (c : Parser) (text : ℕ) : HttpCode × Parser :=
  if c.contentComplete then
    if 0 ≤ c.contentEnd text then (.getRequest, c.cut (c.contentEnd text).toNat)
    else (.getRequest, c)
  else (.noRequest, c)

/-! ## The main loop -/

/-- How `process_read` is left.  With `doRequest` comes the index of the NUL
that `parse_content` stored, when the request has a body. -/
inductive ReadExit where
  | noRequest
  | badRequest
  | doRequest (stored : Option ℤ)
  deriving DecidableEq, Repr

/-- The body of the `while` statement, entered with a line or with the body of
the request. -/
def handleLine (c : Parser) :
    (ReadExit × Parser) ⊕ (LineStatus × Parser) :=
  let text := c.startLine
  match c.checkState with
  | .requestLine =>
      match c.restart.parseRequestLine text with
      | (.badRequest, d) => .inl (.badRequest, d)
      | (_, d) => .inr (.ok, d)
  | .header =>
      match c.restart.parseHeaders text with
      | (.badRequest, d) => .inl (.badRequest, d)
      | (.getRequest, d) => .inl (.doRequest none, d)
      | (_, d) => .inr (.ok, d)
  | .content =>
      match c.restart.parseContent text with
      | (.getRequest, d) => .inl (.doRequest (some (c.contentEnd text)), d)
      | (_, d) => .inr (.openLine, d)

/-- One evaluation of the condition of the `while` statement and its body. -/
def readRequestStep :
    LineStatus × Parser → (ReadExit × Parser) ⊕ (LineStatus × Parser)
  | (status, c) =>
      if c.checkState = .content ∧ status = .ok then c.handleLine
      else
        match c.parseLine with
        | (.ok, c) => c.handleLine
        | (_, c) => .inl (.noRequest, c)

/-! ## Progress of the loop -/

theorem scanLine_frame (n : ℕ) (c : Parser) :
    (scanLine n c).2.readIdx = c.readIdx ∧
      (scanLine n c).2.startLine = c.startLine ∧
      (scanLine n c).2.checkState = c.checkState ∧
      (scanLine n c).2.contentLength = c.contentLength := by
  induction n generalizing c with
  | zero => simp [scanLine]
  | succ n ih =>
      simp only [scanLine]
      repeat' split
      all_goals simp [ih]

/-- A completed line moves `m_checked_index` forward. -/
theorem scanLine_checkedIndex {n : ℕ} {c c' : Parser}
    (h : scanLine n c = (.ok, c')) :
    c.checkedIndex < c'.checkedIndex ∧ 0 < n := by
  induction n generalizing c with
  | zero => simp [scanLine] at h
  | succ n ih =>
      refine ⟨?_, Nat.succ_pos n⟩
      simp only [scanLine] at h
      split_ifs at h
      · simp at h
      · obtain ⟨-, rfl⟩ := by simpa using h
        simp
      · simp at h
      · obtain ⟨-, rfl⟩ := by simpa using h
        simp
      · simp at h
      · exact lt_trans (Nat.lt_succ_self _) (ih h).1

theorem parseLine_lt {c c' : Parser} (h : c.parseLine = (.ok, c')) :
    c'.readIdx - c'.checkedIndex < c.readIdx - c.checkedIndex := by
  have hframe := (scanLine_frame (c.readIdx - c.checkedIndex) c).1
  obtain ⟨hlt, hpos⟩ := scanLine_checkedIndex h
  rw [parseLine] at h
  rw [h] at hframe
  simp only at hframe
  omega

theorem parseTarget_frame (c : Parser) (u : ℕ) :
    (c.parseTarget u).2.readIdx = c.readIdx ∧
      (c.parseTarget u).2.checkedIndex = c.checkedIndex ∧
      (c.parseTarget u).2.startLine = c.startLine := by
  simp only [parseTarget]
  repeat' split
  all_goals exact ⟨rfl, rfl, rfl⟩

theorem parseRequestLine_frame (c : Parser) (text : ℕ) :
    (c.parseRequestLine text).2.readIdx = c.readIdx ∧
      (c.parseRequestLine text).2.checkedIndex = c.checkedIndex ∧
      (c.parseRequestLine text).2.startLine = c.startLine := by
  simp only [parseRequestLine]
  split
  · exact ⟨rfl, rfl, rfl⟩
  · split
    · split
      · exact ⟨rfl, rfl, rfl⟩
      · split
        · exact parseTarget_frame _ _
        · exact ⟨rfl, rfl, rfl⟩
    · exact ⟨rfl, rfl, rfl⟩

theorem parseHeaders_frame (c : Parser) (text : ℕ) :
    (c.parseHeaders text).2.readIdx = c.readIdx ∧
      (c.parseHeaders text).2.checkedIndex = c.checkedIndex ∧
      (c.parseHeaders text).2.startLine = c.startLine := by
  simp only [parseHeaders]
  repeat' split
  all_goals exact ⟨rfl, rfl, rfl⟩

theorem parseContent_frame (c : Parser) (text : ℕ) :
    (c.parseContent text).2.readIdx = c.readIdx ∧
      (c.parseContent text).2.checkedIndex = c.checkedIndex ∧
      (c.parseContent text).2.startLine = c.startLine := by
  simp only [parseContent]
  repeat' split
  all_goals exact ⟨rfl, rfl, rfl⟩

theorem handleLine_frame {c : Parser} {status : LineStatus} {c' : Parser}
    (h : c.handleLine = .inr (status, c')) :
    c'.readIdx = c.readIdx ∧ c'.checkedIndex = c.checkedIndex ∧
      c'.startLine = c.checkedIndex ∧
      (c.checkState = .content → status = .openLine) := by
  unfold handleLine at h
  cases hstate : c.checkState with
  | requestLine =>
      have hframe := parseRequestLine_frame c.restart c.startLine
      simp only [hstate] at h
      split at h <;> simp_all
  | header =>
      have hframe := parseHeaders_frame c.restart c.startLine
      simp only [hstate] at h
      split at h <;> simp_all
  | content =>
      have hframe := parseContent_frame c.restart c.startLine
      simp only [hstate] at h
      split at h <;> simp_all

/-- Twice the bytes not yet looked at, and one more while a body is to be
tested before the scanner runs again. -/
def readRequestRank : LineStatus × Parser → ℕ
  | (status, c) =>
      2 * (c.readIdx - c.checkedIndex) +
        if c.checkState = .content ∧ status = .ok then 1 else 0

theorem readRequestRank_lt {s s' : LineStatus × Parser}
    (h : readRequestStep s = .inr s') :
    readRequestRank s' < readRequestRank s := by
  obtain ⟨status, c⟩ := s
  obtain ⟨status', c'⟩ := s'
  simp only [readRequestStep] at h
  split_ifs at h with hbody
  · obtain ⟨hread, hchecked, -, hopen⟩ := handleLine_frame h
    simp [readRequestRank, hread, hchecked, hopen hbody.1, hbody]
  · split at h
    next d hline =>
      have hlt := parseLine_lt hline
      obtain ⟨hread, hchecked, -, -⟩ := handleLine_frame h
      simp only [readRequestRank, hread, hchecked, if_neg hbody]
      split <;> omega
    · cases h

/-- The `while` statement of `process_read`. -/
def readRequestLoop : Loop (LineStatus × Parser) (ReadExit × Parser) where
  step := readRequestStep
  rank := readRequestRank
  rank_lt := readRequestRank_lt

/-- `process_read` up to its call of `do_request`. -/
def readRequest (c : Parser) : ReadExit × Parser :=
  readRequestLoop.run (.ok, c)

theorem run_of_exit {s : LineStatus × Parser} {r : ReadExit × Parser}
    (h : readRequestStep s = .inl r) : readRequestLoop.run s = r :=
  readRequestLoop.run_of_exit h

theorem run_of_round {s s' : LineStatus × Parser}
    (h : readRequestStep s = .inr s') :
    readRequestLoop.run s = readRequestLoop.run s' :=
  readRequestLoop.run_of_round h

/-- A round that is entered through the line scanner. -/
theorem readRequestStep_of_scan {c : Parser} {status : LineStatus}
    (h : ¬ (c.checkState = .content ∧ status = .ok)) :
    readRequestStep (status, c) =
      match c.parseLine with
      | (.ok, c) => c.handleLine
      | (_, c) => .inl (.noRequest, c) := by
  simp only [readRequestStep, if_neg h]

/-- A round that is entered with the body of the request. -/
theorem readRequestStep_of_content {c : Parser}
    (h : c.checkState = .content) :
    readRequestStep (.ok, c) = c.handleLine := by
  simp [readRequestStep, h]

end Parser

end BackendLab.Proactor
