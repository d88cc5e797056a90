import BackendLab.Proactor.Responses.Appending

/-!
# The text that `process_write` prepares

From an empty write buffer every part of a response fits, so `process_write`
never refuses, and the buffer holds the status line, the headers and, for an
error, the page.
-/

namespace BackendLab.Proactor

open Support

def contentLengthText (contentLen : ℤ) : Bytes :=
  ascii "Content-Length: " ++ intText contentLen ++ ascii "\r\n"

def contentTypeText : Bytes :=
  ascii "Content-Type:" ++ ascii "text/html" ++ ascii "\r\n"

def lingerText (linger : Bool) : Bytes :=
  ascii "Connection: " ++
    (if linger then ascii "keep-alive" else ascii "close") ++ ascii "\r\n"

/-- The headers of a response, with the empty line. -/
def headerText (contentLen : ℤ) (linger : Bool) : Bytes :=
  contentLengthText contentLen ++ contentTypeText ++ lingerText linger ++
    ascii "\r\n"

def statusText (status : ℕ) (title : Bytes) : Bytes :=
  ascii "HTTP/1.1 " ++ intText status ++ ascii " " ++ title ++ ascii "\r\n"

/-- The text of an error page with its status line and headers. -/
def pageText (status : ℕ) (title form : Bytes) (linger : Bool) : Bytes :=
  statusText status title ++ headerText form.length linger ++ form

/-- The text that `process_write` leaves in the write buffer, for the results
of `process_read` that it answers. -/
def responseText (linger : Bool) (size : ℕ) : HttpCode → Option Bytes
  | .internalError => some (pageText 500 error500Title error500Form linger)
  | .badRequest => some (pageText 400 error400Title error400Form linger)
  | .noResource => some (pageText 404 error404Title error404Form linger)
  | .forbiddenRequest => some (pageText 403 error403Title error403Form linger)
  | .fileRequest =>
      some (statusText 200 ok200Title ++ headerText (toInt32 size) linger)
  | .noRequest | .getRequest | .closedConnection => none

/-! ## Decimal numbers -/

theorem length_intText_le {x : ℤ} (h : x.natAbs < 10 ^ 10) :
    (intText x).length ≤ 11 := by
  have hdigits := (Nat.length_toDigits_le_iff (n := x.natAbs) (b := 10)
    (k := 10) (by decide) (by decide)).mpr h
  unfold intText natText
  split_ifs
  · rw [List.length_cons, List.length_map]
    omega
  · rw [List.length_map]
    omega

theorem length_contentLengthText_le {x : ℤ} (h : x.natAbs < 10 ^ 10) :
    (contentLengthText x).length ≤ 29 := by
  have hnumber := length_intText_le h
  have hname : (ascii "Content-Length: ").length = 16 := by decide
  have hcrlf : (ascii "\r\n").length = 2 := by decide
  simp only [contentLengthText, List.length_append]
  omega

theorem length_lingerText_le (linger : Bool) :
    (lingerText linger).length ≤ 24 := by
  cases linger <;> decide

theorem length_headerText_le (linger : Bool) {x : ℤ}
    (h : x.natAbs < 10 ^ 10) : (headerText x linger).length ≤ 79 := by
  have hlength := length_contentLengthText_le h
  have htype : contentTypeText.length = 24 := by decide
  have hlinger := length_lingerText_le linger
  have hcrlf : (ascii "\r\n").length = 2 := by decide
  simp only [headerText, List.length_append]
  omega

theorem length_statusText_le {status : ℕ} {title : Bytes}
    (hstatus : status < 1000) (htitle : title.length ≤ 20) :
    (statusText status title).length ≤ 43 := by
  have hnumber := length_intText_le (x := status) (by
    rw [Int.natAbs_natCast]
    omega)
  have hname : (ascii "HTTP/1.1 ").length = 9 := by decide
  have hblank : (ascii " ").length = 1 := by decide
  have hcrlf : (ascii "\r\n").length = 2 := by decide
  simp only [statusText, List.length_append]
  omega

theorem isDigit_range {d : Char} (hd : d.isDigit) :
    48 ≤ d.toNat ∧ d.toNat ≤ 57 := by
  simpa [Char.isDigit, UInt32.le_iff_toNat_le] using hd

/-- Only digits and the sign occur in a decimal number. -/
theorem notMem_intText {b : UInt8} (x : ℤ) (hsign : b ≠ 45)
    (hdigit : ∀ d : Char, d.isDigit → d.toNat.toUInt8 ≠ b) :
    b ∉ intText x := by
  have hnot : b ∉ (Nat.toDigits 10 x.natAbs).map
      fun d => d.toNat.toUInt8 := by
    intro hmem
    obtain ⟨d, hd, heq⟩ := List.mem_map.mp hmem
    exact hdigit d (Nat.isDigit_of_mem_toDigits (by decide) (by decide) hd) heq
  unfold intText natText
  split_ifs
  · simp [hsign, hnot]
  · exact hnot

/-! ## The first byte of a response -/

/-- The byte `H`, with which every response starts. -/
def capitalH : UInt8 := 72

theorem capitalH_notMem_intText (x : ℤ) : capitalH ∉ intText x := by
  refine notMem_intText x (by decide) fun d hd heq => ?_
  have hrange := isDigit_range hd
  have hnat := congrArg UInt8.toNat heq
  simp only [Nat.toUInt8, UInt8.toNat_ofNat'] at hnat
  change d.toNat % 256 = 72 at hnat
  omega

theorem statusText_eq_cons (status : ℕ) {title : Bytes}
    (htitle : capitalH ∉ title) :
    ∃ tail, statusText status title = capitalH :: tail ∧ capitalH ∉ tail := by
  refine ⟨ascii "TTP/1.1 " ++ intText status ++ ascii " " ++ title ++
    ascii "\r\n", rfl, ?_⟩
  have hascii : capitalH ∉ ascii "TTP/1.1 " ∧ capitalH ∉ ascii " " ∧
      capitalH ∉ ascii "\r\n" := by decide
  simp [hascii, htitle, capitalH_notMem_intText]

theorem capitalH_notMem_headerText (x : ℤ) (linger : Bool) :
    capitalH ∉ headerText x linger := by
  have hascii : capitalH ∉ ascii "Content-Length: " ∧
      capitalH ∉ ascii "\r\n" ∧ capitalH ∉ contentTypeText := by decide
  have hlinger : capitalH ∉ lingerText linger := by
    cases linger <;> decide
  simp [headerText, contentLengthText, hascii, hlinger, capitalH_notMem_intText]

/-- The title and the form of an error page are short, and no `H` occurs in
them. -/
structure IsPage (status : ℕ) (title form : Bytes) : Prop where
  status_lt : status < 1000
  length_title_le : title.length ≤ 20
  length_form_le : form.length ≤ 100
  notMem_title : capitalH ∉ title
  notMem_form : capitalH ∉ form

/-- A response is an error page or the header of a file. -/
theorem responseText_cases {linger : Bool} {size : ℕ} {ret : HttpCode}
    {t : Bytes} (h : responseText linger size ret = some t) :
    (∃ status title form, IsPage status title form ∧
      t = pageText status title form linger ∧ ret ≠ .fileRequest ∧
      ∀ c : HttpConn, c.processWrite ret = c.addErrorPage status title form) ∨
    (ret = .fileRequest ∧
      t = statusText 200 ok200Title ++ headerText (toInt32 size) linger) := by
  cases ret with
  | internalError =>
      have hpage : IsPage 500 error500Title error500Form := by
        constructor <;> decide +kernel
      exact .inl ⟨_, _, _, hpage, (Option.some.inj h).symm, nofun, fun _ => rfl⟩
  | badRequest =>
      have hpage : IsPage 400 error400Title error400Form := by
        constructor <;> decide +kernel
      exact .inl ⟨_, _, _, hpage, (Option.some.inj h).symm, nofun, fun _ => rfl⟩
  | noResource =>
      have hpage : IsPage 404 error404Title error404Form := by
        constructor <;> decide +kernel
      exact .inl ⟨_, _, _, hpage, (Option.some.inj h).symm, nofun, fun _ => rfl⟩
  | forbiddenRequest =>
      have hpage : IsPage 403 error403Title error403Form := by
        constructor <;> decide +kernel
      exact .inl ⟨_, _, _, hpage, (Option.some.inj h).symm, nofun, fun _ => rfl⟩
  | fileRequest => exact .inr ⟨rfl, (Option.some.inj h).symm⟩
  | noRequest | getRequest | closedConnection => cases h

theorem responseText_eq_cons {linger : Bool} {size : ℕ} {ret : HttpCode}
    {t : Bytes} (h : responseText linger size ret = some t) :
    ∃ tail, t = capitalH :: tail ∧ capitalH ∉ tail := by
  obtain ⟨status, title, form, hpage, rfl, -, -⟩ | ⟨-, rfl⟩ :=
    responseText_cases h
  · obtain ⟨tail, hline, htail⟩ := statusText_eq_cons status hpage.notMem_title
    refine ⟨tail ++ headerText form.length linger ++ form, ?_, ?_⟩
    · rw [pageText, hline]
      rfl
    · simp [htail, hpage.notMem_form, capitalH_notMem_headerText]
  · have htitle : capitalH ∉ ok200Title := by decide
    obtain ⟨tail, hline, htail⟩ := statusText_eq_cons 200 htitle
    refine ⟨tail ++ headerText (toInt32 size) linger, ?_, ?_⟩
    · rw [hline]
      rfl
    · simp [htail, capitalH_notMem_headerText]

namespace HttpConn

variable {c c' : HttpConn} {t s : Bytes}

/-! ## Filling the write buffer -/

/-- `c'` is `c` with the text `t` in its write buffer. -/
structure Wrote (c c' : HttpConn) (t : Bytes) : Prop where
  rest : c' = { c with writeBuf := c'.writeBuf, writeIdx := t.length }
  text : c'.writeBuf.toList.take t.length = t

theorem Wrote.writeIdx_eq (h : Wrote c c' t) : c'.writeIdx = t.length :=
  congrArg HttpConn.writeIdx h.rest

theorem wrote_nil (h : c.writeIdx = 0) : Wrote c c [] where
  rest := by rw [List.length_nil, ← h]
  text := rfl

theorem Wrote.addResponse (h : Wrote c c' t)
    (hfit : t.length + s.length < writeBufferSize - 1) :
    (c'.addResponse s).1 = true ∧ Wrote c (c'.addResponse s).2 (t ++ s) := by
  have hidx := h.writeIdx_eq
  have hsize : writeBufferSize = 1024 := rfl
  have happended : c'.Appended [t] :=
    ⟨by omega, by rw [hidx, List.flatten_singleton, h.text]⟩
  have hshort : (s.length : ℤ) < c'.vsnprintfSize := by
    unfold vsnprintfSize
    omega
  obtain ⟨htrue, hnext⟩ := happended.addResponse_of_lt hshort
  have hadd := addResponse_eq happended.lt_writeBufferSize s
  rw [if_neg (not_le.mpr hshort), vsnprintfBytes_of_lt hshort, hidx,
    ← List.length_append] at hadd
  have htext := hnext.text
  rw [hadd] at htext ⊢
  refine ⟨rfl, ?_, by simpa using htext⟩
  conv_lhs => rw [h.rest]

/-- The four headers and the empty line fit behind a status line. -/
theorem Wrote.addHeaders (h : Wrote c c' t) {contentLen : ℤ}
    (hlen : contentLen.natAbs < 10 ^ 10) (ht : t.length ≤ 100) :
    Wrote c (c'.addHeaders contentLen)
      (t ++ headerText contentLen c.parser.linger) := by
  have hsize : writeBufferSize = 1024 := rfl
  have hlength := length_contentLengthText_le hlen
  have htype : contentTypeText.length = 24 := by decide
  have hlinger := length_lingerText_le c.parser.linger
  have h₁ := (h.addResponse (s := contentLengthText contentLen) (by omega)).2
  have h₂ := (h₁.addResponse (s := contentTypeText) (by
    rw [List.length_append]
    omega)).2
  have h₃ := (h₂.addResponse (s := lingerText c.parser.linger) (by
    simp only [List.length_append]
    omega)).2
  have h₄ := (h₃.addResponse (s := ascii "\r\n") (by
    have hcrlf : (ascii "\r\n").length = 2 := by decide
    simp only [List.length_append]
    omega)).2
  have hparser : (((c'.addContentLength contentLen).2).addContentType).2.parser =
      c.parser := by
    change (((c'.addResponse (contentLengthText contentLen)).2).addResponse
      contentTypeText).2.parser = c.parser
    rw [h₂.rest]
  have hadd : c'.addHeaders contentLen =
      (((((c'.addResponse (contentLengthText contentLen)).2).addResponse
        contentTypeText).2.addResponse (lingerText c.parser.linger)).2.addResponse
          (ascii "\r\n")).2 := by
    unfold HttpConn.addHeaders addLinger
    rw [hparser]
    rfl
  rw [hadd]
  simpa only [headerText, List.append_assoc] using h₄

theorem addErrorPage_of_addResponse {status : ℕ} {title form : Bytes}
    (h : ((c.addResponse (statusText status title)).2.addHeaders
      form.length).addResponse form = (true, c')) :
    c.addErrorPage status title form = (true, { c' with
      iv := (⟨.writeBuf, c'.writeIdx⟩, c'.iv.2)
      ivCount := 1 }) := by
  unfold addErrorPage addStatusLine addContent
  rw [statusText] at h
  simp only [h]

theorem addErrorPage_eq (h : c.writeIdx = 0) {status : ℕ} {title form : Bytes}
    (hstatus : status < 1000) (htitle : title.length ≤ 20)
    (hform : form.length ≤ 100) :
    ∃ c', Wrote c c' (pageText status title form c.parser.linger) ∧
      c.addErrorPage status title form = (true, { c' with
        iv := (⟨.writeBuf, c'.writeIdx⟩, c'.iv.2)
        ivCount := 1 }) := by
  have hsize : writeBufferSize = 1024 := rfl
  have hline := length_statusText_le hstatus htitle
  have hlen : (form.length : ℤ).natAbs < 10 ^ 10 := by
    rw [Int.natAbs_natCast]
    omega
  have h₁ := ((wrote_nil h).addResponse (s := statusText status title) (by
    rw [List.length_nil]
    omega)).2
  rw [List.nil_append] at h₁
  have h₂ := h₁.addHeaders hlen (by omega)
  have hheader := length_headerText_le (c.parser.linger) hlen
  obtain ⟨hok, h₃⟩ := h₂.addResponse (s := form) (by
    rw [List.length_append]
    omega)
  generalize hpage : ((c.addResponse (statusText status title)).2.addHeaders
    form.length).addResponse form = result at hok h₃
  obtain ⟨ok, c'⟩ := result
  obtain rfl : ok = true := hok
  exact ⟨c', h₃, addErrorPage_of_addResponse hpage⟩

/-- `process_write` answers every result for which there is a text, and puts
the text and, for a file, its mapping into `m_iv`. -/
theorem processWrite_eq (h : c.writeIdx = 0) {ret : HttpCode} {t : Bytes}
    (ht : responseText c.parser.linger c.fileStat.size ret = some t) :
    ∃ c', Wrote c c' t ∧ c.processWrite ret = (true, { c' with
      iv := (⟨.writeBuf, t.length⟩,
        if ret = .fileRequest then ⟨.file c.fileAddress, c.fileStat.size⟩
        else c.iv.2)
      ivCount := if ret = .fileRequest then 2 else 1 }) := by
  obtain ⟨status, title, form, hpage, htext, hret, heq⟩ | ⟨rfl, htext⟩ :=
    responseText_cases ht
  · obtain ⟨c', hw, hadd⟩ := addErrorPage_eq h hpage.status_lt
      hpage.length_title_le hpage.length_form_le
    rw [← htext] at hw
    refine ⟨c', hw, ?_⟩
    have hiv : c'.iv = c.iv := by rw [hw.rest]
    rw [heq, hadd, hiv, hw.writeIdx_eq, if_neg hret, if_neg hret]
  · have hrange := toInt32_range c.fileStat.size
    have hlen : (toInt32 c.fileStat.size).natAbs < 10 ^ 10 := by omega
    have hline : (statusText 200 ok200Title).length ≤ 43 :=
      length_statusText_le (by decide) (by decide)
    have hsize : writeBufferSize = 1024 := rfl
    have h₁ : Wrote c (c.addStatusLine 200 ok200Title).2
        (statusText 200 ok200Title) :=
      ((wrote_nil h).addResponse (s := statusText 200 ok200Title) (by
        rw [List.length_nil]
        omega)).2
    have h₂ := h₁.addHeaders hlen (by omega)
    rw [← htext] at h₂
    refine ⟨_, h₂, ?_⟩
    have hstat := congrArg HttpConn.fileStat h₁.rest
    simp only at hstat
    simp only [processWrite, if_true]
    rw [hstat, congrArg HttpConn.fileStat h₂.rest,
      congrArg HttpConn.fileAddress h₂.rest, h₂.writeIdx_eq]

/-! ## What `process` leaves -/

theorem doRequest_frame (fs : FileSystem) (c : HttpConn) :
    (c.doRequest fs).2.parser = c.parser ∧
      (c.doRequest fs).2.sockfd = c.sockfd ∧
      (c.doRequest fs).2.writeIdx = c.writeIdx := by
  unfold doRequest
  simp only
  repeat' split
  all_goals exact ⟨rfl, rfl, rfl⟩

/-- Every result of `do_request` has a response. -/
theorem responseText_doRequest (fs : FileSystem) (c : HttpConn)
    (linger : Bool) (size : ℕ) :
    responseText linger size (c.doRequest fs).1 ≠ none := by
  unfold doRequest
  simp only
  repeat' split
  all_goals simp [responseText]

theorem processRead_frame (fs : FileSystem) (c : HttpConn) :
    (c.processRead fs).2.parser = c.parser.readRequest.2 ∧
      (c.processRead fs).2.sockfd = c.sockfd ∧
      (c.processRead fs).2.writeIdx = c.writeIdx := by
  unfold processRead
  split
  next heq => rw [heq]; exact ⟨rfl, rfl, rfl⟩
  next heq => rw [heq]; exact ⟨rfl, rfl, rfl⟩
  next heq =>
    rw [heq]
    exact doRequest_frame fs _

/-- Every result of `process_read` but `NO_REQUEST` has a response. -/
theorem responseText_processRead (fs : FileSystem) (c : HttpConn)
    (linger : Bool) (size : ℕ) (h : c.parser.readRequest.1 ≠ .noRequest) :
    responseText linger size (c.processRead fs).1 ≠ none := by
  unfold processRead
  split
  next heq => exact absurd (by rw [heq]) h
  · simp [responseText]
  · exact responseText_doRequest fs _ linger size

theorem process_of_noRequest {p : Parser} (fs : FileSystem)
    (h : c.parser.readRequest = (.noRequest, p)) :
    c.process fs = (.waiting, c.withParser p) := by
  simp only [process, processRead, h]

/-- `process()` never closes a connection with an empty write buffer: it has a
response for everything but `NO_REQUEST`. -/
theorem process_of_ne_noRequest (fs : FileSystem) (hidx : c.writeIdx = 0)
    (h : c.parser.readRequest.1 ≠ .noRequest) :
    ∃ d, c.process fs = (.responding, d) ∧
      d.parser = c.parser.readRequest.2 ∧ d.sockfd = c.sockfd ∧
      0 < d.writeIdx ∧ d.fileAddress = (c.processRead fs).2.fileAddress ∧
      d.fileStat = (c.processRead fs).2.fileStat := by
  have hframe := processRead_frame fs c
  have htext := fun linger size => responseText_processRead fs c linger size h
  unfold process
  generalize c.processRead fs = result at *
  obtain ⟨code, d⟩ := result
  obtain ⟨hparser, hsock, hwrite⟩ := hframe
  simp only at hparser hsock hwrite htext
  obtain ⟨t, ht⟩ := Option.ne_none_iff_exists'.mp
    (htext d.parser.linger d.fileStat.size)
  obtain ⟨c', hw, heq⟩ := processWrite_eq (hwrite.trans hidx) ht
  have hpos : 0 < t.length := by
    obtain ⟨tail, rfl, -⟩ := responseText_eq_cons ht
    simp
  have hrest := hw.rest
  have hparser' : c'.parser = d.parser := by rw [hrest]
  have hsock' : c'.sockfd = d.sockfd := by rw [hrest]
  have haddress : c'.fileAddress = d.fileAddress := by rw [hrest]
  have hstat : c'.fileStat = d.fileStat := by rw [hrest]
  have hcode : code ≠ .noRequest := by
    rintro rfl
    simp [responseText] at ht
  simp only [heq]
  exact ⟨_, rfl, hparser'.trans hparser, hsock'.trans hsock, hw.writeIdx_eq ▸ hpos,
    haddress, hstat⟩

end HttpConn

end BackendLab.Proactor
