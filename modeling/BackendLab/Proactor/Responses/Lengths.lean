import BackendLab.Proactor.Responses.Text

/-!
# The length that a response announces

`process_write` announces the length of the body in a header line, and schedules
the body itself: an error page behind the headers, or the mapped file in
`m_iv[1]`.  The size of a file goes through the `int` parameter of `add_headers`
into the header line, and unchanged into `m_iv[1]`.
-/

namespace BackendLab.Proactor

open Support

/-! ## Decimal numbers -/

theorem eq_of_toUInt8_eq {d e : Char} (hd : d.isDigit) (he : e.isDigit)
    (h : d.toNat.toUInt8 = e.toNat.toUInt8) : d = e := by
  have hd' := isDigit_range hd
  have he' := isDigit_range he
  have hnat := congrArg UInt8.toNat h
  simp only [Nat.toUInt8, UInt8.toNat_ofNat'] at hnat
  have hsame : d.toNat = e.toNat := by omega
  exact Char.toNat_inj.mp hsame

theorem eq_of_map_toUInt8_eq {ds es : List Char} (hds : ∀ d ∈ ds, d.isDigit)
    (hes : ∀ e ∈ es, e.isDigit)
    (h : ds.map (fun d => d.toNat.toUInt8) = es.map fun d => d.toNat.toUInt8) :
    ds = es := by
  induction ds generalizing es with
  | nil =>
      rw [List.map_nil, eq_comm, List.map_eq_nil_iff] at h
      exact h.symm
  | cons d ds ih =>
      cases es with
      | nil => simp at h
      | cons e es =>
          simp only [List.map_cons, List.cons.injEq] at h
          simp only [List.forall_mem_cons] at hds hes
          rw [eq_of_toUInt8_eq hds.1 hes.1 h.1, ih hds.2 hes.2 h.2]

/-- Different numbers are written differently. -/
theorem eq_of_intText_eq {x y : ℤ} (hy : 0 ≤ y) (h : intText x = intText y) :
    x = y := by
  have hdigits : ∀ n : ℕ, ∀ d ∈ Nat.toDigits 10 n, d.isDigit := fun n d hd =>
    Nat.isDigit_of_mem_toDigits (by decide) (by decide) hd
  have hy' : ¬ y < 0 := not_lt.mpr hy
  by_cases hx : x < 0
  · exfalso
    have hmem : (45 : UInt8) ∈ intText y := by
      rw [← h]
      simp [intText, hx]
    simp only [intText, natText, if_neg hy', List.mem_map] at hmem
    obtain ⟨d, hd, heq⟩ := hmem
    have hrange := isDigit_range (hdigits _ d hd)
    have hnat := congrArg UInt8.toNat heq
    simp only [Nat.toUInt8, UInt8.toNat_ofNat'] at hnat
    change d.toNat % 256 = 45 at hnat
    omega
  · simp only [intText, natText, if_neg hx, if_neg hy'] at h
    have hsame := eq_of_map_toUInt8_eq (hdigits _) (hdigits _) h
    have hnat := congrArg (fun ds => Nat.ofDigitChars 10 ds 0) hsame
    simp only [Nat.ofDigitChars_ten_toDigits] at hnat
    omega

/-! ## The parts of a response -/

/-- The results of `process_read` that `process_write` answers.  The last is
returned for a state that the parser machine does not have. -/
def HttpCode.answered : HttpCode → Bool
  | .badRequest | .noResource | .forbiddenRequest | .fileRequest
  | .internalError => true
  | .noRequest | .getRequest | .closedConnection => false

def statusLine : HttpCode → Bytes
  | .internalError => statusText 500 error500Title
  | .badRequest => statusText 400 error400Title
  | .noResource => statusText 404 error404Title
  | .forbiddenRequest => statusText 403 error403Title
  | .fileRequest => statusText 200 ok200Title
  | .noRequest | .getRequest | .closedConnection => []

/-- The text behind the headers. -/
def errorText : HttpCode → Bytes
  | .internalError => error500Form
  | .badRequest => error400Form
  | .noResource => error404Form
  | .forbiddenRequest => error403Form
  | .fileRequest | .noRequest | .getRequest | .closedConnection => []

namespace HttpConn

variable {c : HttpConn} {ret : HttpCode}

/-- The argument of `add_headers`. -/
def contentLen (c : HttpConn) (ret : HttpCode) : ℤ :=
  if ret = .fileRequest then toInt32 c.fileStat.size
  else (errorText ret).length

/-- The texts of the calls of `add_response` that `process_write` makes. -/
def responseCalls (c : HttpConn) (ret : HttpCode) : List Bytes :=
  statusLine ret :: contentLengthText (c.contentLen ret) :: contentTypeText ::
    lingerText c.parser.linger :: ascii "\r\n" ::
      if ret = .fileRequest then [] else [errorText ret]

/-- The number of body bytes that are scheduled for sending. -/
def bodyLength (c : HttpConn) (ret : HttpCode) : ℕ :=
  if ret = .fileRequest then c.iv.2.len else (errorText ret).length

/-- `process_read` returns `NO_REQUEST` or a code that is answered. -/
theorem answered_processRead (fs : FileSystem) (c : HttpConn)
    (h : (c.processRead fs).1 ≠ .noRequest) :
    (c.processRead fs).1.answered = true := by
  unfold processRead doRequest at *
  split at h
  · exact absurd rfl h
  · rfl
  · simp only
    repeat' split
    all_goals rfl

theorem responseText_eq (hret : ret.answered = true) :
    responseText c.parser.linger c.fileStat.size ret =
      some (statusLine ret ++ headerText (c.contentLen ret) c.parser.linger ++
        errorText ret) := by
  cases ret with
  | internalError | badRequest | noResource | forbiddenRequest => rfl
  | fileRequest => simp [responseText, statusLine, contentLen, errorText]
  | noRequest | getRequest | closedConnection => cases hret

theorem flatten_responseCalls :
    (c.responseCalls ret).flatten =
      statusLine ret ++ headerText (c.contentLen ret) c.parser.linger ++
        errorText ret := by
  by_cases hfile : ret = .fileRequest
  · subst hfile
    simp [responseCalls, headerText, errorText]
  · simp [responseCalls, headerText, hfile]

/-! ## The calls that `process_write` makes -/

@[simp] theorem parser_addResponse (c : HttpConn) (text : Bytes) :
    (c.addResponse text).2.parser = c.parser := by
  simp only [HttpConn.addResponse]
  repeat' split
  all_goals rfl

@[simp] theorem fileStat_addResponse (c : HttpConn) (text : Bytes) :
    (c.addResponse text).2.fileStat = c.fileStat := by
  simp only [HttpConn.addResponse]
  repeat' split
  all_goals rfl

theorem addHeaders_eq (c : HttpConn) (contentLen : ℤ) :
    c.addHeaders contentLen =
      (c.addResponses [contentLengthText contentLen, contentTypeText,
        lingerText c.parser.linger, ascii "\r\n"]).2 := by
  simp only [addHeaders, addLinger, addContentLength, addContentType,
    addBlankLine, parser_addResponse, addResponses, contentLengthText,
    contentTypeText, lingerText]

theorem addErrorPage_eq_addResponses (c : HttpConn) (status : ℕ)
    (title form : Bytes) {d : HttpConn}
    (hd : d = (c.addResponses [statusText status title,
      contentLengthText form.length, contentTypeText,
      lingerText c.parser.linger, ascii "\r\n", form]).2) :
    (c.addErrorPage status title form).2.writeBuf = d.writeBuf ∧
      (c.addErrorPage status title form).2.writeIdx = d.writeIdx := by
  have hcalls : ((c.addStatusLine status title).2.addHeaders
      form.length).addContent form = (true, d) ∨
      ((c.addStatusLine status title).2.addHeaders
        form.length).addContent form = (false, d) := by
    rw [addHeaders_eq, hd]
    simp only [addStatusLine, addContent, addResponses, parser_addResponse,
      statusText]
    generalize HttpConn.addResponse _ form = result
    obtain ⟨ok, e⟩ := result
    cases ok
    · exact .inr rfl
    · exact .inl rfl
  rcases hcalls with htrue | hfalse
  · simp only [addErrorPage, htrue, and_self]
  · simp only [addErrorPage, hfalse, and_self]

/-- The write buffer is filled by the calls of `responseCalls`. -/
theorem processWrite_eq_addResponses (hret : ret.answered = true) {d : HttpConn}
    (hd : d = (c.addResponses (c.responseCalls ret)).2) :
    (c.processWrite ret).2.writeBuf = d.writeBuf ∧
      (c.processWrite ret).2.writeIdx = d.writeIdx := by
  cases ret with
  | internalError | badRequest | noResource | forbiddenRequest =>
      simp only [responseCalls, contentLen, statusLine, errorText, reduceCtorEq,
        if_false] at hd
      simp only [processWrite]
      exact addErrorPage_eq_addResponses c _ _ _ hd
  | fileRequest =>
      simp only [processWrite, addHeaders_eq, addStatusLine,
        parser_addResponse, fileStat_addResponse]
      simp only [responseCalls, statusLine, statusText, contentLen, if_true,
        addResponses] at hd
      rw [hd]
      exact ⟨rfl, rfl⟩
  | noRequest | getRequest | closedConnection => cases hret

/-! ## The announced length -/

/-- A sequence of texts that fit all together is accepted. -/
theorem Appended.addResponses_of_fits {accepted : List Bytes}
    (h : c.Appended accepted) {texts : List Bytes}
    (hfit : accepted.flatten.length + texts.flatten.length <
      writeBufferSize - 1) :
    ∀ ok ∈ (c.addResponses texts).1, ok = true := by
  induction texts generalizing c accepted with
  | nil => simp [HttpConn.addResponses]
  | cons text texts ih =>
      have hidx := h.length_take_writeIdx
      rw [h.text] at hidx
      rw [List.flatten_cons, List.length_append] at hfit
      have hshort : (text.length : ℤ) < c.vsnprintfSize := by
        unfold vsnprintfSize
        omega
      obtain ⟨htrue, hnext⟩ := h.addResponse_of_lt hshort
      intro ok hok
      rcases List.mem_cons.mp hok with rfl | hok
      · exact htrue
      · refine ih hnext ?_ ok hok
        rw [List.flatten_append, List.flatten_singleton, List.length_append]
        omega

/-- On the implementation `f` a response is well formed and consistent:
`process_write` and every call of `add_response` in it succeed, and the write buffer
holds the status line, the headers with the length of the body that is scheduled, and
the error text. -/
def SelfConsistentOn (f : FlowOff) (c : HttpConn) (ret : HttpCode) : Prop :=
  ∃ d, c.processWriteOn f ret = some (true, d) ∧
    (∀ ok ∈ (c.addResponses (c.responseCalls ret)).1, ok = true) ∧
    d.writeBuf.toList.take d.writeIdx =
      statusLine ret ++ headerText (d.bodyLength ret) c.parser.linger ++ errorText ret

/-- What C++ says of the code holds of it on every implementation. -/
def SelfConsistent (c : HttpConn) (ret : HttpCode) : Prop :=
  ∀ f, c.SelfConsistentOn f ret

theorem length_response_lt {t : Bytes}
    (ht : responseText c.parser.linger c.fileStat.size ret = some t) :
    t.length < writeBufferSize - 1 := by
  have hsize : writeBufferSize = 1024 := rfl
  obtain ⟨status, title, form, hpage, rfl, -, -⟩ | ⟨-, rfl⟩ :=
    responseText_cases ht
  · have hform := hpage.length_form_le
    have hline := length_statusText_le hpage.status_lt hpage.length_title_le
    have hheader := length_headerText_le c.parser.linger (x := form.length) (by
      rw [Int.natAbs_natCast]
      omega)
    simp only [pageText, List.length_append]
    omega
  · have hrange := toInt32_range c.fileStat.size
    have hline : (statusText 200 ok200Title).length ≤ 43 :=
      length_statusText_le (by decide) (by decide)
    have hheader := length_headerText_le c.parser.linger
      (x := toInt32 c.fileStat.size) (by omega)
    simp only [List.length_append]
    omega

/-- The number of bytes that is announced is the number that is scheduled. -/
theorem headerText_eq_iff {x : ℤ} {n : ℕ} (linger : Bool) :
    headerText x linger = headerText n linger ↔ x = n := by
  refine ⟨fun h => ?_, fun h => by rw [h]⟩
  simp only [headerText, contentLengthText, List.append_assoc,
    List.append_cancel_left_eq] at h
  exact eq_of_intText_eq (Int.natCast_nonneg n) (List.append_cancel_right h)

theorem bodyLength_processWrite (hidx : c.writeIdx = 0)
    (hret : ret.answered = true) :
    (c.processWrite ret).2.bodyLength ret =
      if ret = .fileRequest then c.fileStat.size
      else (errorText ret).length := by
  obtain ⟨c', -, heq⟩ := processWrite_eq hidx (responseText_eq hret)
  by_cases hfile : ret = .fileRequest
  · simp only [heq, bodyLength, if_pos hfile]
  · rw [bodyLength, if_neg hfile, if_neg hfile]

theorem contentLen_eq_iff :
    c.contentLen ret = (if ret = .fileRequest then c.fileStat.size
      else (errorText ret).length : ℕ) ↔
      (ret = .fileRequest → c.fileStat.size < 2 ^ 31) := by
  unfold contentLen
  by_cases hfile : ret = .fileRequest
  · rw [if_pos hfile, if_pos hfile]
    have hrange := toInt32_range c.fileStat.size
    constructor
    · intro heq _
      omega
    · intro hsmall
      exact toInt32_eq_self (by omega) (by have := hsmall hfile; omega)
  · simp [hfile]

/-- Every response comes to the end of `add_headers`. -/
theorem processWriteOn_none (hret : ret.answered = true) :
    c.processWriteOn (fun _ => none) ret = none := by
  cases ret with
  | noRequest | getRequest | closedConnection => cases hret
  | _ => rfl

theorem not_selfConsistent (hret : ret.answered = true) : ¬ c.SelfConsistent ret := by
  intro h
  obtain ⟨d, hwrite, -⟩ := h fun _ => none
  rw [processWriteOn_none hret] at hwrite
  cases hwrite

theorem selfConsistentOn_returns_iff (hidx : c.writeIdx = 0)
    (hret : ret.answered = true) :
    c.SelfConsistentOn .returns ret ↔
      (ret = .fileRequest → c.fileStat.size < 2 ^ 31) := by
  have htext := responseText_eq (c := c) hret
  obtain ⟨c', hw, heq⟩ := processWrite_eq hidx htext
  have hbuffer : (c.processWrite ret).2.writeBuf.toList.take
      (c.processWrite ret).2.writeIdx =
        statusLine ret ++ headerText (c.contentLen ret) c.parser.linger ++
          errorText ret := by
    rw [heq]
    simp only [hw.writeIdx_eq]
    exact hw.text
  rw [← contentLen_eq_iff, ← bodyLength_processWrite hidx hret,
    ← headerText_eq_iff c.parser.linger]
  constructor
  · rintro ⟨d, hwrite, -, hd⟩
    rw [processWriteOn_returns] at hwrite
    obtain rfl : (c.processWrite ret).2 = d :=
      congrArg Prod.snd (Option.some.inj hwrite)
    have hsame := hbuffer.symm.trans hd
    exact List.append_cancel_left (List.append_cancel_right hsame)
  · intro h
    refine ⟨(c.processWrite ret).2, ?_, ?_, by rw [hbuffer, h]⟩
    · rw [processWriteOn_returns, heq]
    · refine (appended_nil hidx).addResponses_of_fits ?_
      rw [flatten_responseCalls, List.flatten_nil, List.length_nil, Nat.zero_add]
      exact length_response_lt htext

/-- From an empty write buffer, no response that `process_write` is asked for is well
formed and consistent by what C++ says of the code: each comes to the end of
`add_headers`.  Where control comes back from there, it is exactly if it is no file of
`2 ^ 31` bytes or more; and the write buffer is filled by the calls that are looked
at. -/
theorem selfConsistent_never (hidx : c.writeIdx = 0)
    (hret : ret.answered = true) :
    ¬ c.SelfConsistent ret ∧
      (c.SelfConsistentOn .returns ret ↔
        (ret = .fileRequest → c.fileStat.size < 2 ^ 31)) ∧
      (c.processWrite ret).2.writeBuf =
        (c.addResponses (c.responseCalls ret)).2.writeBuf ∧
      (c.processWrite ret).2.writeIdx =
        (c.addResponses (c.responseCalls ret)).2.writeIdx :=
  ⟨not_selfConsistent hret, selfConsistentOn_returns_iff hidx hret,
    processWrite_eq_addResponses hret rfl⟩

/-- A connection that is to answer with a file of `size` bytes. -/
def withSize (size : ℕ) : HttpConn :=
  { HttpConn.blank with fileStat := ⟨0o100644, size⟩ }

theorem selfConsistent_never_three_bytes :
    ¬ (withSize 3).SelfConsistent .fileRequest ∧
      (withSize 3).SelfConsistentOn .returns .fileRequest := by
  have hret : HttpCode.fileRequest.answered = true := rfl
  have hidx : (withSize 3).writeIdx = 0 := rfl
  obtain ⟨hnot, hreturns, -⟩ := selfConsistent_never hidx hret
  exact ⟨hnot, hreturns.mpr fun _ => by decide⟩

/-- No response is consistent, and where control comes back from `add_headers` a file
of `2 ^ 31` bytes is announced with a negative length. -/
theorem not_selfConsistent_large :
    ¬ (withSize 3).SelfConsistent .fileRequest ∧
      ¬ (withSize (2 ^ 31)).SelfConsistentOn .returns .fileRequest := by
  refine ⟨not_selfConsistent rfl, ?_⟩
  rw [selfConsistentOn_returns_iff rfl rfl]
  simp [withSize]

end HttpConn

end BackendLab.Proactor
