import BackendLab.Proactor.Parsing.Rounds

/-!
# A request may arrive in pieces

Up to the end of the header section, `process_read` may be interrupted and
resumed: bytes that arrive later commute with every completed line, and a
suspended scan resumes where it stopped.  So the call that follows the last
piece leaves the connection exactly as one call on all the bytes would.
-/

namespace BackendLab.Proactor

open Support

namespace Parser

variable {c : Parser} {x : Bytes}

/-! ## More bytes in the buffer -/

section Receive

variable (c : Parser) (x : Bytes)

@[simp] theorem receive_readIdx :
    (c.receive x).readIdx = c.readIdx + x.length := rfl
@[simp] theorem receive_checkedIndex :
    (c.receive x).checkedIndex = c.checkedIndex := rfl
@[simp] theorem receive_startLine :
    (c.receive x).startLine = c.startLine := rfl
@[simp] theorem receive_checkState :
    (c.receive x).checkState = c.checkState := rfl
@[simp] theorem receive_contentLength :
    (c.receive x).contentLength = c.contentLength := rfl

end Receive

theorem mem_receive (hfit : c.readIdx + x.length ≤ readBufferSize) :
    (c.receive x).mem =
      c.mem.take c.readIdx ++ (x ++ c.mem.drop (c.readIdx + x.length)) := by
  rw [← List.append_assoc]
  exact toList_store c.readBuf hfit

/-- The bytes from `i` up to `j` are not touched by what arrives behind. -/
theorem slice_receive (hfit : c.readIdx + x.length ≤ readBufferSize)
    {i j : ℕ} (hj : j ≤ c.readIdx) :
    ((c.receive x).mem.drop i).take (j - i) = (c.mem.drop i).take (j - i) := by
  rw [← List.drop_take, ← List.drop_take, mem_receive hfit,
    List.take_append_of_le_length, List.take_take, Nat.min_eq_left hj]
  simp only [List.length_take, length_mem]
  omega

theorem byteAt_receive (hfit : c.readIdx + x.length ≤ readBufferSize)
    {i : ℕ} (hi : i < c.readIdx) : (c.receive x).byteAt i = c.byteAt i := by
  have hlen : i < (c.mem.take c.readIdx).length := by
    simp only [List.length_take, length_mem]
    omega
  simp only [byteAt, List.getD, mem_receive hfit,
    List.getElem?_append_left hlen, List.getElem?_take_of_lt hi]

theorem unparsed_receive (hs : c.Scanning)
    (hfit : c.readIdx + x.length ≤ readBufferSize) :
    (c.receive x).unparsed = c.unparsed ++ x := by
  have hstart := hs.start_le.trans hs.checked_le
  have hlen : (c.mem.take c.readIdx).length = c.readIdx := by
    simp only [List.length_take, length_mem]
    omega
  unfold unparsed
  rw [receive_readIdx, receive_startLine, ← List.drop_take, ← List.drop_take,
    mem_receive hfit, ← List.append_assoc, List.take_append_of_le_length,
    List.take_of_length_le, List.drop_append, hlen,
    Nat.sub_eq_zero_of_le hstart]
  · rfl
  · simp only [List.length_append, hlen]
    omega
  · simp only [List.length_append, hlen]
    omega

theorem Scanning.receive (hs : c.Scanning)
    (hfit : c.readIdx + x.length ≤ readBufferSize) : (c.receive x).Scanning where
  start_le := hs.start_le
  checked_le := hs.checked_le.trans (Nat.le_add_right _ _)
  read_le := hfit
  scanned := by
    intro b hb
    rw [receive_startLine, receive_checkedIndex,
      slice_receive hfit hs.checked_le] at hb
    exact hs.scanned b hb
  prev := by
    by_cases h0 : c.startLine = 0
    · exact Or.inl h0
    · have hstart := hs.start_le
      have hchecked := hs.checked_le
      rw [receive_startLine, byteAt_receive hfit (by omega)]
      exact hs.prev

theorem cut_receive {i : ℕ} (hi : i < c.readIdx) :
    (c.receive x).cut i = (c.cut i).receive x := by
  simp only [cut, Parser.receive, store_setIfInBounds_of_lt _ _ _ hi]

theorem endLine_receive {e : ℕ} (he : e + 1 < c.readIdx) :
    (c.receive x).endLine e = (c.endLine e).receive x := by
  unfold endLine
  rw [cut_receive (by omega), cut_receive (by simpa using he)]
  rfl

theorem stringAt_receive {p : ℕ} {t : Bytes} (h : StringAt c.mem p t)
    (hp : p + t.length < c.readIdx) : StringAt (c.receive x).mem p t :=
  StringAt.store_of_lt c.readBuf h x hp

/-! ## The line handlers commute with new bytes -/

theorem applyTarget_receive (p : ℕ) (u : Bytes) :
    (c.receive x).applyTarget p u =
      ((c.applyTarget p u).1, (c.applyTarget p u).2.receive x) := by
  unfold applyTarget
  split
  · split <;> rfl
  · split <;> rfl

theorem applyAfterMethod_receive {p : ℕ} {t : Bytes}
    (ht : p + t.length ≤ c.readIdx) :
    (c.receive x).applyAfterMethod p t =
      ((c.applyAfterMethod p t).1, (c.applyAfterMethod p t).2.receive x) := by
  unfold applyAfterMethod
  cases hcut : cutAt blanks t with
  | none => rfl
  | some d =>
      obtain ⟨u, v⟩ := d
      obtain ⟨w, -, rfl, -⟩ := cutAt_eq_some_iff.mp hcut
      simp only [List.length_append, List.length_cons] at ht
      dsimp only
      rw [cut_receive (by omega)]
      split
      · exact applyTarget_receive p u
          (c := { c.cut (p + u.length) with
            version := some (p + u.length + 1) })
      · rfl

theorem applyRequestLine_receive {text : ℕ} {t : Bytes}
    (ht : text + t.length ≤ c.readIdx) :
    (c.receive x).applyRequestLine text t =
      ((c.applyRequestLine text t).1,
        (c.applyRequestLine text t).2.receive x) := by
  unfold applyRequestLine
  cases hcut : cutAt blanks t with
  | none => rfl
  | some d =>
      obtain ⟨m, t'⟩ := d
      obtain ⟨w, -, rfl, -⟩ := cutAt_eq_some_iff.mp hcut
      simp only [List.length_append, List.length_cons] at ht
      dsimp only
      rw [cut_receive (by omega)]
      split
      · apply applyAfterMethod_receive
          (c := { c.cut (text + m.length) with
            url := some (text + m.length + 1), method := .get })
        rw [cut_readIdx]
        omega
      · rfl

theorem applyHeader_receive (text : ℕ) (t : Bytes) :
    (c.receive x).applyHeader text t = (c.applyHeader text t).receive x := by
  unfold applyHeader
  repeat' split
  all_goals rfl

theorem handleLine_receive {t : Bytes} (hstate : c.checkState ≠ .content)
    (h : StringAt c.mem c.startLine t)
    (hlt : c.startLine + t.length < c.readIdx) :
    (c.receive x).handleLine =
      c.handleLine.map (fun r => (r.1, r.2.receive x))
        (fun s => (s.1, s.2.receive x)) := by
  have h' : StringAt (c.receive x).mem (c.receive x).startLine t :=
    stringAt_receive h hlt
  cases hc : c.checkState with
  | requestLine =>
      have happly : (c.receive x).restart.applyRequestLine
          (c.receive x).startLine t =
            ((c.restart.applyRequestLine c.startLine t).1,
              (c.restart.applyRequestLine c.startLine t).2.receive x) :=
        applyRequestLine_receive (c := c.restart) (le_of_lt hlt)
      rw [handleLine_of_requestLine hc h,
        handleLine_of_requestLine (c := c.receive x) hc h', happly]
      generalize c.restart.applyRequestLine _ _ = result
      obtain ⟨code, d⟩ := result
      cases code <;> rfl
  | header =>
      rw [handleLine_of_header hc h,
        handleLine_of_header (c := c.receive x) hc h', receive_contentLength]
      split_ifs
      · rfl
      · rfl
      · exact congrArg (fun d => Sum.inr (LineStatus.ok, d))
          (applyHeader_receive (c := c.restart) c.startLine t)
  | content => exact absurd hc hstate

/-! ## Resuming a suspended parse -/

/-- A round that completes a line does the same when more bytes have
arrived. -/
theorem step_receive {s : LineStatus × Parser} (hs : c.Scanning)
    (hstate : c.checkState ≠ .content)
    (hfit : c.readIdx + x.length ≤ readBufferSize)
    (hstep : readRequestStep (.ok, c) = .inr s) :
    readRequestStep (.ok, c.receive x) = .inr (s.1, s.2.receive x) := by
  have hscan : ¬ (c.checkState = .content ∧ LineStatus.ok = .ok) :=
    fun h => hstate h.1
  cases hsplit : splitLine c.unparsed with
  | none =>
      rw [step_of_splitLine_none hs hscan hsplit] at hstep
      cases hstep
  | some p =>
      obtain ⟨l, rest⟩ := p
      have hidx := hs.readIdx_eq hsplit
      have htext := lineText_length_le l
      have hsplit' : splitLine (c.receive x).unparsed =
          some (l, rest ++ x) := by
        rw [unparsed_receive hs hfit]
        exact splitLine_append x hsplit
      rw [step_of_splitLine hs hscan hsplit] at hstep
      rw [step_of_splitLine (hs.receive hfit) hscan hsplit', receive_startLine,
        endLine_receive (by omega),
        handleLine_receive (c := c.endLine (c.startLine + l.length)) hstate
          (hs.stringAt_line hsplit)
          (by change c.startLine + _ < c.readIdx; omega), hstep]
      rfl

/-- Where a scan was interrupted makes no difference to the next round. -/
theorem step_moveTo_receive {k : ℕ} (hs : c.Scanning)
    (hmove : (c.moveTo k).Scanning)
    (hstate : c.checkState ≠ .content)
    (hfit : c.readIdx + x.length ≤ readBufferSize) :
    readRequestStep (.ok, (c.moveTo k).receive x) =
      readRequestStep (.ok, c.receive x) := by
  have hscan : ¬ (c.checkState = .content ∧ LineStatus.ok = .ok) :=
    fun h => hstate h.1
  have hun : ((c.moveTo k).receive x).unparsed = (c.receive x).unparsed := rfl
  cases hsplit : splitLine (c.receive x).unparsed with
  | none =>
      rw [step_of_splitLine_none (hs.receive hfit) hscan hsplit,
        step_of_splitLine_none (hmove.receive hfit) hscan (hun ▸ hsplit), hun]
      rfl
  | some p =>
      obtain ⟨l, rest⟩ := p
      rw [step_of_splitLine (hs.receive hfit) hscan hsplit,
        step_of_splitLine (hmove.receive hfit) hscan (hun ▸ hsplit)]
      rfl

theorem run_eq_of_step_eq {s s' : LineStatus × Parser}
    (h : readRequestStep s = readRequestStep s') :
    readRequestLoop.run s = readRequestLoop.run s' := by
  cases hstep : readRequestStep s' with
  | inl r =>
      rw [run_of_exit hstep,
        run_of_exit (h.trans hstep)]
  | inr t =>
      rw [run_of_round hstep,
        run_of_round (h.trans hstep)]

/-- Resuming after `NO_REQUEST` is parsing all the bytes at once, as long as
the body has not been reached. -/
theorem readRequest_resume {d : Parser} (hs : c.Scanning)
    (hfit : c.readIdx + x.length ≤ readBufferSize)
    (h : c.readRequest = (.noRequest, d)) (hd : d.checkState ≠ .content) :
    (d.receive x).readRequest = (c.receive x).readRequest := by
  have hfeed := readRequestLoop.run_feed
    (fun s => s.1 = .ok ∧ s.2.Scanning ∧
      s.2.readIdx + x.length ≤ readBufferSize ∧ s.2.checkState ≠ .content)
    (fun s => (s.1, s.2.receive x))
    (fun r s => r.1 = .noRequest ∧ r.2.checkState ≠ .content ∧
      s = (.ok, r.2))
    ?_ ?_ (.ok, c) (.ok, d)
  · have hstate : c.checkState ≠ .content := by
      intro hcontent
      have hrun := run_content .ok hcontent
      rw [← readRequest, h] at hrun
      exact hd hrun
    exact hfeed ⟨rfl, hs, hfit, hstate⟩ ⟨by rw [← readRequest, h],
      by rwa [← readRequest, h], by rw [← readRequest, h]⟩
  · rintro ⟨status, e⟩ ⟨status', e'⟩ ⟨rfl, he, hroom, hstate⟩ hstep
    obtain ⟨he', hread⟩ := he.step hstep
    by_cases hcontent : e'.checkState = .content
    · right
      rintro t ⟨-, hne, -⟩
      exact hne (run_content _ hcontent)
    · left
      have hok : status' = .ok := by
        have hscan : ¬ (e.checkState = .content ∧ LineStatus.ok = .ok) :=
          fun h => hstate h.1
        cases hsplit : splitLine e.unparsed with
        | none =>
            have hnone := step_of_splitLine_none he hscan hsplit
            cases hnone.symm.trans hstep
        | some p =>
            have hline := (step_of_splitLine he hscan hsplit).symm.trans hstep
            exact (he.next hsplit hstate hline).1
      exact ⟨⟨hok, he', hread ▸ hroom, hcontent⟩,
        step_receive he hstate hroom hstep⟩
  · rintro ⟨status, e⟩ ⟨exit, f⟩ t ⟨rfl, he, hroom, hstate⟩ hstep ⟨hexit, -, rfl⟩
    simp only at hexit
    subst hexit
    obtain ⟨-, -, rfl⟩ := he.noRequest hstep
    exact run_eq_of_step_eq (step_moveTo_receive he he.moveTo hstate hroom)

/-! ## Any split of the header section -/

/-- The connection after the given pieces have been delivered, each by one
`read()` and followed by one `process_read()`, provided that every call
returned `NO_REQUEST`. -/
def afterReads (c : Parser) : List Bytes → Option Parser
  | [] => some c
  | x :: xs =>
      match (c.receive x).readRequest with
      | (.noRequest, d) => d.afterReads xs
      | _ => none

theorem afterReads_cons {x : Bytes} {xs : List Bytes} {d : Parser} :
    c.afterReads (x :: xs) = some d ↔
      ∃ e, (c.receive x).readRequest = (.noRequest, e) ∧
        e.afterReads xs = some d := by
  rw [afterReads]
  constructor
  · intro h
    split at h
    next e heq => exact ⟨e, heq, h⟩
    · cases h
  · rintro ⟨e, heq, h⟩
    rw [heq]
    exact h

theorem afterReads_content {xs : List Bytes} {d : Parser}
    (h : c.afterReads xs = some d) (hstate : c.checkState = .content) :
    d.checkState = .content := by
  induction xs generalizing c with
  | nil =>
      obtain rfl := Option.some.inj h
      exact hstate
  | cons x xs ih =>
      obtain ⟨e, heq, h⟩ := afterReads_cons.mp h
      have hrun := run_content (c := c.receive x) .ok hstate
      rw [← readRequest, heq] at hrun
      exact ih h hrun

theorem Scanning.afterReads {xs : List Bytes} {d : Parser}
    (hs : c.Scanning) (h : c.afterReads xs = some d)
    (hfit : c.readIdx + xs.flatten.length ≤ readBufferSize) :
    d.Scanning ∧ d.readIdx = c.readIdx + xs.flatten.length := by
  induction xs generalizing c with
  | nil =>
      obtain rfl := Option.some.inj h
      exact ⟨hs, rfl⟩
  | cons x xs ih =>
      obtain ⟨e, heq, h⟩ := afterReads_cons.mp h
      simp only [List.flatten_cons, List.length_append] at hfit ⊢
      obtain ⟨he, hread⟩ := (hs.receive (x := x) (by omega)).readRequest heq
      rw [receive_readIdx] at hread
      obtain ⟨hd, hidx⟩ := ih he h (by omega)
      exact ⟨hd, by omega⟩

/-- A connection that has taken in some pieces without reaching the body
behaves on every further piece as if it had taken them in at once. -/
theorem readRequest_afterReads {xs : List Bytes} {d : Parser}
    (hs : c.Scanning) (h : c.afterReads xs = some d)
    (hstate : d.checkState ≠ .content) :
    ∀ x : Bytes, c.readIdx + (xs.flatten ++ x).length ≤ readBufferSize →
      (d.receive x).readRequest = (c.receive (xs.flatten ++ x)).readRequest := by
  induction xs generalizing c with
  | nil =>
      obtain rfl := Option.some.inj h
      intro x _
      rfl
  | cons y ys ih =>
      intro x hfit
      simp only [List.flatten_cons, List.append_assoc, List.length_append] at hfit
      have hy : c.readIdx + y.length ≤ readBufferSize := by omega
      obtain ⟨e, heq, h⟩ := afterReads_cons.mp h
      have he : e.checkState ≠ .content :=
        fun hcontent => hstate (afterReads_content h hcontent)
      obtain ⟨hes, hread⟩ := (hs.receive hy).readRequest heq
      have hroom : (c.receive y).readIdx + (ys.flatten ++ x).length ≤
          readBufferSize := by
        simp only [receive_readIdx, List.length_append]
        omega
      rw [ih hes h x (hread ▸ hroom),
        readRequest_resume (hs.receive hy) hroom heq he, receive_receive]
      simp

/-- Header parsing does not depend on how the bytes arrive: if the calls for
the pieces before the last one return `NO_REQUEST` outside the body (which is
never left once entered), the call after the last piece has the result, and
leaves the connection in the state, of one call on a fresh connection that
holds all the bytes. -/
theorem readRequest_pieces {pieces : List Bytes} (last : Bytes)
    (hfit : (pieces.flatten ++ last).length ≤ readBufferSize)
    (h : Parser.fresh.afterReads pieces = some c)
    (hstate : c.checkState ≠ .content) :
    (c.receive last).readRequest =
      (Parser.fresh.receive (pieces.flatten ++ last)).readRequest :=
  readRequest_afterReads scanning_fresh h hstate last
    (by simpa [fresh] using hfit)

/-- A request cut inside its method, between CR and LF, and inside a header. -/
theorem readRequest_three_pieces :
    ∃ c : Parser,
      Parser.fresh.afterReads
        [ascii "GE", ascii "T /a HTTP/1.1\r", ascii "\nHost: h\r\nConn"] =
          some c ∧ c.checkState ≠ .content ∧
      (c.receive (ascii "ection: keep-alive\r\n\r\n")).readRequest =
        (Parser.fresh.receive (ascii
          "GET /a HTTP/1.1\r\nHost: h\r\nConnection: keep-alive\r\n\r\n")
          ).readRequest := by
  have hany : (Parser.fresh.afterReads
      [ascii "GE", ascii "T /a HTTP/1.1\r", ascii "\nHost: h\r\nConn"]).any
      (fun c => decide (c.checkState ≠ .content)) = true := by
    decide +kernel
  obtain ⟨c, hc, hstate⟩ := (Option.any_eq_true _ _).mp hany
  have hstate := of_decide_eq_true hstate
  have hall : [ascii "GE", ascii "T /a HTTP/1.1\r",
      ascii "\nHost: h\r\nConn"].flatten ++
        ascii "ection: keep-alive\r\n\r\n" =
      ascii "GET /a HTTP/1.1\r\nHost: h\r\nConnection: keep-alive\r\n\r\n" := by
    decide
  rw [← hall]
  exact ⟨c, hc, hstate, readRequest_pieces _ (by decide) hc hstate⟩

end Parser

end BackendLab.Proactor
