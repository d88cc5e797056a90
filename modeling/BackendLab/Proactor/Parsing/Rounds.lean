import BackendLab.Proactor.Parsing.Text

/-!
# One round of `process_read`

Every round of the main loop either completes a line, or tests the body, or
leaves the loop.  The lemmas here say which, in terms of the unparsed bytes,
and that the scanning invariant holds in every round.
-/

namespace BackendLab.Proactor

open Support

namespace Parser

variable {c d : Parser} {status : LineStatus}

/-! ## Rounds that scan for a line -/

theorem step_of_splitLine (hs : c.Scanning) {l rest : Bytes}
    (hscan : ¬ (c.checkState = .content ∧ status = .ok))
    (hsplit : splitLine c.unparsed = some (l, rest)) :
    readRequestStep (status, c) =
      (c.endLine (c.startLine + l.length)).handleLine := by
  have hline := hs.parseLine_eq
  rw [hsplit] at hline
  rw [readRequestStep_of_scan hscan, hline]

theorem step_of_splitLine_none (hs : c.Scanning)
    (hscan : ¬ (c.checkState = .content ∧ status = .ok))
    (hsplit : splitLine c.unparsed = none) :
    readRequestStep (status, c) =
      .inl (.noRequest, c.moveTo (c.startLine + lineBytes c.unparsed)) := by
  have hline := hs.parseLine_eq
  rw [hsplit] at hline
  obtain ⟨status', hstatus', hline⟩ := hline
  rw [readRequestStep_of_scan hscan, hline]
  cases status' with
  | ok => exact absurd rfl hstatus'
  | bad => rfl
  | openLine => rfl

/-! ## Rounds that test the body -/

theorem handleLine_of_content (hstate : c.checkState = .content) :
    c.handleLine =
      if c.contentComplete then
        .inl (.doRequest (some (c.contentEnd c.startLine)),
          if 0 ≤ c.contentEnd c.startLine then
            c.restart.cut (c.contentEnd c.startLine).toNat
          else c.restart)
      else .inr (.openLine, c.restart) := by
  have hcomplete : c.restart.contentComplete ↔ c.contentComplete := Iff.rfl
  have hend : c.restart.contentEnd c.startLine = c.contentEnd c.startLine := rfl
  unfold handleLine
  simp only [hstate, parseContent]
  by_cases hc : c.contentComplete
  · rw [if_pos (hcomplete.mpr hc), if_pos hc, hend]
    by_cases hpos : 0 ≤ c.contentEnd c.startLine
    · rw [if_pos hpos, if_pos hpos]
    · rw [if_neg hpos, if_neg hpos]
  · rw [if_neg (mt hcomplete.mp hc), if_neg hc]

theorem Scanning.restart (hs : c.Scanning) : c.restart.Scanning where
  start_le := le_refl _
  checked_le := hs.checked_le
  read_le := hs.read_le
  scanned := by simp
  prev := hs.prevNotCr

theorem Scanning.moveTo (hs : c.Scanning) :
    (c.moveTo (c.startLine + lineBytes c.unparsed)).Scanning where
  start_le := Nat.le_add_right _ _
  checked_le := by
    have hle := lineBytes_le c.unparsed
    have hlen := hs.length_unparsed
    have hstart := hs.start_le.trans hs.checked_le
    simp only [moveTo_checkedIndex, moveTo_readIdx]
    omega
  read_le := hs.read_le
  scanned := by
    intro b hb
    simp only [moveTo_mem, moveTo_startLine, moveTo_checkedIndex,
      Nat.add_sub_cancel_left] at hb
    apply isLineByte_of_mem_take_lineBytes (s := c.unparsed)
    have hle := lineBytes_le c.unparsed
    have hlen := hs.length_unparsed
    rwa [unparsed, List.take_take, Nat.min_eq_left (by
      rw [← unparsed]
      omega)]
  prev := hs.prev

theorem Scanning.endLine_restart (hs : c.Scanning) {l rest : Bytes}
    (hsplit : splitLine c.unparsed = some (l, rest)) :
    (c.endLine (c.startLine + l.length)).restart.Scanning where
  start_le := le_refl _
  checked_le := by
    have hidx := hs.readIdx_eq hsplit
    change c.startLine + l.length + 2 ≤ c.readIdx
    omega
  read_le := hs.read_le
  scanned := by simp
  prev := by
    have hidx := hs.readIdx_eq hsplit
    have hread := hs.read_le
    have hdrop := drop_endLine_succ c
      (e := c.startLine + l.length) (by omega)
    have hbyte := byteAt_of_drop
      (c := c.endLine (c.startLine + l.length)) hdrop
    right
    change (c.endLine (c.startLine + l.length)).byteAt
      (c.startLine + l.length + 2 - 1) ≠ carriageReturn
    rw [show c.startLine + l.length + 2 - 1 = c.startLine + l.length + 1 by
      omega, hbyte]
    decide

/-! ## The invariant along a run -/

theorem Scanning.step (hs : c.Scanning) {status' : LineStatus}
    (h : readRequestStep (status, c) = .inr (status', d)) :
    d.Scanning ∧ d.readIdx = c.readIdx := by
  by_cases hcontent : c.checkState = .content
  · by_cases hok : status = .ok
    · subst hok
      rw [readRequestStep_of_content hcontent,
        handleLine_of_content hcontent] at h
      split_ifs at h
      simp only [Sum.inr.injEq, Prod.mk.injEq] at h
      obtain ⟨-, rfl⟩ := h
      exact ⟨hs.restart, rfl⟩
    · cases hsplit : splitLine c.unparsed with
      | none =>
          rw [step_of_splitLine_none hs (fun h => hok h.2) hsplit] at h
          cases h
      | some p =>
          obtain ⟨l, rest⟩ := p
          rw [step_of_splitLine hs (fun h => hok h.2) hsplit,
            handleLine_of_content
              (c := c.endLine (c.startLine + l.length)) hcontent] at h
          split_ifs at h
          simp only [Sum.inr.injEq, Prod.mk.injEq] at h
          obtain ⟨-, rfl⟩ := h
          exact ⟨hs.endLine_restart hsplit, rfl⟩
  · cases hsplit : splitLine c.unparsed with
    | none =>
        rw [step_of_splitLine_none hs (fun h => hcontent h.1) hsplit] at h
        cases h
    | some p =>
        obtain ⟨l, rest⟩ := p
        rw [step_of_splitLine hs (fun h => hcontent h.1) hsplit] at h
        obtain ⟨-, hd, -, -, -, hread⟩ := hs.next hsplit hcontent h
        exact ⟨hd, hread⟩

theorem handleLine_ne_noRequest (c d : Parser) :
    c.handleLine ≠ .inl (.noRequest, d) := by
  intro h
  unfold handleLine at h
  cases hstate : c.checkState <;> simp only [hstate] at h <;>
    split at h <;> simp at h

/-- `NO_REQUEST` is returned only when the scanner finds no further line. -/
theorem Scanning.noRequest (hs : c.Scanning)
    (h : readRequestStep (status, c) = .inl (.noRequest, d)) :
    ¬ (c.checkState = .content ∧ status = .ok) ∧
      splitLine c.unparsed = none ∧
      d = c.moveTo (c.startLine + lineBytes c.unparsed) := by
  by_cases hscan : c.checkState = .content ∧ status = .ok
  · obtain ⟨hcontent, rfl⟩ := hscan
    rw [readRequestStep_of_content hcontent] at h
    exact absurd h (handleLine_ne_noRequest c d)
  · cases hsplit : splitLine c.unparsed with
    | none =>
        rw [step_of_splitLine_none hs hscan hsplit] at h
        simp only [Sum.inl.injEq, Prod.mk.injEq, true_and] at h
        exact ⟨hscan, rfl, h.symm⟩
    | some p =>
        obtain ⟨l, rest⟩ := p
        rw [step_of_splitLine hs hscan hsplit] at h
        exact absurd h (handleLine_ne_noRequest _ d)

/-- After `NO_REQUEST` the parser is again between two pieces of input. -/
theorem Scanning.readRequest (hs : c.Scanning)
    (h : c.readRequest = (.noRequest, d)) :
    d.Scanning ∧ d.readIdx = c.readIdx := by
  have hrun := readRequestLoop.run_invariant
    (fun s => s.2.Scanning ∧ s.2.readIdx = c.readIdx)
    (fun r => r.1 = .noRequest → r.2.Scanning ∧ r.2.readIdx = c.readIdx)
    ?_ ?_ (.ok, c) ⟨hs, rfl⟩
  · rw [← Parser.readRequest, h] at hrun
    exact hrun rfl
  · rintro ⟨status, e⟩ ⟨status', e'⟩ ⟨he, hidx⟩ hstep
    obtain ⟨he', hread⟩ := he.step hstep
    exact ⟨he', hread.trans hidx⟩
  · rintro ⟨status, e⟩ ⟨exit, e'⟩ ⟨he, hidx⟩ hstep hexit
    simp only at hexit
    subst hexit
    obtain ⟨-, -, rfl⟩ := he.noRequest hstep
    exact ⟨he.moveTo, hidx⟩

theorem scanning_fresh : Parser.fresh.Scanning where
  start_le := le_refl _
  checked_le := le_refl _
  read_le := Nat.zero_le _
  scanned := by simp [fresh]
  prev := Or.inl rfl

theorem handleLine_content (hstate : c.checkState = .content) :
    (∀ r, c.handleLine = .inl r → r.2.checkState = .content) ∧
      ∀ s, c.handleLine = .inr s → s.2.checkState = .content := by
  rw [handleLine_of_content hstate]
  split_ifs <;> simp_all

/-- A round that starts in the body of the request ends in it. -/
theorem step_content (status : LineStatus) (hstate : c.checkState = .content) :
    (∀ r, readRequestStep (status, c) = .inl r → r.2.checkState = .content) ∧
      ∀ s, readRequestStep (status, c) = .inr s →
        s.2.checkState = .content := by
  have hparse : c.parseLine.2.checkState = .content :=
    (scanLine_frame _ c).2.2.1.trans hstate
  simp only [readRequestStep]
  split_ifs
  · exact handleLine_content hstate
  · split
    next heq =>
      rw [heq] at hparse
      exact handleLine_content hparse
    next heq =>
      rw [heq] at hparse
      refine ⟨?_, by simp⟩
      rintro r hr
      rw [← Sum.inl.inj hr]
      exact hparse

/-- The body of a request, once entered, is never left. -/
theorem run_content (status : LineStatus) (hstate : c.checkState = .content) :
    (readRequestLoop.run (status, c)).2.checkState = .content := by
  refine readRequestLoop.run_invariant
    (fun s => s.2.checkState = .content)
    (fun r => r.2.checkState = .content) ?_ ?_ (status, c) hstate
  · rintro ⟨status, e⟩ s' he hstep
    exact (step_content status he).2 s' hstep
  · rintro ⟨status, e⟩ r he hstep
    exact (step_content status he).1 r hstep

end Parser

end BackendLab.Proactor
