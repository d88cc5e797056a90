import BackendLab.Proactor.Parsing.Head
import BackendLab.Support.HeadLines

/-!
# The grammar of the header section

`parseHead` accepts a byte string exactly when it starts with a request line,
any number of header lines with some text, and an empty line, each ended by
CRLF.  Together with the refinement of `process_read` by `parseHead` this says
which byte strings the server takes for a request.
-/

namespace BackendLab.Proactor

open Support

theorem crlf_eq : crlf = [carriageReturn, lineFeed] := rfl

/-- Header lines as they stand in a request. -/
def headerLines (ls : List Bytes) : Bytes :=
  ls.flatMap (· ++ crlf)

theorem splitLine_append_crlf {l : Bytes} (hl : ∀ b ∈ l, IsLineByte b)
    (rest : Bytes) : splitLine (l ++ crlf ++ rest) = some (l, rest) :=
  splitLine_eq_some_iff.mpr ⟨by simp [crlf_eq], hl⟩

theorem eq_append_crlf_of_splitLine {s l rest : Bytes}
    (h : splitLine s = some (l, rest)) :
    s = l ++ crlf ++ rest ∧ ∀ b ∈ l, IsLineByte b := by
  obtain ⟨hs, hl⟩ := splitLine_eq_some_iff.mp h
  exact ⟨by simpa [crlf_eq] using hs, hl⟩

/-- The header lines `ls` and the line `e` that ends them. -/
structure HeaderSection (ls : List Bytes) (e : Bytes) : Prop where
  lines : ∀ l ∈ ls, (∀ b ∈ l, IsLineByte b) ∧ lineText l ≠ []
  last : ∀ b ∈ e, IsLineByte b
  empty : lineText e = []

theorem HeaderSection.cons_iff {l e : Bytes} {ls : List Bytes} :
    HeaderSection (l :: ls) e ↔
      ((∀ b ∈ l, IsLineByte b) ∧ lineText l ≠ []) ∧ HeaderSection ls e := by
  constructor
  · intro h
    exact ⟨h.lines l (by simp), fun l' hl' => h.lines l' (by simp [hl']),
      h.last, h.empty⟩
  · rintro ⟨hl, h⟩
    refine ⟨fun l' hl' => ?_, h.last, h.empty⟩
    rcases List.mem_cons.mp hl' with rfl | hmem
    · exact hl
    · exact h.lines l' hmem

/-- What the header lines `ls` add to `h`. -/
def Head.addHeaders (h : Head) (ls : List Bytes) : Head :=
  ls.foldl (fun h l => h.addHeader (lineText l)) h

theorem Head.addHeaders_url (h : Head) (ls : List Bytes) :
    (h.addHeaders ls).url = h.url := by
  induction ls generalizing h with
  | nil => rfl
  | cons l ls ih =>
      exact (ih (h.addHeader (lineText l))).trans (h.addHeader_url _)

/-! ## The loop of `parseHead` -/

section Lines

variable {h : Head} {s l rest : Bytes}
  (hsplit : splitLine s = some (l, rest))

include hsplit

theorem headLoop_run_requestLine {u : Bytes} (hurl : h.url = none)
    (htarget : requestTarget (lineText l) = some u) :
    headLoop.run (h, s) = headLoop.run ({ h with
      url := some u
      urlAt := targetStart (lineText l) u }, rest) := by
  apply headLoop.run_of_round
  simp [headLoop, headStep, hsplit, hurl, htarget]

theorem headLoop_step_header (hurl : h.url ≠ none) (htext : lineText l ≠ []) :
    headLoop.step (h, s) = .inr (h.addHeader (lineText l), rest) := by
  obtain ⟨u, hu⟩ := Option.ne_none_iff_exists'.mp hurl
  simp [headLoop, headStep, hsplit, hu, htext]

theorem headLoop_run_emptyLine (hurl : h.url ≠ none)
    (htext : lineText l = []) :
    headLoop.run (h, s) = .complete h rest := by
  obtain ⟨u, hu⟩ := Option.ne_none_iff_exists'.mp hurl
  apply headLoop.run_of_exit
  simp [headLoop, headStep, hsplit, hu, htext]

end Lines

theorem headLoop_run_headers {h : Head} {ls : List Bytes} {e : Bytes}
    (hurl : h.url ≠ none) (hsec : HeaderSection ls e) (rest : Bytes) :
    headLoop.run (h, headerLines ls ++ e ++ crlf ++ rest) =
      .complete (h.addHeaders ls) rest := by
  induction ls generalizing h with
  | nil =>
      exact headLoop_run_emptyLine (splitLine_append_crlf hsec.last rest) hurl
        hsec.empty
  | cons l ls ih =>
      obtain ⟨⟨hl, htext⟩, hsec⟩ := HeaderSection.cons_iff.mp hsec
      have hbytes : headerLines (l :: ls) ++ e ++ crlf ++ rest =
          l ++ crlf ++ (headerLines ls ++ e ++ crlf ++ rest) := by
        simp [headerLines]
      rw [hbytes, headLoop.run_of_round
        (headLoop_step_header (splitLine_append_crlf hl _) hurl htext)]
      exact ih (by rwa [Head.addHeader_url]) hsec

/-- Behind the request line, the loop completes on a header section only. -/
theorem headLoop_run_complete (s : Head × Bytes) :
    ∀ {h : Head} {rest : Bytes}, s.1.url ≠ none →
      headLoop.run s = .complete h rest →
      ∃ ls e, HeaderSection ls e ∧ h = s.1.addHeaders ls ∧
        s.2 = headerLines ls ++ e ++ crlf ++ rest := by
  induction s using headLoop.round_induction with
  | h s ih =>
      obtain ⟨h₀, bytes⟩ := s
      intro h rest hurl hrun
      simp only at hurl ⊢
      cases hsplit : splitLine bytes with
      | none =>
          have hstep : headLoop.step (h₀, bytes) =
              .inl (.incomplete h₀ bytes) := by
            simp [headLoop, headStep, hsplit]
          rw [headLoop.run_of_exit hstep] at hrun
          cases hrun
      | some p =>
          obtain ⟨l, rest'⟩ := p
          obtain ⟨hbytes, hl⟩ := eq_append_crlf_of_splitLine hsplit
          by_cases htext : lineText l = []
          · rw [headLoop_run_emptyLine hsplit hurl htext] at hrun
            obtain ⟨rfl, rfl⟩ := by simpa using hrun
            exact ⟨[], l, ⟨by simp, hl, htext⟩, rfl, hbytes⟩
          · have hstep := headLoop_step_header hsplit hurl htext
            rw [headLoop.run_of_round hstep] at hrun
            obtain ⟨ls, e, hsec, rfl, hs⟩ :=
              ih _ hstep (by rwa [Head.addHeader_url]) hrun
            simp only at hs
            exact ⟨l :: ls, e, HeaderSection.cons_iff.mpr ⟨⟨hl, htext⟩, hsec⟩,
              rfl, by rw [hbytes, hs]; simp [headerLines]⟩

/-- The head of a request line `r` that asks for `u`. -/
def Head.ofRequestLine (r u : Bytes) : Head :=
  { Head.empty with url := some u, urlAt := targetStart (lineText r) u }

/-- The header section, line by line. -/
theorem parseHead_eq_complete_iff {s rest : Bytes} {h : Head} :
    parseHead s = .complete h rest ↔
      ∃ r u ls e, (∀ b ∈ r, IsLineByte b) ∧
        requestTarget (lineText r) = some u ∧ HeaderSection ls e ∧
        h = (Head.ofRequestLine r u).addHeaders ls ∧
        s = r ++ crlf ++ (headerLines ls ++ e ++ crlf ++ rest) := by
  constructor
  · intro hrun
    cases hsplit : splitLine s with
    | none =>
        have hstep : headLoop.step (Head.empty, s) =
            .inl (.incomplete Head.empty s) := by
          simp [headLoop, headStep, hsplit]
        rw [parseHead, headLoop.run_of_exit hstep] at hrun
        cases hrun
    | some p =>
        obtain ⟨r, rest'⟩ := p
        obtain ⟨hs, hr⟩ := eq_append_crlf_of_splitLine hsplit
        cases htarget : requestTarget (lineText r) with
        | none =>
            have hstep : headLoop.step (Head.empty, s) = .inl .bad := by
              simp [headLoop, headStep, hsplit, htarget, Head.empty]
            rw [parseHead, headLoop.run_of_exit hstep] at hrun
            cases hrun
        | some u =>
            rw [parseHead, headLoop_run_requestLine hsplit rfl htarget] at hrun
            obtain ⟨ls, e, hsec, rfl, hrest⟩ :=
              headLoop_run_complete _ (by simp) hrun
            simp only at hrest
            exact ⟨r, u, ls, e, hr, htarget, hsec, rfl, by rw [hs, hrest]⟩
  · rintro ⟨r, u, ls, e, hr, htarget, hsec, rfl, rfl⟩
    rw [parseHead,
      headLoop_run_requestLine (splitLine_append_crlf hr _) rfl htarget]
    exact headLoop_run_headers (by simp) hsec rest

/-- Only the request line can make a header section bad. -/
theorem headLoop_run_ne_bad {h : Head} (hurl : h.url ≠ none) (s : Bytes) :
    headLoop.run (h, s) ≠ .bad := by
  refine headLoop.run_invariant (fun s => s.1.url ≠ none) (· ≠ .bad) ?_ ?_
    (h, s) hurl
  · rintro ⟨h, s⟩ s' hurl hstep
    obtain ⟨u, hu⟩ := Option.ne_none_iff_exists'.mp hurl
    simp only at hu
    simp only [headLoop, headStep, hu] at hstep
    split at hstep
    · cases hstep
    · split_ifs at hstep
      cases hstep
      rwa [Head.addHeader_url]
  · rintro ⟨h, s⟩ r hurl hstep
    obtain ⟨u, hu⟩ := Option.ne_none_iff_exists'.mp hurl
    simp only at hu
    simp only [headLoop, headStep, hu] at hstep
    split at hstep
    · cases hstep
      simp
    · split_ifs at hstep
      cases hstep
      simp

theorem parseHead_eq_bad_iff {s : Bytes} :
    parseHead s = .bad ↔
      ∃ r rest, splitLine s = some (r, rest) ∧
        requestTarget (lineText r) = none := by
  cases hsplit : splitLine s with
  | none =>
      have hstep : headLoop.step (Head.empty, s) =
          .inl (.incomplete Head.empty s) := by
        simp [headLoop, headStep, hsplit]
      simp [parseHead, headLoop.run_of_exit hstep]
  | some p =>
      obtain ⟨r, rest⟩ := p
      cases htarget : requestTarget (lineText r) with
      | none =>
          have hstep : headLoop.step (Head.empty, s) = .inl .bad := by
            simp [headLoop, headStep, hsplit, htarget, Head.empty]
          rw [parseHead, headLoop.run_of_exit hstep]
          simp [htarget]
      | some u =>
          rw [parseHead, headLoop_run_requestLine hsplit rfl htarget]
          simpa [htarget] using headLoop_run_ne_bad (by simp) rest

theorem parseHead_append_of_bad {s : Bytes} (x : Bytes)
    (hs : parseHead s = .bad) : parseHead (s ++ x) = .bad := by
  obtain ⟨r, rest, hsplit, htarget⟩ := parseHead_eq_bad_iff.mp hs
  exact parseHead_eq_bad_iff.mpr
    ⟨r, rest ++ x, splitLine_append x hsplit, htarget⟩

/-- More bytes behind a complete header section do not change it. -/
theorem parseHead_append {s rest : Bytes} {h : Head} (x : Bytes)
    (hs : parseHead s = .complete h rest) :
    parseHead (s ++ x) = .complete h (rest ++ x) := by
  obtain ⟨r, u, ls, e, hr, htarget, hsec, rfl, rfl⟩ :=
    parseHead_eq_complete_iff.mp hs
  exact parseHead_eq_complete_iff.mpr
    ⟨r, u, ls, e, hr, htarget, hsec, rfl, by simp⟩

theorem parseHead_rest_length_le {s rest : Bytes} {h : Head}
    (hs : parseHead s = .complete h rest) : rest.length ≤ s.length := by
  obtain ⟨r, u, ls, e, -, -, -, -, rfl⟩ := parseHead_eq_complete_iff.mp hs
  simp only [List.length_append]
  omega

end BackendLab.Proactor
