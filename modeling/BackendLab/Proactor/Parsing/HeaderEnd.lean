import BackendLab.Proactor.Parsing.Malformed
import BackendLab.Support.Runs

/-!
# Where the headers end

`parse_line` cuts a line at its CRLF, and the functions that look at the line
take it for a C string.  The two disagree when the client sends a NUL: a header
line that starts with one is taken for the empty line, and a request line is
checked up to its first NUL only.  This module says for which requests the
headers end where the first empty line is.
-/

namespace BackendLab.Proactor

open Support Relation

/-! ## Lines and CRLF -/

/-- The first line of a text ends before every CRLF in it. -/
theorem append_crlf_eq {r a u v : Bytes} (hr : ∀ b ∈ r, IsLineByte b)
    (h : r ++ (crlf ++ u) = a ++ (crlf ++ v)) :
    (a = r ∧ u = v) ∨ ∃ a', a = r ++ (crlf ++ a') ∧ u = a' ++ (crlf ++ v) := by
  rcases List.append_eq_append_iff.mp h with ⟨mid, ha, hmid⟩ | ⟨mid, hrmid, hmid⟩
  · have hcut : mid ++ carriageReturn :: (lineFeed :: v) = crlf ++ u :=
      hmid.symm
    rcases append_cons_eq_crlf hcut with
      ⟨rfl, -, hv⟩ | ⟨-, hlf⟩ | ⟨a', rfl⟩
    · exact Or.inl ⟨by simpa using ha, (List.cons.inj hv).2.symm⟩
    · exact absurd hlf (by decide)
    · refine Or.inr ⟨a', ha, ?_⟩
      rw [List.append_assoc] at hmid
      exact List.append_cancel_left hmid
  · cases mid with
    | nil => exact Or.inl ⟨by simpa using hrmid.symm, (by simpa using hmid.symm)⟩
    | cons b mid =>
        obtain ⟨rfl, -⟩ := List.cons.inj hmid
        refine absurd (hr carriageReturn ?_).1 (by simp)
        rw [hrmid]
        exact List.mem_append_right _ List.mem_cons_self

/-- The lines of a text are determined by it. -/
theorem append_crlf_inj {r r' u v : Bytes} (hr : ∀ b ∈ r, IsLineByte b)
    (hr' : ∀ b ∈ r', IsLineByte b) (h : r ++ (crlf ++ u) = r' ++ (crlf ++ v)) :
    r' = r ∧ u = v := by
  rcases append_crlf_eq hr h with heq | ⟨a, rfl, -⟩
  · exact heq
  · refine absurd (hr' carriageReturn ?_).1 (by simp)
    simp [crlf_eq]

theorem eq_nil_of_append_crlf {l u v : Bytes} (hl : ∀ b ∈ l, IsLineByte b)
    (h : l ++ (crlf ++ u) = crlf ++ v) : l = [] :=
  ((append_crlf_inj hl (by simp) (by simpa using h)).1 : [] = l).symm

/-- An empty line stands behind all lines that are not empty. -/
theorem length_le_of_crlf_crlf {ls : List Bytes} {r a t rest : Bytes}
    (hr : ∀ b ∈ r, IsLineByte b)
    (hls : ∀ l ∈ ls, l ≠ [] ∧ ∀ b ∈ l, IsLineByte b)
    (h : r ++ (crlf ++ (headerLines ls ++ t)) = a ++ (crlf ++ (crlf ++ rest))) :
    (r ++ (crlf ++ headerLines ls)).length ≤ a.length + 2 := by
  induction ls generalizing r a with
  | nil =>
      rcases append_crlf_eq hr h with ⟨rfl, -⟩ | ⟨a', rfl, -⟩
      · simp [headerLines, crlf_eq]
      · simp only [headerLines, List.flatMap_nil, List.length_append,
          List.length_nil]
        omega
  | cons l ls ih =>
      obtain ⟨hne, hl⟩ := hls l (by simp)
      have hlines : headerLines (l :: ls) ++ t =
          l ++ (crlf ++ (headerLines ls ++ t)) := by
        simp [headerLines]
      rw [hlines] at h
      rcases append_crlf_eq hr h with ⟨rfl, hrest⟩ | ⟨a', rfl, hrest⟩
      · exact absurd (eq_nil_of_append_crlf hl hrest) hne
      · have hle := ih hl (fun l' hl' => hls l' (by simp [hl'])) hrest
        simp only [headerLines, List.flatMap_cons, List.length_append] at hle ⊢
        omega

theorem exists_eq_append_crlf (r : Bytes) (ls : List Bytes) :
    ∃ a, r ++ (crlf ++ headerLines ls) = a ++ crlf := by
  induction ls using List.reverseRecOn with
  | nil => exact ⟨r, by simp [headerLines]⟩
  | append_singleton ls l _ =>
      exact ⟨r ++ (crlf ++ (headerLines ls ++ l)), by simp [headerLines]⟩

/-! ## Requests without a misplaced NUL -/

/-- The request line has no NUL, and none of the lines up to the first empty one
starts with a NUL. -/
def PlainHead (s : Bytes) : Prop :=
  ∀ r ls l rest, s = r ++ (crlf ++ (headerLines ls ++ (l ++ (crlf ++ rest)))) →
    (∀ b ∈ r, IsLineByte b) → (∀ x ∈ l :: ls, ∀ b ∈ x, IsLineByte b) →
      (∀ x ∈ ls, x ≠ []) → 0 ∉ r ∧ l.head? ≠ some 0

theorem lineText_eq_nil_iff {l : Bytes} :
    lineText l = [] ↔ l = [] ∨ l.head? = some 0 := by
  cases l with
  | nil => simp [lineText]
  | cons b l => simp [lineText]

theorem lineText_eq_self_iff {l : Bytes} : lineText l = l ↔ (0 : UInt8) ∉ l := by
  constructor
  · intro h
    rw [← h]
    exact zero_notMem_lineText l
  · exact lineText_eq_self

/-- No line up to the first empty one starts with a NUL. -/
theorem head?_ne_zero {ls ls' : List Bytes} {l' rest rest' : Bytes}
    (hls : ∀ l ∈ ls, (∀ b ∈ l, IsLineByte b) ∧ lineText l ≠ [])
    (hl' : ∀ x ∈ l' :: ls', ∀ b ∈ x, IsLineByte b) (hne : ∀ x ∈ ls', x ≠ [])
    (h : headerLines ls' ++ (l' ++ (crlf ++ rest')) =
      headerLines ls ++ (crlf ++ rest)) : l'.head? ≠ some 0 := by
  induction ls' generalizing ls with
  | nil =>
      cases ls with
      | nil =>
          have heq : l' ++ (crlf ++ rest') = crlf ++ rest := by
            simpa [headerLines] using h
          simp [eq_nil_of_append_crlf (hl' l' (by simp)) heq]
      | cons l ls =>
          obtain ⟨hl, htext⟩ := hls l (by simp)
          have heq : l' ++ (crlf ++ rest') =
              l ++ (crlf ++ (headerLines ls ++ (crlf ++ rest))) := by
            simpa [headerLines] using h
          obtain ⟨rfl, -⟩ := append_crlf_inj (hl' l' (by simp)) hl heq
          exact fun hhead => htext (lineText_eq_nil_iff.mpr (Or.inr hhead))
  | cons x ls' ih =>
      have hx := hl' x (by simp)
      cases ls with
      | nil =>
          have heq : x ++ (crlf ++ (headerLines ls' ++ (l' ++ (crlf ++ rest')))) =
              crlf ++ rest := by
            simpa [headerLines] using h
          exact absurd (eq_nil_of_append_crlf hx heq) (hne x (by simp))
      | cons l ls =>
          obtain ⟨hl, -⟩ := hls l (by simp)
          have heq : x ++ (crlf ++ (headerLines ls' ++ (l' ++ (crlf ++ rest')))) =
              l ++ (crlf ++ (headerLines ls ++ (crlf ++ rest))) := by
            simpa [headerLines] using h
          obtain ⟨-, htail⟩ := append_crlf_inj hx hl heq
          refine ih (fun y hy => hls y (by simp [hy])) ?_
            (fun y hy => hne y (by simp [hy])) htail
          intro y hy
          apply hl'
          rcases List.mem_cons.mp hy with rfl | hy
          · simp
          · simp [hy]

theorem plainHead_of_lines {r rest : Bytes} {ls : List Bytes}
    (hr : ∀ b ∈ r, IsLineByte b) (hzero : 0 ∉ r)
    (hls : ∀ l ∈ ls, (∀ b ∈ l, IsLineByte b) ∧ lineText l ≠ []) :
    PlainHead (r ++ (crlf ++ (headerLines ls ++ (crlf ++ rest)))) := by
  intro r' ls' l' rest' hs hr' hl' hne
  obtain ⟨rfl, htail⟩ := append_crlf_inj hr hr' hs
  exact ⟨hzero, head?_ne_zero hls hl' hne htail.symm⟩

namespace Parser

variable {c d e : Parser} {status status' : LineStatus} {s x : Bytes}

/-! ## The lines that `process_read` handles -/

/-- The iterations of the loop within one call. -/
def Rounds : LineStatus × Parser → LineStatus × Parser → Prop :=
  ReflTransGen fun s t => readRequestStep s = .inr t

/-- In the call after `last`, the loop comes to a complete line of the header
section; `c` is the connection when `get_line` is called. -/
def Handles (pieces : List Bytes) (last : Bytes) (c : Parser) : Prop :=
  ∃ e status d, Parser.fresh.afterReads pieces = some e ∧
    Rounds (.ok, e.receive last) (status, d) ∧ d.checkState ≠ .content ∧
    d.parseLine = (.ok, c)

/-- The line was handled in the call after `last` or in an earlier one. -/
def Seen (pieces : List Bytes) (last : Bytes) (c : Parser) : Prop :=
  ∃ xs x, xs ++ [x] <+: pieces ++ [last] ∧ Handles xs x c

/-- The request line, and the line that `parse_headers` takes for the end of the
headers because its first character is the terminator. -/
structure HeadLines (pieces : List Bytes) (last : Bytes) (first c : Parser) :
    Prop where
  seen_first : Seen pieces last first
  requestLine : first.checkState = .requestLine
  seen : Seen pieces last c
  header : c.checkState = .header
  terminator : c.byteAt c.startLine = 0

/-- Of the bytes `s` received: the headers were ended by the empty line of the
first CRLF CRLF, and the string given to `parse_request_line` was the line up to
its CRLF. -/
structure EndsProperly (s : Bytes) (first c : Parser) : Prop where
  emptyLine : c.checkedIndex = c.startLine + 2
  occurs : ∃ a rest, s = a ++ (crlf ++ (crlf ++ rest)) ∧
    c.startLine = a.length + 2
  isFirst : ∀ a rest, s = a ++ (crlf ++ (crlf ++ rest)) →
    c.startLine ≤ a.length + 2
  checked : s = cstr first.mem first.startLine ++
    (crlf ++ s.drop first.checkedIndex)

/-! ## What has been taken in -/

/-- The lines before `m_start_line`. -/
def LinesBefore (state : CheckState) (p : Bytes) : Prop :=
  (state = .requestLine ∧ p = []) ∨
    (state = .header ∧ ∃ r ls, p = r ++ (crlf ++ headerLines ls) ∧
      (∀ b ∈ r, IsLineByte b) ∧
      ∀ l ∈ ls, (∀ b ∈ l, IsLineByte b) ∧ lineText l ≠ [])

/-- Of the bytes `s`, those before `m_start_line` have been taken in as the
request line and as header lines with some text. -/
structure Taken (c : Parser) (s : Bytes) : Prop where
  scanning : c.Scanning
  before : ∃ p, s = p ++ c.unparsed ∧ c.startLine = p.length ∧
    LinesBefore c.checkState p

theorem taken_fresh : Parser.fresh.Taken [] :=
  ⟨scanning_fresh, [], rfl, rfl, Or.inl ⟨rfl, rfl⟩⟩

theorem Taken.receive (h : c.Taken s)
    (hfit : c.readIdx + x.length ≤ readBufferSize) :
    (c.receive x).Taken (s ++ x) := by
  obtain ⟨p, hs, hstart, hbefore⟩ := h.before
  refine ⟨h.scanning.receive hfit, p, ?_, hstart, hbefore⟩
  rw [unparsed_receive h.scanning hfit, hs, List.append_assoc]

theorem LinesBefore.concat {state : CheckState} {p l : Bytes}
    (h : LinesBefore state p) (hl : ∀ b ∈ l, IsLineByte b)
    (htext : state = .header → lineText l ≠ []) :
    LinesBefore .header (p ++ (l ++ crlf)) := by
  rcases h with ⟨-, rfl⟩ | ⟨hheader, r, ls, rfl, hr, hls⟩
  · exact Or.inr ⟨rfl, l, [], by simp [headerLines], hl, by simp⟩
  · refine Or.inr ⟨rfl, r, ls ++ [l], by simp [headerLines], hr, ?_⟩
    intro l' hl'
    rcases List.mem_append.mp hl' with hl' | hl'
    · exact hls l' hl'
    · rw [List.mem_singleton.mp hl']
      exact ⟨hl, htext hheader⟩

theorem applyHeader_checkState (c : Parser) (p : ℕ) (t : Bytes) :
    (c.applyHeader p t).checkState = c.checkState := by
  unfold applyHeader
  repeat' split
  all_goals rfl

/-- A handled line leads on in the header section, or into the body behind a
line without text. -/
theorem Scanning.next_checkState (hs : c.Scanning) {l rest : Bytes}
    (hsplit : splitLine c.unparsed = some (l, rest))
    (hstate : c.checkState ≠ .content)
    (h : (c.endLine (c.startLine + l.length)).handleLine = .inr (status, d)) :
    (d.checkState = .header ∧ (c.checkState = .header → lineText l ≠ [])) ∨
      (d.checkState = .content ∧ c.checkState = .header ∧ lineText l = []) := by
  have hat := hs.stringAt_line hsplit
  cases hcase : c.checkState with
  | requestLine =>
      have hspec := handleLine_requestLine_spec
        (c := c.endLine (c.startLine + l.length)) hcase hat
      rw [h] at hspec
      split at hspec
      · obtain ⟨d', hd'⟩ := hspec
        cases hd'
      · obtain ⟨q, d', hd', -, -, -, hheader, -⟩ := hspec
        cases hd'
        exact Or.inl ⟨hheader, by simp⟩
  | header =>
      rw [handleLine_of_header
        (c := c.endLine (c.startLine + l.length)) hcase hat] at h
      split_ifs at h with htext
      · cases h
        exact Or.inr ⟨rfl, rfl, htext⟩
      · cases h
        refine Or.inl ⟨?_, fun _ => htext⟩
        rw [applyHeader_checkState]
        exact hcase
  | content => exact absurd hcase hstate

theorem Taken.round (h : c.Taken s) (hstate : c.checkState ≠ .content)
    (hstep : readRequestStep (status, c) = .inr (status', d))
    (hd : d.checkState ≠ .content) : d.Taken s := by
  have hs := h.scanning
  have hscan : ¬ (c.checkState = .content ∧ status = .ok) :=
    fun h => hstate h.1
  cases hsplit : splitLine c.unparsed with
  | none =>
      rw [step_of_splitLine_none hs hscan hsplit] at hstep
      cases hstep
  | some q =>
      obtain ⟨l, rest⟩ := q
      rw [step_of_splitLine hs hscan hsplit] at hstep
      obtain ⟨-, hscanning, hun, hstart, -, -⟩ := hs.next hsplit hstate hstep
      obtain ⟨hheader, htext⟩ := (hs.next_checkState hsplit hstate
        hstep).resolve_right fun hcontent => hd hcontent.1
      obtain ⟨hline, hl⟩ := eq_append_crlf_of_splitLine hsplit
      obtain ⟨p, hbytes, hp, hbefore⟩ := h.before
      refine ⟨hscanning, p ++ (l ++ crlf), ?_, ?_, ?_⟩
      · rw [hbytes, hun, hline]
        simp
      · rw [hstart, hp]
        simp [crlf_eq, Nat.add_assoc]
      · rw [hheader]
        exact hbefore.concat hl htext

theorem Taken.noRequest (h : c.Taken s)
    (hstep : readRequestStep (status, c) = .inl (.noRequest, d)) :
    d.Taken s := by
  obtain ⟨-, -, rfl⟩ := h.scanning.noRequest hstep
  exact ⟨h.scanning.moveTo, h.before⟩

theorem Taken.rounds (h : c.Taken s) (hrounds : Rounds (.ok, c) (status, d)) :
    d.checkState = .content ∨ d.Taken s := by
  refine invariant_of_run
    (I := fun t : LineStatus × Parser => t.2.checkState = .content ∨ t.2.Taken s)
    hrounds (Or.inr h) ?_
  rintro ⟨status, d⟩ ⟨status', d'⟩ hd hstep
  by_cases hd' : d'.checkState = .content
  · exact Or.inl hd'
  · refine Or.inr ?_
    rcases hd with hcontent | htaken
    · exact absurd ((step_content status hcontent).2 _ hstep) hd'
    · refine htaken.round ?_ hstep hd'
      intro hcontent
      exact hd' ((step_content status hcontent).2 _ hstep)

theorem Taken.readRequest (h : c.Taken s)
    (hrun : c.readRequest = (.noRequest, d)) :
    d.checkState = .content ∨ d.Taken s := by
  obtain ⟨⟨status, t⟩, hrounds, hexit⟩ :=
    readRequestLoop.exists_rounds (.ok, c)
  rw [← Parser.readRequest, hrun] at hexit
  rcases h.rounds hrounds with hcontent | htaken
  · exact Or.inl ((step_content status hcontent).1 _ hexit)
  · exact Or.inr (htaken.noRequest hexit)

theorem taken_afterReads {pieces : List Bytes}
    (hfit : pieces.flatten.length ≤ readBufferSize)
    (he : Parser.fresh.afterReads pieces = some e) :
    e.checkState = .content ∨ e.Taken pieces.flatten := by
  induction pieces using List.reverseRecOn generalizing e with
  | nil =>
      obtain rfl := Option.some.inj he
      exact Or.inr taken_fresh
  | append_singleton pieces x ih =>
      obtain ⟨e', he', hcall⟩ := afterReads_concat.mp he
      rw [List.flatten_append, List.flatten_singleton] at hfit ⊢
      rw [List.length_append] at hfit
      rcases ih (by omega) he' with hcontent | htaken
      · have hbody := run_content (c := e'.receive x) .ok hcontent
        rw [← Parser.readRequest, hcall] at hbody
        exact Or.inl hbody
      · obtain ⟨-, hread⟩ := scanning_fresh.afterReads he'
          (by simp only [fresh]; omega)
        refine (htaken.receive ?_).readRequest hcall
        rw [hread]
        simp only [fresh]
        omega

/-! ## The lines behind what is seen -/

theorem rounds_content (hstate : c.checkState = .content)
    (hrounds : Rounds (.ok, c) (status, d)) : d.checkState = .content := by
  refine invariant_of_run
    (I := fun t : LineStatus × Parser => t.2.checkState = .content)
    hrounds hstate ?_
  rintro ⟨status, d⟩ t hd hstep
  exact (step_content status hd).2 t hstep

theorem Handles.line {pieces : List Bytes} {last : Bytes}
    (h : Handles pieces last c)
    (hfit : (pieces.flatten ++ last).length ≤ readBufferSize) :
    ∃ p l rest, pieces.flatten ++ last = p ++ (l ++ (crlf ++ rest)) ∧
      (∀ b ∈ l, IsLineByte b) ∧ c.startLine = p.length ∧
      c.checkedIndex = p.length + l.length + 2 ∧
      StringAt c.mem c.startLine (lineText l) ∧
      LinesBefore c.checkState p := by
  obtain ⟨e, status, d, he, hrounds, hstate, hparse⟩ := h
  rw [List.length_append] at hfit
  have htaken : d.Taken (pieces.flatten ++ last) := by
    have hfront : e.Taken pieces.flatten := by
      refine (taken_afterReads (by omega) he).resolve_left fun hcontent => ?_
      exact hstate (rounds_content (c := e.receive last) hcontent hrounds)
    obtain ⟨-, hread⟩ := scanning_fresh.afterReads he
      (by simp only [fresh]; omega)
    refine ((hfront.receive ?_).rounds hrounds).resolve_left hstate
    rw [hread]
    simp only [fresh]
    omega
  have hline := htaken.scanning.parseLine_eq
  cases hsplit : splitLine d.unparsed with
  | none =>
      rw [hsplit, hparse] at hline
      obtain ⟨status', hne, heq⟩ := hline
      exact absurd (congrArg Prod.fst heq).symm hne
  | some q =>
      obtain ⟨l, rest⟩ := q
      rw [hsplit, hparse] at hline
      obtain rfl := congrArg Prod.snd hline
      obtain ⟨hun, hl⟩ := eq_append_crlf_of_splitLine hsplit
      obtain ⟨p, hbytes, hp, hbefore⟩ := htaken.before
      refine ⟨p, l, rest, ?_, hl, hp, ?_,
        htaken.scanning.stringAt_line hsplit, hbefore⟩
      · rw [hbytes, hun, List.append_assoc]
      · change d.startLine + l.length + 2 = _
        rw [hp]

theorem Seen.line {pieces : List Bytes} {last : Bytes}
    (h : Seen pieces last c)
    (hfit : (pieces.flatten ++ last).length ≤ readBufferSize) :
    ∃ p l rest, pieces.flatten ++ last = p ++ (l ++ (crlf ++ rest)) ∧
      (∀ b ∈ l, IsLineByte b) ∧ c.startLine = p.length ∧
      c.checkedIndex = p.length + l.length + 2 ∧
      StringAt c.mem c.startLine (lineText l) ∧
      LinesBefore c.checkState p := by
  obtain ⟨xs, x, ⟨ys, hys⟩, hhandles⟩ := h
  have hall : pieces.flatten ++ last = xs.flatten ++ x ++ ys.flatten := by
    have hflat := congrArg List.flatten hys
    simpa using hflat.symm
  rw [hall] at hfit ⊢
  rw [List.length_append] at hfit
  obtain ⟨p, l, rest, hbytes, hline⟩ := hhandles.line (by omega)
  exact ⟨p, l, rest ++ ys.flatten, by rw [hbytes]; simp, hline⟩

/-! ## The lines are there -/

theorem parseTarget_checkState (c : Parser) (u : ℕ) :
    (c.parseTarget u).2.checkState = c.checkState ∨
      (c.parseTarget u).2.checkState = .header := by
  simp only [parseTarget]
  repeat' split
  all_goals first
    | exact Or.inl rfl
    | exact Or.inr rfl

theorem parseRequestLine_checkState (c : Parser) (text : ℕ) :
    (c.parseRequestLine text).2.checkState = c.checkState ∨
      (c.parseRequestLine text).2.checkState = .header := by
  simp only [parseRequestLine]
  split
  · exact Or.inl rfl
  · split
    · split
      · exact Or.inl rfl
      · split
        · exact parseTarget_checkState _ _
        · exact Or.inl rfl
    · exact Or.inl rfl

/-- `parse_headers` stays in the header section unless the line starts with the
terminator. -/
theorem parseHeaders_of_ne {text : ℕ} (h : c.byteAt text ≠ 0) :
    (c.parseHeaders text).1 = .noRequest ∧
      (c.parseHeaders text).2.checkState = c.checkState := by
  simp only [parseHeaders, if_neg h]
  repeat' split
  all_goals exact ⟨rfl, rfl⟩

/-- The body is entered, and without a body `do_request` is called, only at a
header line that starts with the terminator. -/
theorem handleLine_ends (hstate : c.checkState ≠ .content)
    (h : (∃ status d, c.handleLine = .inr (status, d) ∧
        d.checkState = .content) ∨
      ∃ stored d, c.handleLine = .inl (.doRequest stored, d)) :
    c.checkState = .header ∧ c.byteAt c.startLine = 0 := by
  cases hcase : c.checkState with
  | content => exact absurd hcase hstate
  | requestLine =>
      have hkeeps := parseRequestLine_checkState c.restart c.startLine
      simp only [handleLine, hcase] at h
      generalize c.restart.parseRequestLine c.startLine = result at h hkeeps
      obtain ⟨code, d⟩ := result
      rw [restart_checkState, hcase] at hkeeps
      rcases h with ⟨status, d', heq, hcontent⟩ | ⟨stored, d', heq⟩
      · split at heq
        next heq' => cases heq
        next heq' =>
          cases heq'
          cases heq
          rw [hcontent] at hkeeps
          rcases hkeeps with hkeeps | hkeeps <;> cases hkeeps
      · split at heq <;> cases heq
  | header =>
      refine ⟨rfl, ?_⟩
      by_contra hne
      obtain ⟨hcode, hkeeps⟩ := parseHeaders_of_ne
        (c := c.restart) hne
      simp only [handleLine, hcase] at h
      generalize c.restart.parseHeaders c.startLine = result at h hcode hkeeps
      obtain ⟨code, d⟩ := result
      simp only at hcode
      subst hcode
      rw [restart_checkState, hcase] at hkeeps
      rcases h with ⟨status, d', heq, hcontent⟩ | ⟨stored, d', heq⟩
      · cases heq
        rw [hcontent] at hkeeps
        cases hkeeps
      · cases heq

/-- `BAD_REQUEST` comes from the request line. -/
theorem handleLine_badRequest (h : c.handleLine = .inl (.badRequest, d)) :
    d.checkState ≠ .content := by
  cases hcase : c.checkState with
  | content =>
      rw [handleLine_of_content hcase] at h
      split_ifs at h
      all_goals cases h
  | requestLine =>
      have hkeeps := parseRequestLine_checkState c.restart c.startLine
      simp only [handleLine, hcase] at h
      generalize c.restart.parseRequestLine c.startLine = result at h hkeeps
      obtain ⟨code, d'⟩ := result
      rw [restart_checkState, hcase] at hkeeps
      split at h
      next heq =>
        cases heq
        cases h
        simp only at hkeeps
        rcases hkeeps with hkeeps | hkeeps <;> simp [hkeeps]
      · cases h
  | header =>
      simp only [handleLine, hcase] at h
      by_cases hzero : c.restart.byteAt c.startLine = 0
      · simp only [parseHeaders, if_pos hzero] at h
        split_ifs at h
        all_goals cases h
      · obtain ⟨hcode, -⟩ := parseHeaders_of_ne hzero
        generalize c.restart.parseHeaders c.startLine = result at h hcode
        obtain ⟨code, d'⟩ := result
        simp only at hcode
        subst hcode
        cases h

section Calls

variable {pieces : List Bytes} {last : Bytes}

/-- A connection behind the request line has seen it, and one in the body has
seen the line that ended the headers. -/
structure Known (pieces : List Bytes) (last : Bytes) (c : Parser) : Prop where
  first : c.checkState ≠ .requestLine →
    ∃ first, Seen pieces last first ∧ first.checkState = .requestLine
  ended : c.checkState = .content →
    ∃ d, Seen pieces last d ∧ d.checkState = .header ∧
      d.byteAt d.startLine = 0

theorem Known.of_checkState (h : Known pieces last c)
    (heq : d.checkState = c.checkState) : Known pieces last d where
  first := by
    rw [heq]
    exact h.first
  ended := by
    rw [heq]
    exact h.ended

theorem Known.later (h : Known pieces last c) (x : Bytes) :
    Known (pieces ++ [last]) x c := by
  have hseen : ∀ {d}, Seen pieces last d → Seen (pieces ++ [last]) x d := by
    rintro d ⟨xs, y, hprefix, hhandles⟩
    exact ⟨xs, y, hprefix.trans (List.prefix_append _ _), hhandles⟩
  constructor
  · intro hne
    obtain ⟨first, hfirst, hstate⟩ := h.first hne
    exact ⟨first, hseen hfirst, hstate⟩
  · intro hcontent
    obtain ⟨d, hd, hstate⟩ := h.ended hcontent
    exact ⟨d, hseen hd, hstate⟩

/-- A round outside the body handles a line or finds none. -/
theorem step_cases (status : LineStatus) (hstate : c.checkState ≠ .content) :
    (∃ c', c.parseLine = (.ok, c') ∧ c'.checkState = c.checkState ∧
        readRequestStep (status, c) = c'.handleLine) ∨
      ∃ c', c'.checkState = c.checkState ∧
        readRequestStep (status, c) = .inl (.noRequest, c') := by
  have hframe := (scanLine_frame (c.readIdx - c.checkedIndex) c).2.2.1
  rw [← parseLine] at hframe
  rw [readRequestStep_of_scan fun h => hstate h.1]
  generalize c.parseLine = result at hframe ⊢
  obtain ⟨status', c'⟩ := result
  cases status' with
  | ok => exact Or.inl ⟨c', rfl, hframe, rfl⟩
  | bad | openLine => exact Or.inr ⟨c', hframe, rfl⟩

section Call

variable (he : Parser.fresh.afterReads pieces = some e)
  (hrounds : Rounds (.ok, e.receive last) (status, c))

include he hrounds

theorem Known.round (h : Known pieces last c)
    (hstep : readRequestStep (status, c) = .inr (status', d)) :
    Known pieces last d := by
  by_cases hstate : c.checkState = .content
  · have hd := (step_content status hstate).2 _ hstep
    exact h.of_checkState (hd.trans hstate.symm)
  · rcases step_cases status hstate with
      ⟨c', hline, hsame, hhandle⟩ | ⟨c', -, hexit⟩
    · have hseen : Seen pieces last c' :=
        ⟨pieces, last, List.prefix_rfl, e, status, c, he, hrounds, hstate, hline⟩
      rw [hhandle] at hstep
      constructor
      · intro _
        by_cases hfirst : c.checkState = .requestLine
        · exact ⟨c', hseen, hsame.trans hfirst⟩
        · exact h.first hfirst
      · intro hcontent
        exact ⟨c', hseen, handleLine_ends (by rwa [hsame])
          (Or.inl ⟨_, _, hstep, hcontent⟩)⟩
    · rw [hexit] at hstep
      cases hstep

theorem Known.doRequest (h : Known pieces last c) {stored : Option ℤ}
    (hstep : readRequestStep (status, c) = .inl (.doRequest stored, d)) :
    ∃ first c, HeadLines pieces last first c := by
  by_cases hstate : c.checkState = .content
  · obtain ⟨first, hfirst, hrequest⟩ := h.first (by simp [hstate])
    obtain ⟨d, hd, hheader, hzero⟩ := h.ended hstate
    exact ⟨first, d, hfirst, hrequest, hd, hheader, hzero⟩
  · rcases step_cases status hstate with
      ⟨c', hline, hsame, hhandle⟩ | ⟨c', -, hexit⟩
    · have hseen : Seen pieces last c' :=
        ⟨pieces, last, List.prefix_rfl, e, status, c, he, hrounds, hstate, hline⟩
      rw [hhandle] at hstep
      obtain ⟨hheader, hzero⟩ := handleLine_ends (by rwa [hsame])
        (Or.inr ⟨_, _, hstep⟩)
      obtain ⟨first, hfirst, hrequest⟩ := h.first (by
        rw [← hsame, hheader]
        simp)
      exact ⟨first, c', hfirst, hrequest, hseen, hheader, hzero⟩
    · rw [hexit] at hstep
      cases hstep

end Call

theorem Known.rounds (he : Parser.fresh.afterReads pieces = some e)
    (h : Known pieces last (e.receive last)) {t : LineStatus × Parser}
    (hrounds : Rounds (.ok, e.receive last) t) : Known pieces last t.2 := by
  induction hrounds with
  | refl => exact h
  | @tail t u hrounds hlast ih => exact ih.round he hrounds hlast

/-- What is known after a call that asks for more. -/
theorem Known.noRequest (he : Parser.fresh.afterReads pieces = some e)
    (h : Known pieces last (e.receive last))
    (hcall : (e.receive last).readRequest = (.noRequest, d)) :
    Known pieces last d := by
  obtain ⟨⟨status, c⟩, hrounds, hexit⟩ :=
    readRequestLoop.exists_rounds (.ok, e.receive last)
  have hc : Known pieces last c := h.rounds he hrounds
  rw [← Parser.readRequest, hcall] at hexit
  by_cases hstate : c.checkState = .content
  · exact hc.of_checkState
      (((step_content status hstate).1 _ hexit).trans hstate.symm)
  · have hstep : readRequestStep (status, c) = .inl (.noRequest, d) := hexit
    rcases step_cases status hstate with
      ⟨c', -, -, hhandle⟩ | ⟨c', hsame, hnone⟩
    · rw [hhandle] at hstep
      exact absurd hstep (handleLine_ne_noRequest c' d)
    · rw [hnone] at hstep
      cases hstep
      exact hc.of_checkState hsame

theorem known_afterReads (he : Parser.fresh.afterReads pieces = some e) :
    ∀ last, Known pieces last e := by
  induction pieces using List.reverseRecOn generalizing e with
  | nil =>
      obtain rfl := Option.some.inj he
      exact fun last => ⟨fun h => absurd rfl h, fun h => by cases h⟩
  | append_singleton pieces x ih =>
      obtain ⟨e', he', hcall⟩ := afterReads_concat.mp he
      have hknown : Known pieces x (e'.receive x) :=
        (ih he' x).of_checkState rfl
      exact fun last => (hknown.noRequest he' hcall).later last

/-- The two lines on the bytes received. -/
theorem HeadLines.lines {first : Parser} (h : HeadLines pieces last first c)
    (hfit : (pieces.flatten ++ last).length ≤ readBufferSize) :
    ∃ r ls l rest, pieces.flatten ++ last =
        r ++ (crlf ++ (headerLines ls ++ (l ++ (crlf ++ rest)))) ∧
      (∀ b ∈ r, IsLineByte b) ∧
      (∀ x ∈ ls, (∀ b ∈ x, IsLineByte b) ∧ lineText x ≠ []) ∧
      (∀ b ∈ l, IsLineByte b) ∧ lineText l = [] ∧
      c.startLine = (r ++ (crlf ++ headerLines ls)).length ∧
      c.checkedIndex = c.startLine + l.length + 2 ∧
      StringAt first.mem first.startLine (lineText r) ∧
      first.checkedIndex = r.length + 2 := by
  obtain ⟨p, l, rest, hs, hl, hstart, hend, hstring, hbefore⟩ :=
    h.seen.line hfit
  obtain ⟨p', r', rest', hs', hr', hstart', hend', hstring', hbefore'⟩ :=
    h.seen_first.line hfit
  rw [h.header] at hbefore
  rw [h.requestLine] at hbefore'
  obtain ⟨-, r, ls, rfl, hr, hls⟩ := hbefore.resolve_left (by simp)
  obtain ⟨-, rfl⟩ := hbefore'.resolve_right (by simp)
  have hbytes : pieces.flatten ++ last =
      r ++ (crlf ++ (headerLines ls ++ (l ++ (crlf ++ rest)))) := by
    rw [hs]
    simp
  obtain ⟨rfl, -⟩ := append_crlf_inj hr hr' (hbytes.symm.trans hs')
  have htext : lineText l = [] := by
    have hbyte := byteAt_of_stringAt hstring
    rw [h.terminator] at hbyte
    cases htext : lineText l with
    | nil => rfl
    | cons b t =>
        have hnul := zero_notMem_lineText l
        rw [htext] at hbyte hnul
        simp only [List.head?_cons, Option.getD_some] at hbyte
        exact absurd (by simp [hbyte]) hnul
  exact ⟨r', ls, l, rest, hbytes, hr, hls, hl, htext, hstart,
    by rw [hend, hstart], hstring', by simpa using hend'⟩

/-- When `do_request` is reached or the body is entered, the request line and
the line that ended the headers have been handled. -/
theorem exists_headLines {exit : ReadExit}
    (he : Parser.fresh.afterReads pieces = some e)
    (hcall : (e.receive last).readRequest = (exit, d))
    (hout : (∃ stored, exit = .doRequest stored) ∨ d.checkState = .content) :
    ∃ first c, HeadLines pieces last first c := by
  have hknown : Known pieces last (e.receive last) :=
    (known_afterReads he last).of_checkState rfl
  obtain ⟨⟨status, c⟩, hrounds, hexit⟩ :=
    readRequestLoop.exists_rounds (.ok, e.receive last)
  rw [← Parser.readRequest, hcall] at hexit
  have hc : Known pieces last c := hknown.rounds he hrounds
  cases exit with
  | doRequest stored => exact hc.doRequest he hrounds hexit
  | noRequest =>
      have hcontent := hout.resolve_left (by simp)
      have hd := hknown.noRequest he hcall
      obtain ⟨first, hfirst, hrequest⟩ := hd.first (by simp [hcontent])
      obtain ⟨c', hc', hheader, hzero⟩ := hd.ended hcontent
      exact ⟨first, c', hfirst, hrequest, hc', hheader, hzero⟩
  | badRequest =>
      have hcontent := hout.resolve_left (by simp)
      have hstep : readRequestStep (status, c) = .inl (.badRequest, d) := hexit
      simp only [readRequestStep] at hstep
      split_ifs at hstep
      · exact absurd hcontent (handleLine_badRequest hstep)
      · split at hstep
        · exact absurd hcontent (handleLine_badRequest hstep)
        · cases hstep

/-- For every byte stream and every way to deliver it: when `do_request` is
reached or the body is entered, the headers were ended by the empty line of the
first CRLF CRLF and all of the request line was checked, exactly if the request
line has no NUL and no line up to the first empty one starts with one. -/
theorem endsProperly_iff (pieces : List Bytes) (last : Bytes)
    (hfit : (pieces.flatten ++ last).length ≤ readBufferSize)
    (he : Parser.fresh.afterReads pieces = some e) {exit : ReadExit}
    (hcall : (e.receive last).readRequest = (exit, d))
    (hout : (∃ stored, exit = .doRequest stored) ∨ d.checkState = .content) :
    (∃ first c, HeadLines pieces last first c) ∧
      ∀ first c, HeadLines pieces last first c →
        (EndsProperly (pieces.flatten ++ last) first c ↔
          PlainHead (pieces.flatten ++ last)) := by
  refine ⟨exists_headLines he hcall hout, fun first c h => ?_⟩
  obtain ⟨r, ls, l, rest, hs, hr, hls, hl, htext, hstart, hend, hstring, hcut⟩ :=
    h.lines hfit
  have hne : ∀ x ∈ ls, x ≠ [] := by
    rintro x hx rfl
    exact (hls [] hx).2 rfl
  constructor
  · intro hproper
    have hnil : l = [] := by
      have hempty := hproper.emptyLine
      rw [hend] at hempty
      exact List.length_eq_zero_iff.mp (by omega)
    subst hnil
    have hchecked := hproper.checked
    rw [hstring.cstr_eq] at hchecked
    have htext' : ∀ b ∈ lineText r, IsLineByte b :=
      fun b hb => hr b ((List.takeWhile_prefix _).subset hb)
    have hzero := lineText_eq_self_iff.mp
      (append_crlf_inj hr htext' (hs.symm.trans hchecked)).1
    rw [hs]
    exact plainHead_of_lines hr hzero hls
  · intro hplain
    obtain ⟨hzero, hhead⟩ := hplain r ls l rest hs hr
      (by
        intro x hx
        rcases List.mem_cons.mp hx with rfl | hx
        · exact hl
        · exact (hls x hx).1) hne
    have hnil := (lineText_eq_nil_iff.mp htext).resolve_right hhead
    subst hnil
    obtain ⟨a, ha⟩ := exists_eq_append_crlf r ls
    have hcrlf : crlf.length = 2 := rfl
    have hlen : (r ++ (crlf ++ headerLines ls)).length = a.length + 2 := by
      rw [ha, List.length_append, hcrlf]
    refine ⟨hend, ⟨a, rest, ?_, hstart.trans hlen⟩, ?_, ?_⟩
    · calc pieces.flatten ++ last
          = r ++ (crlf ++ headerLines ls) ++ (crlf ++ rest) := by
            rw [hs]
            simp
        _ = a ++ (crlf ++ (crlf ++ rest)) := by
            rw [ha]
            simp
    · intro a' rest' hs'
      rw [hstart]
      exact length_le_of_crlf_crlf hr (fun x hx => ⟨hne x hx, (hls x hx).1⟩)
        (hs.symm.trans hs')
    · rw [hstring.cstr_eq, lineText_eq_self hzero, hcut]
      conv_lhs => rw [hs]
      rw [hs, ← List.append_assoc r crlf, ← hcrlf, ← List.length_append,
        List.drop_left, List.append_assoc]

end Calls

theorem endsProperly_request :
    ∃ first c, HeadLines [] (ascii "GET / HTTP/1.1\r\n\r\n") first c ∧
      EndsProperly (ascii "GET / HTTP/1.1\r\n\r\n") first c := by
  have hexit : (Parser.fresh.receive
      (ascii "GET / HTTP/1.1\r\n\r\n")).readRequest.1 = .doRequest none := by
    decide +kernel
  have hcall := Prod.mk.eta (p := (Parser.fresh.receive
    (ascii "GET / HTTP/1.1\r\n\r\n")).readRequest)
  rw [hexit] at hcall
  obtain ⟨⟨first, c, h⟩, hall⟩ := endsProperly_iff []
    (ascii "GET / HTTP/1.1\r\n\r\n") (by decide) rfl hcall.symm
    (Or.inl ⟨none, rfl⟩)
  refine ⟨first, c, h, (hall first c h).mpr ?_⟩
  have hplain : PlainHead (ascii "GET / HTTP/1.1" ++ (crlf ++
      (headerLines [] ++ (crlf ++ [])))) :=
    plainHead_of_lines (by decide +kernel) (by decide) (by simp)
  exact hplain

/-- A header line that starts with a NUL: `do_request` is reached although no
empty line has come. -/
theorem not_endsProperly_nul :
    (Parser.fresh.receive
        (ascii "GET / HTTP/1.1\r\n\x00a\r\n")).readRequest.1 =
          .doRequest none ∧
      ∃ first c,
        HeadLines [] (ascii "GET / HTTP/1.1\r\n\x00a\r\n") first c ∧
          ¬ EndsProperly (ascii "GET / HTTP/1.1\r\n\x00a\r\n") first c := by
  have hexit : (Parser.fresh.receive
      (ascii "GET / HTTP/1.1\r\n\x00a\r\n")).readRequest.1 =
        .doRequest none := by
    decide +kernel
  have hcall := Prod.mk.eta (p := (Parser.fresh.receive
    (ascii "GET / HTTP/1.1\r\n\x00a\r\n")).readRequest)
  rw [hexit] at hcall
  obtain ⟨first, c, h⟩ := exists_headLines
    (rfl : Parser.fresh.afterReads [] = some Parser.fresh) hcall.symm
    (Or.inl ⟨none, rfl⟩)
  refine ⟨hexit, first, c, h, fun hproper => ?_⟩
  obtain ⟨a, rest, hs, -⟩ := hproper.occurs
  have hinfix : crlf ++ crlf <:+: ascii "GET / HTTP/1.1\r\n\x00a\r\n" :=
    ⟨a, rest, by rw [hs]; simp⟩
  revert hinfix
  decide +kernel

end Parser

end BackendLab.Proactor
