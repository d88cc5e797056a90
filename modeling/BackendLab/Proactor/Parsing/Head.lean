import BackendLab.Proactor.Parsing.Splitting

/-!
# The header section on plain bytes

`parseHead` reads the request line and the header lines off a byte string and
collects what they say.  It knows nothing of buffers and pointers; the second
half of the module shows that `process_read` computes exactly this, with
`m_url` and `m_host` pointing at the collected strings.
-/

namespace BackendLab.Proactor

open Support

/-- What the lines read so far have said: the path asked for and where it starts
in the byte stream, the last `Host`, whether to keep the connection, and the
integer written in the last `Content-Length` header, whatever its size. -/
structure Head where
  url : Option Bytes
  urlAt : ℕ
  host : Option Bytes
  linger : Bool
  declared : ℤ
  deriving DecidableEq, Repr

namespace Head

def empty : Head := ⟨none, 0, none, false, 0⟩

/-- The declared length as the `int` member `m_content_length` holds it. -/
def contentLength (h : Head) : ℤ :=
  toInt32 (clampLong h.declared)

/-- A header line with the nonempty text `t`. -/
def addHeader (h : Head) (t : Bytes) : Head :=
  if eqIgnoreCase (t.take 11) (ascii "Connection:") then
    if eqIgnoreCase (skipBlanks (t.drop 11)) (ascii "keep-alive") then
      { h with linger := true }
    else h
  else if eqIgnoreCase (t.take 15) (ascii "Content-Length:") then
    { h with declared := writtenInt (skipBlanks (t.drop 15)) }
  else if eqIgnoreCase (t.take 5) (ascii "Host:") then
    { h with host := some (skipBlanks (t.drop 5)) }
  else h

theorem addHeader_url (h : Head) (t : Bytes) : (h.addHeader t).url = h.url := by
  unfold addHeader
  repeat' split
  all_goals rfl

end Head

/-- The path in a request target: all of it, or for an absolute target the part
from the first slash behind the scheme. -/
def resource (u : Bytes) : Option Bytes :=
  if eqIgnoreCase (u.take 7) (ascii "http://") then
    (cutAt [slash] (u.drop 7)).map fun c => slash :: c.2
  else if u.head? = some slash then some u
  else none

/-- The path that a request line asks for, if the line is well formed. -/
def requestTarget (t : Bytes) : Option Bytes :=
  match cutAt blanks t with
  | none => none
  | some (m, t) =>
      if eqIgnoreCase m (ascii "GET") then
        match cutAt blanks t with
        | none => none
        | some (u, v) =>
            if eqIgnoreCase v (ascii "HTTP/1.1") then resource u else none
      else none

/-- Where the path `u` starts in a request line `t`: it is followed by a blank
and the eight bytes of the version. -/
def targetStart (t u : Bytes) : ℕ :=
  t.length - 9 - u.length

inductive HeadResult where
  | incomplete (h : Head) (rest : Bytes)
  | bad
  | complete (h : Head) (rest : Bytes)
  deriving DecidableEq, Repr

/-- One line of the header section. -/
def headStep : Head × Bytes → HeadResult ⊕ (Head × Bytes)
  | (h, s) =>
      match splitLine s with
      | none => .inl (.incomplete h s)
      | some (l, rest) =>
          match h.url with
          | none =>
              match requestTarget (lineText l) with
              | none => .inl .bad
              | some u =>
                  .inr ({ h with
                    url := some u
                    urlAt := targetStart (lineText l) u }, rest)
          | some _ =>
              if lineText l = [] then .inl (.complete h rest)
              else .inr (h.addHeader (lineText l), rest)

theorem headStep_length_lt {s s' : Head × Bytes} (h : headStep s = .inr s') :
    s'.2.length < s.2.length := by
  obtain ⟨h₀, s⟩ := s
  unfold headStep at h
  cases hsplit : splitLine s with
  | none => simp [hsplit] at h
  | some p =>
      have hlen := splitLine_length hsplit
      simp only [hsplit] at h
      repeat' split at h
      all_goals
        cases h
        try simp only
        try omega

def headLoop : Loop (Head × Bytes) HeadResult where
  step := headStep
  rank := fun s => s.2.length
  rank_lt := headStep_length_lt

/-- The header section at the start of `s`. -/
def parseHead (s : Bytes) : HeadResult :=
  headLoop.run (Head.empty, s)

/-! ## What the in-place handlers compute -/

namespace Parser

variable {c : Parser}

theorem applyTarget_spec {p : ℕ} {u : Bytes} (h : StringAt c.mem p u)
    (hurl : c.url = some p) :
    match resource u with
    | none => (c.applyTarget p u).1 = .badRequest
    | some v => ∃ q d, c.applyTarget p u = (.noRequest, d) ∧
        d = { c with url := some q, checkState := .header } ∧
        StringAt c.mem q v ∧ q + v.length = p + u.length := by
  unfold applyTarget resource
  by_cases habs : eqIgnoreCase (u.take 7) (ascii "http://") = true
  · rw [if_pos habs, if_pos habs]
    cases hcut : cutAt [slash] (u.drop 7) with
    | none => rfl
    | some d =>
        obtain ⟨a, t⟩ := d
        obtain ⟨w, hw, hu, -⟩ := cutAt_eq_some_iff.mp hcut
        obtain rfl : w = slash := by simpa using hw
        have hlen : (u.take 7).length = 7 := by
          rw [length_eq_of_eqIgnoreCase habs]
          decide
        have hwhole : u = (u.take 7 ++ a) ++ slash :: t := by
          rw [List.append_assoc, ← hu, List.take_append_drop]
        have hstring := h
        rw [hwhole] at hstring
        have hq : p + (u.take 7 ++ a).length = p + 7 + a.length := by
          rw [List.length_append, hlen]
          omega
        refine ⟨p + 7 + a.length, _, rfl, rfl, ?_, ?_⟩
        · rw [← hq]
          exact hstring.drop
        · have hsum := congrArg List.length hwhole
          simp only [List.length_append, hlen, List.length_cons] at hsum ⊢
          omega
  · rw [if_neg habs, if_neg habs]
    by_cases hslash : u.head? = some slash
    · rw [if_pos hslash, if_pos hslash]
      exact ⟨p, _, rfl, by rw [← hurl], h, rfl⟩
    · rw [if_neg hslash, if_neg hslash]

/-- `parse_request_line` rejects the line, or leaves `m_url` at its path. -/
theorem applyRequestLine_spec {text : ℕ} {t : Bytes}
    (h : StringAt c.mem text t) :
    match requestTarget t with
    | none => (c.applyRequestLine text t).1 = .badRequest
    | some u => ∃ q d, c.applyRequestLine text t = (.noRequest, d) ∧
        d.url = some q ∧ StringAt d.mem q u ∧
        q + u.length + 9 = text + t.length ∧ d.checkState = .header ∧
        d.host = c.host ∧ d.linger = c.linger ∧
        d.contentLength = c.contentLength := by
  unfold applyRequestLine requestTarget
  cases hcut : cutAt blanks t with
  | none => rfl
  | some d =>
      obtain ⟨m, t'⟩ := d
      obtain ⟨w, -, rfl, -⟩ := cutAt_eq_some_iff.mp hcut
      have ht' := h.cut_right
      rw [← cut_mem] at ht'
      dsimp only
      split_ifs with hget
      · unfold applyAfterMethod
        cases hcut' : cutAt blanks t' with
        | none => rfl
        | some d =>
            obtain ⟨u, v⟩ := d
            obtain ⟨w', -, rfl, -⟩ := cutAt_eq_some_iff.mp hcut'
            have hu := ht'.cut
            rw [← cut_mem] at hu
            dsimp only
            split_ifs with hversion
            · have hspec := applyTarget_spec
                (c := { (c.cut (text + m.length)).cut
                    (text + m.length + 1 + u.length) with
                  url := some (text + m.length + 1)
                  method := .get
                  version := some (text + m.length + 1 + u.length + 1) }) hu rfl
              cases hres : resource u with
              | none =>
                  rw [hres] at hspec
                  exact hspec
              | some r =>
                  rw [hres] at hspec
                  obtain ⟨q, d, happly, rfl, hq, hlen⟩ := hspec
                  refine ⟨q, _, happly, rfl, hq, ?_, rfl, rfl, rfl, rfl⟩
                  have hv : v.length = 8 := length_eq_of_eqIgnoreCase hversion
                  simp only [List.length_append, List.length_cons]
                  omega
            · rfl
      · rfl

/-! ## Refinement -/

/-- A pointer member holds null, or points at the given string in a part of the
buffer that has been parsed. -/
def PointsTo (c : Parser) (pointer : Option ℕ) : Option Bytes → Prop
  | none => pointer = none
  | some s => ∃ p, pointer = some p ∧ StringAt c.mem p s ∧
      p + s.length < c.startLine

/-- The connection has taken in exactly the lines collected in `h`. -/
structure Represents (c : Parser) (h : Head) : Prop where
  checkState : c.checkState = if h.url = none then .requestLine else .header
  url : c.PointsTo c.url h.url
  urlAt : h.url ≠ none → c.url = some h.urlAt
  host : c.PointsTo c.host h.host
  unstarted : h.url = none → h.host = none ∧ c.startLine = 0
  linger : c.linger = h.linger
  contentLength : c.contentLength = h.contentLength

theorem represents_fresh : Parser.fresh.Represents Head.empty where
  checkState := rfl
  url := rfl
  urlAt := fun h => absurd rfl h
  host := rfl
  unstarted := fun _ => ⟨rfl, rfl⟩
  linger := rfl
  contentLength := by decide

theorem Represents.checkState_ne {h : Head} (hr : c.Represents h) :
    c.checkState ≠ .content := by
  rw [hr.checkState]
  split <;> simp

/-- Pointers into parsed lines survive what the parser does further on. -/
theorem PointsTo.mono {d : Parser} {pointer : Option ℕ} {s : Option Bytes}
    (h : c.PointsTo pointer s)
    (hstring : ∀ p t, StringAt c.mem p t → p + t.length < c.startLine →
      StringAt d.mem p t)
    (hstart : c.startLine ≤ d.startLine) : d.PointsTo pointer s := by
  cases s with
  | none => exact h
  | some t =>
      obtain ⟨p, hp, hat, hlt⟩ := h
      exact ⟨p, hp, hstring p t hat hlt, lt_of_lt_of_le hlt hstart⟩

theorem stringAt_endLine_of_lt {p e : ℕ} {t : Bytes} (h : StringAt c.mem p t)
    (he : p + t.length < e) : StringAt (c.endLine e).mem p t := by
  simp only [endLine, moveTo_mem, cut_mem]
  exact (h.set_of_ne 0 (Or.inr he)).set_of_ne 0 (Or.inr (by omega))

theorem handleLine_requestLine_spec {t : Bytes}
    (hstate : c.checkState = .requestLine)
    (h : StringAt c.mem c.startLine t) :
    match requestTarget t with
    | none => ∃ d, c.handleLine = .inl (.badRequest, d)
    | some u => ∃ q d, c.handleLine = .inr (.ok, d) ∧
        d.url = some q ∧ StringAt d.mem q u ∧
        q + u.length + 9 = c.startLine + t.length ∧ d.checkState = .header ∧
        d.host = c.host ∧ d.linger = c.linger ∧
        d.contentLength = c.contentLength := by
  rw [handleLine_of_requestLine hstate h]
  have hspec := applyRequestLine_spec (c := c.restart) h
  cases htarget : requestTarget t with
  | none =>
      rw [htarget] at hspec
      generalize c.restart.applyRequestLine _ _ = result at hspec
      obtain ⟨code, d⟩ := result
      simp only at hspec
      subst hspec
      exact ⟨d, rfl⟩
  | some u =>
      rw [htarget] at hspec
      obtain ⟨q, d, happly, hspec⟩ := hspec
      rw [happly]
      exact ⟨q, d, rfl, hspec⟩

/-- A first line is the request line. -/
theorem Represents.step_requestLine {h : Head} (hr : c.Represents h)
    (hs : c.Scanning) {l rest : Bytes}
    (hsplit : splitLine c.unparsed = some (l, rest)) (hurl : h.url = none) :
    match requestTarget (lineText l) with
    | none => ∃ d, readRequestStep (.ok, c) = .inl (.badRequest, d)
    | some u => ∃ d, readRequestStep (.ok, c) = .inr (.ok, d) ∧
        d.Represents { h with
          url := some u
          urlAt := targetStart (lineText l) u } := by
  have hstate : c.checkState = .requestLine := by
    rw [hr.checkState, if_pos hurl]
  have hspec := handleLine_requestLine_spec
    (c := c.endLine (c.startLine + l.length)) hstate (hs.stringAt_line hsplit)
  rw [step_of_splitLine hs (fun h => hr.checkState_ne h.1) hsplit]
  cases htarget : requestTarget (lineText l) with
  | none =>
      rw [htarget] at hspec
      exact hspec
  | some u =>
      rw [htarget] at hspec
      obtain ⟨q, d, hline, hq, hstring, hlen, hheader, hhost, hlinger,
        hcontent⟩ := hspec
      obtain ⟨-, -, -, hstart, -, -⟩ := hs.next hsplit hr.checkState_ne hline
      have htext := lineText_length_le l
      have hlen' : q + u.length + 9 = c.startLine + (lineText l).length := hlen
      obtain ⟨hhost', hzero⟩ := hr.unstarted hurl
      have hnone : c.host = none := by
        have hpoints := hr.host
        rwa [hhost'] at hpoints
      have hat : q = targetStart (lineText l) u := by
        unfold targetStart
        omega
      refine ⟨d, hline, ?_, ⟨q, hq, hstring, by omega⟩,
        fun _ => hat ▸ hq, ?_, by simp,
        hlinger.trans hr.linger, hcontent.trans hr.contentLength⟩
      · simp [hheader]
      · rw [hhost']
        exact hhost.trans hnone

/-- A header line adds to what is known of the request. -/
theorem Represents.step_header {h : Head} (hr : c.Represents h)
    (hs : c.Scanning) {l rest : Bytes}
    (hsplit : splitLine c.unparsed = some (l, rest)) (hurl : h.url ≠ none)
    (htext : lineText l ≠ []) :
    ∃ d, readRequestStep (.ok, c) = .inr (.ok, d) ∧
      d.Represents (h.addHeader (lineText l)) := by
  have hstate : c.checkState = .header := by
    rw [hr.checkState, if_neg hurl]
  have hat := hs.stringAt_line hsplit
  have hline := handleLine_of_header
    (c := c.endLine (c.startLine + l.length)) hstate hat
  rw [if_neg htext] at hline
  obtain ⟨-, -, -, hstart, -, -⟩ := hs.next hsplit hr.checkState_ne hline
  rw [← step_of_splitLine hs (fun h => hr.checkState_ne h.1) hsplit] at hline
  refine ⟨_, hline, ?_⟩
  have hlen := lineText_length_le l
  -- The cuts of this line lie behind every string found so far.
  have hkeep : ∀ {e : Parser} {pointer : Option ℕ} {s : Option Bytes},
      e.mem = (c.endLine (c.startLine + l.length)).mem →
      e.startLine = c.startLine + l.length + 2 →
      c.PointsTo pointer s → e.PointsTo pointer s := by
    intro e pointer s hmem hstart' hpoints
    refine hpoints.mono (fun p t hp hlt => ?_) (by omega)
    rw [hmem]
    exact stringAt_endLine_of_lt hp (by omega)
  have hurl' : (if h.url = none then CheckState.requestLine else .header) =
      .header := if_neg hurl
  unfold applyHeader Head.addHeader
  split_ifs with hconn halive hlength hhost
  · exact ⟨hstate.trans hurl'.symm, hkeep rfl rfl hr.url,
      hr.urlAt, hkeep rfl rfl hr.host, fun h0 => absurd h0 hurl, rfl, hr.contentLength⟩
  · exact ⟨hstate.trans hurl'.symm, hkeep rfl rfl hr.url,
      hr.urlAt, hkeep rfl rfl hr.host, fun h0 => absurd h0 hurl, hr.linger, hr.contentLength⟩
  · exact ⟨hstate.trans hurl'.symm, hkeep rfl rfl hr.url,
      hr.urlAt, hkeep rfl rfl hr.host, fun h0 => absurd h0 hurl, hr.linger, rfl⟩
  · have hvalue := stringAt_value hat hhost rfl
    refine ⟨hstate.trans hurl'.symm, hkeep rfl rfl hr.url, hr.urlAt, ?_,
      fun h0 => absurd h0 hurl, hr.linger, hr.contentLength⟩
    have hfive : ((lineText l).take 5).length = 5 :=
      length_eq_of_eqIgnoreCase hhost
    have hsplitLen := congrArg List.length (List.takeWhile_append_dropWhile
      (p := (· ∈ blanks)) (l := (lineText l).drop 5))
    rw [List.length_append, List.length_drop] at hsplitLen
    rw [List.length_take] at hfive
    have hspn : strspn (c.endLine (c.startLine + l.length)).mem
        (c.startLine + 5) blanks =
        (((lineText l).drop 5).takeWhile (· ∈ blanks)).length := by
      rw [strspn, hvalue.1.cstr_eq]
    rw [hspn] at hvalue
    refine ⟨_, rfl, hvalue.2, ?_⟩
    change c.startLine + 5 + _ + (List.dropWhile _ _).length <
      c.startLine + l.length + 2
    omega
  · exact ⟨hstate.trans hurl'.symm, hkeep rfl rfl hr.url,
      hr.urlAt, hkeep rfl rfl hr.host, fun h0 => absurd h0 hurl, hr.linger, hr.contentLength⟩

/-- The connection right behind the empty line that ends the headers, with the
bytes `rest` received behind it. -/
structure HeadEnd (c : Parser) (h : Head) (rest : Bytes) : Prop where
  scanning : c.Scanning
  represents : c.Represents h
  unparsed : c.unparsed = rest
  checkedIndex : c.checkedIndex = c.startLine

/-- The empty line ends the headers. -/
theorem Represents.step_emptyLine {h : Head} (hr : c.Represents h)
    (hs : c.Scanning) {l rest : Bytes}
    (hsplit : splitLine c.unparsed = some (l, rest)) (hurl : h.url ≠ none)
    (htext : lineText l = []) :
    ∃ d, HeadEnd d h rest ∧ d.readIdx = c.readIdx ∧
      readRequestStep (.ok, c) =
        if h.contentLength = 0 then .inl (.doRequest none, d)
        else .inr (.ok, { d with checkState := .content }) := by
  have hstate : c.checkState = .header := by
    rw [hr.checkState, if_neg hurl]
  have hat := hs.stringAt_line hsplit
  have hline := handleLine_of_header
    (c := c.endLine (c.startLine + l.length)) hstate hat
  rw [if_pos htext] at hline
  have hrestart := hs.endLine_restart hsplit
  have hidx := hs.readIdx_eq hsplit
  have hkeep : ∀ {pointer : Option ℕ} {s : Option Bytes},
      c.PointsTo pointer s →
        (c.endLine (c.startLine + l.length)).restart.PointsTo pointer s := by
    intro pointer s hpoints
    refine hpoints.mono (fun p t hp hlt => ?_) ?_
    · exact stringAt_endLine_of_lt hp (by omega)
    · change c.startLine ≤ c.startLine + l.length + 2
      omega
  refine ⟨(c.endLine (c.startLine + l.length)).restart,
    ⟨hrestart, ⟨hr.checkState, hkeep hr.url, hr.urlAt, hkeep hr.host,
      fun h0 => absurd h0 hurl, hr.linger, hr.contentLength⟩, ?_, rfl⟩, rfl, ?_⟩
  · change ((c.endLine (c.startLine + l.length)).mem.drop
      (c.startLine + l.length + 2)).take
      (c.readIdx - (c.startLine + l.length + 2)) = rest
    rw [drop_endLine, hs.drop_nextLine hsplit]
    exact List.take_left' (by omega)
  · rw [step_of_splitLine hs (fun h => hr.checkState_ne h.1) hsplit, hline]
    have hlength : (c.endLine (c.startLine + l.length)).contentLength =
        h.contentLength := hr.contentLength
    rw [hlength]
    by_cases hzero : h.contentLength = 0
    · rw [if_neg (not_not.mpr hzero), if_pos hzero]
    · rw [if_pos hzero, if_neg hzero]

/-- How a run of the main loop answers to a result of `parseHead`. -/
def HeadOutcome (n : ℕ) (result : ReadExit × Parser) : HeadResult → Prop
  | .incomplete h rest =>
      ∃ d, result = (.noRequest, d) ∧ d.Scanning ∧ d.Represents h ∧
        d.unparsed = rest ∧ d.readIdx = n
  | .bad => ∃ d, result = (.badRequest, d)
  | .complete h rest =>
      ∃ d, HeadEnd d h rest ∧ d.readIdx = n ∧
        result =
          if h.contentLength = 0 then (.doRequest none, d)
          else readRequestLoop.run (.ok, { d with checkState := .content })

/-- The main loop of `process_read` computes `parseHead`. -/
theorem Represents.run (s : Head × Bytes) :
    ∀ c : Parser, c.Scanning → c.Represents s.1 → c.unparsed = s.2 →
      HeadOutcome c.readIdx (readRequestLoop.run (.ok, c)) (headLoop.run s) := by
  induction s using headLoop.round_induction with
  | h s ih =>
      obtain ⟨h, bytes⟩ := s
      rintro c hs hr rfl
      have hscan : ¬ (c.checkState = .content ∧ LineStatus.ok = .ok) :=
        fun h => hr.checkState_ne h.1
      cases hsplit : splitLine c.unparsed with
      | none =>
          have habs : headLoop.step (h, c.unparsed) =
              .inl (.incomplete h c.unparsed) := by
            simp [headLoop, headStep, hsplit]
          rw [headLoop.run_of_exit habs, run_of_exit
            (step_of_splitLine_none hs hscan hsplit)]
          exact ⟨_, rfl, hs.moveTo, ⟨hr.checkState, hr.url, hr.urlAt, hr.host,
            hr.unstarted, hr.linger, hr.contentLength⟩, rfl, rfl⟩
      | some p =>
          obtain ⟨l, rest⟩ := p
          by_cases hurl : h.url = none
          · have hspec := hr.step_requestLine hs hsplit hurl
            cases htarget : requestTarget (lineText l) with
            | none =>
                rw [htarget] at hspec
                obtain ⟨d, hstep⟩ := hspec
                have habs : headLoop.step (h, c.unparsed) = .inl .bad := by
                  simp [headLoop, headStep, hsplit, hurl, htarget]
                rw [headLoop.run_of_exit habs,
                  run_of_exit hstep]
                exact ⟨d, rfl⟩
            | some u =>
                rw [htarget] at hspec
                obtain ⟨d, hstep, hd⟩ := hspec
                have habs : headLoop.step (h, c.unparsed) =
                    .inr ({ h with
                      url := some u
                      urlAt := targetStart (lineText l) u }, rest) := by
                  simp [headLoop, headStep, hsplit, hurl, htarget]
                have hnext := hs.next hsplit hr.checkState_ne
                  ((step_of_splitLine hs hscan hsplit).symm.trans hstep)
                obtain ⟨-, hds, hun, -, -, hread⟩ := hnext
                rw [headLoop.run_of_round habs,
                  run_of_round hstep, ← hread]
                exact ih _ habs d hds hd hun
          · obtain ⟨u, hu⟩ := Option.ne_none_iff_exists'.mp hurl
            by_cases htext : lineText l = []
            · obtain ⟨d, hend, hread, hstep⟩ :=
                hr.step_emptyLine hs hsplit hurl htext
              have habs : headLoop.step (h, c.unparsed) =
                  .inl (.complete h rest) := by
                simp [headLoop, headStep, hsplit, hu, htext]
              rw [headLoop.run_of_exit habs]
              refine ⟨d, hend, hread, ?_⟩
              by_cases hzero : h.contentLength = 0
              · rw [if_pos hzero] at hstep ⊢
                exact run_of_exit hstep
              · rw [if_neg hzero] at hstep ⊢
                exact run_of_round hstep
            · obtain ⟨d, hstep, hd⟩ := hr.step_header hs hsplit hurl htext
              have habs : headLoop.step (h, c.unparsed) =
                  .inr (h.addHeader (lineText l), rest) := by
                simp [headLoop, headStep, hsplit, hu, htext]
              have hnext := hs.next hsplit hr.checkState_ne
                ((step_of_splitLine hs hscan hsplit).symm.trans hstep)
              obtain ⟨-, hds, hun, -, -, hread⟩ := hnext
              rw [headLoop.run_of_round habs,
                run_of_round hstep, ← hread]
              exact ih _ habs d hds hd hun

/-- One `process_read` on a fresh connection that holds the bytes `s`. -/
theorem readRequest_fresh {s : Bytes} (hfit : s.length ≤ readBufferSize) :
    HeadOutcome s.length (Parser.fresh.receive s).readRequest (parseHead s) := by
  have hroom : Parser.fresh.readIdx + s.length ≤ readBufferSize := by
    simpa [fresh] using hfit
  have hs := scanning_fresh.receive hroom
  have hun : (Parser.fresh.receive s).unparsed = s := by
    rw [unparsed_receive scanning_fresh hroom]
    rfl
  have hread : (Parser.fresh.receive s).readIdx = s.length := by
    simp [fresh]
  have hrun := Represents.run (Head.empty, s) (Parser.fresh.receive s) hs
    ⟨rfl, rfl, fun h => absurd rfl h, rfl, fun _ => ⟨rfl, rfl⟩, rfl,
      represents_fresh.contentLength⟩ hun
  rwa [hread] at hrun

/-- A request without a body that arrives at once reaches `do_request`. -/
theorem exists_doRequest {s rest : Bytes} {h : Head}
    (hfit : s.length ≤ readBufferSize)
    (hs : parseHead s = .complete h rest) (hzero : h.contentLength = 0) :
    ∃ d, (Parser.fresh.receive s).readRequest = (.doRequest none, d) := by
  have hout := readRequest_fresh hfit
  rw [hs] at hout
  obtain ⟨d, -, -, hrun⟩ := hout
  rw [if_pos hzero] at hrun
  exact ⟨d, hrun⟩

end Parser

end BackendLab.Proactor
