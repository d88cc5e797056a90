import BackendLab.Proactor.Parsing.Lines

/-!
# The parser on the text of a line

`parse_request_line` and `parse_headers` are handed a pointer, and what they
do depends on the memory only through the C string that stands there.  This
module rewrites both as functions of that string.  The string may be shorter
than the line it comes from, when the line contains a NUL.
-/

namespace BackendLab.Proactor

open Support

/-- The text that follows the leading blanks of `s`. -/
def skipBlanks (s : Bytes) : Bytes :=
  s.dropWhile (· ∈ blanks)

/-- The text of a line as a C string. -/
def lineText (l : Bytes) : Bytes :=
  l.takeWhile (· != 0)

theorem zero_notMem_lineText (l : Bytes) : (0 : UInt8) ∉ lineText l := by
  intro h
  simpa using List.mem_takeWhile_imp h

theorem lineText_eq_self {l : Bytes} (h : (0 : UInt8) ∉ l) : lineText l = l := by
  apply List.takeWhile_eq_self_iff.mpr
  intro b hb
  simpa using fun h0 : b = 0 => h (h0 ▸ hb)

theorem lineText_length_le (l : Bytes) : (lineText l).length ≤ l.length :=
  (List.takeWhile_prefix _).length_le

theorem length_eq_of_eqIgnoreCase {s t : Bytes} (h : eqIgnoreCase s t) :
    s.length = t.length := by
  have hmap : s.map toLower = t.map toLower := by simpa [eqIgnoreCase] using h
  simpa using congrArg List.length hmap

namespace Parser

variable {c : Parser} {text : ℕ} {t : Bytes}

/-! ## The end of a line -/

theorem drop_endLine (c : Parser) (e : ℕ) :
    (c.endLine e).mem.drop (e + 2) = c.mem.drop (e + 2) := by
  simp [endLine, List.drop_set_of_lt]

theorem drop_endLine_succ (c : Parser) {e : ℕ} (he : e + 1 < readBufferSize) :
    (c.endLine e).mem.drop (e + 1) = 0 :: c.mem.drop (e + 2) := by
  have hcons := List.drop_eq_getElem_cons (l := c.mem) (i := e + 1)
    (by rwa [length_mem])
  simp only [endLine, moveTo_mem, cut_mem, List.drop_set]
  rw [if_neg (by omega), if_pos (by omega), hcons, Nat.sub_self]
  rfl

/-- When a line is complete its text is a C string at `m_start_line`. -/
theorem stringAt_endLine (c : Parser) {l rest tail : Bytes}
    (hmem : c.mem.drop c.startLine =
      l ++ carriageReturn :: lineFeed :: rest ++ tail) :
    StringAt (c.endLine (c.startLine + l.length)).mem c.startLine
      (lineText l) := by
  have hdrop : (c.endLine (c.startLine + l.length)).mem.drop c.startLine =
      l ++ 0 :: 0 :: (rest ++ tail) := by
    simp only [endLine, moveTo_mem, cut_mem]
    rw [List.drop_set, if_neg (by omega), List.drop_set, if_neg (by omega),
      hmem,
      show c.startLine + l.length + 1 - c.startLine = l.length + 1 by omega,
      show c.startLine + l.length - c.startLine = l.length by omega]
    simp
  exact StringAt.of_drop hdrop

/-! ## The request line -/

/-- `parseTarget` on the text `u` of the target that stands at `p`. -/
def applyTarget (c : Parser) (p : ℕ) (u : Bytes) : HttpCode × Parser :=
  if eqIgnoreCase (u.take 7) (ascii "http://") then
    match cutAt [slash] (u.drop 7) with
    | none => (.badRequest, { c with url := none })
    | some (a, _) =>
        (.noRequest, { c with
          url := some (p + 7 + a.length)
          checkState := .header })
  else if u.head? = some slash then
    (.noRequest, { c with checkState := .header })
  else (.badRequest, c)

/-- The part of `parse_request_line` behind the method, on the text `t` that
stands at `p`. -/
def applyAfterMethod (c : Parser) (p : ℕ) (t : Bytes) : HttpCode × Parser :=
  match cutAt blanks t with
  | none => (.badRequest, { c with version := none })
  | some (u, v) =>
      let r := p + u.length
      let c := { c.cut r with version := some (r + 1) }
      if eqIgnoreCase v (ascii "HTTP/1.1") then c.applyTarget p u
      else (.badRequest, c)

/-- `parse_request_line` on the text `t` of the line that stands at `text`. -/
def applyRequestLine (c : Parser) (text : ℕ) (t : Bytes) : HttpCode × Parser :=
  match cutAt blanks t with
  | none => (.badRequest, { c with url := none })
  | some (m, t) =>
      let q := text + m.length
      let c := { c.cut q with url := some (q + 1) }
      if eqIgnoreCase m (ascii "GET") then
        { c with method := .get }.applyAfterMethod (q + 1) t
      else (.badRequest, c)

theorem byteAt_of_stringAt {p : ℕ} {s : Bytes} (h : StringAt c.mem p s) :
    c.byteAt p = s.head?.getD 0 := by
  obtain ⟨-, rest, hrest⟩ := h
  cases s with
  | nil => exact byteAt_of_drop hrest
  | cons b s => exact byteAt_of_drop hrest

theorem parseTarget_eq {p : ℕ} {u : Bytes} (h : StringAt c.mem p u)
    (hurl : c.url = some p) : c.parseTarget p = c.applyTarget p u := by
  unfold parseTarget applyTarget
  rw [h.strncasecmpEq_eq (ascii "http://") 7 rfl]
  by_cases habs : eqIgnoreCase (u.take 7) (ascii "http://") = true
  · have hlen : (u.take 7).length = 7 := by
      rw [length_eq_of_eqIgnoreCase habs]
      decide
    have htail : StringAt c.mem (p + 7) (u.drop 7) := by
      rw [← List.take_append_drop 7 u] at h
      have hdrop := h.drop
      rwa [hlen] at hdrop
    rw [if_pos habs, if_pos habs, strchr, htail.strpbrk_eq]
    cases hcut : cutAt [slash] (u.drop 7) with
    | none => rfl
    | some d =>
        obtain ⟨a, t⟩ := d
        obtain ⟨w, hw, hu, -⟩ := cutAt_eq_some_iff.mp hcut
        obtain rfl : w = slash := by simpa using hw
        rw [hu] at htail
        have hbyte := byteAt_of_stringAt htail.drop
        simp only [Option.map_some, List.head?_cons, Option.getD_some] at hbyte ⊢
        exact if_pos hbyte
  · rw [if_neg habs, if_neg habs]
    dsimp only
    rw [hurl]
    have hbyte := byteAt_of_stringAt h
    by_cases hslash : u.head? = some slash
    · rw [hslash] at hbyte
      rw [if_pos hslash]
      exact if_pos hbyte
    · rw [if_neg hslash]
      refine if_neg ?_
      rw [hbyte]
      cases u with
      | nil => simp [slash]
      | cons b u => simpa using hslash

theorem parseRequestLine_eq (h : StringAt c.mem text t) :
    c.parseRequestLine text = c.applyRequestLine text t := by
  unfold parseRequestLine applyRequestLine applyAfterMethod
  rw [h.strpbrk_eq]
  cases hcut : cutAt blanks t with
  | none => rfl
  | some d =>
      obtain ⟨m, t'⟩ := d
      obtain ⟨w, -, rfl, -⟩ := cutAt_eq_some_iff.mp hcut
      simp only [Option.map_some]
      have hm : StringAt (c.cut (text + m.length)).mem text m := by
        rw [cut_mem]
        exact h.cut
      have ht' : StringAt (c.cut (text + m.length)).mem
          (text + m.length + 1) t' := by
        rw [cut_mem]
        exact h.cut_right
      change (if strcasecmpEq (c.cut (text + m.length)).mem text _ then _
        else _) = _
      rw [hm.strcasecmpEq_eq]
      split
      · have hget : StringAt
            ({ c.cut (text + m.length) with
              url := some (text + m.length + 1), method := .get } : Parser).mem
            (text + m.length + 1) t' := ht'
        rw [hget.strpbrk_eq]
        cases hcut' : cutAt blanks t' with
        | none => rfl
        | some d =>
            obtain ⟨u, v⟩ := d
            obtain ⟨w', -, rfl, -⟩ := cutAt_eq_some_iff.mp hcut'
            simp only [Option.map_some]
            have hu := ht'.cut
            have hv := ht'.cut_right
            rw [← cut_mem] at hu hv
            change (if strcasecmpEq
                ((c.cut (text + m.length)).cut
                  (text + m.length + 1 + u.length)).mem
                (text + m.length + 1 + u.length + 1) _ then _ else _) = _
            rw [hv.strcasecmpEq_eq]
            split
            · exact parseTarget_eq hu rfl
            · rfl
      · rfl

/-! ## Header lines -/

/-- `parse_headers` on the nonempty text `t` of the line that stands at
`text`. -/
def applyHeader (c : Parser) (text : ℕ) (t : Bytes) : Parser :=
  if eqIgnoreCase (t.take 11) (ascii "Connection:") then
    if eqIgnoreCase (skipBlanks (t.drop 11)) (ascii "keep-alive") then
      { c with linger := true }
    else c
  else if eqIgnoreCase (t.take 15) (ascii "Content-Length:") then
    { c with contentLength := toInt32 (atol (skipBlanks (t.drop 15))) }
  else if eqIgnoreCase (t.take 5) (ascii "Host:") then
    { c with
      host := some (text + 5 +
        ((t.drop 5).takeWhile (· ∈ blanks)).length) }
  else c

/-- The value of a header field whose name has `n` bytes. -/
theorem stringAt_value (h : StringAt c.mem text t) {n : ℕ} {name : Bytes}
    (hname : eqIgnoreCase (t.take n) name) (hn : name.length = n) :
    StringAt c.mem (text + n) (t.drop n) ∧
      StringAt c.mem (text + n + strspn c.mem (text + n) blanks)
        (skipBlanks (t.drop n)) := by
  have hlen : (t.take n).length = n := by
    rw [length_eq_of_eqIgnoreCase hname, hn]
  have hdrop : StringAt c.mem (text + n) (t.drop n) := by
    rw [← List.take_append_drop n t] at h
    have hdrop := h.drop
    rwa [hlen] at hdrop
  exact ⟨hdrop, hdrop.skip blanks⟩

theorem parseHeaders_eq (h : StringAt c.mem text t) :
    c.parseHeaders text =
      if t = [] then
        if c.contentLength ≠ 0 then
          (.noRequest, { c with checkState := .content })
        else (.getRequest, c)
      else (.noRequest, c.applyHeader text t) := by
  unfold parseHeaders applyHeader
  dsimp only
  have hempty : c.byteAt text = 0 ↔ t = [] := by
    rw [byteAt_of_stringAt h]
    cases t with
    | nil => simp
    | cons b t =>
        have hb : b ≠ 0 := fun h0 => h.1 (by simp [h0])
        simpa using hb
  by_cases ht : t = []
  · rw [if_pos (hempty.mpr ht), if_pos ht]
  rw [if_neg (mt hempty.mp ht), if_neg ht,
    h.strncasecmpEq_eq (ascii "Connection:") 11 rfl,
    h.strncasecmpEq_eq (ascii "Content-Length:") 15 rfl,
    h.strncasecmpEq_eq (ascii "Host:") 5 rfl]
  by_cases hconn : eqIgnoreCase (t.take 11) (ascii "Connection:") = true
  · rw [if_pos hconn, if_pos hconn,
      (stringAt_value h hconn rfl).2.strcasecmpEq_eq]
    split <;> rfl
  rw [if_neg hconn, if_neg hconn]
  by_cases hlen : eqIgnoreCase (t.take 15) (ascii "Content-Length:") = true
  · rw [if_pos hlen, if_pos hlen, (stringAt_value h hlen rfl).2.cstr_eq]
  rw [if_neg hlen, if_neg hlen]
  by_cases hhost : eqIgnoreCase (t.take 5) (ascii "Host:") = true
  · rw [if_pos hhost, if_pos hhost, strspn,
      (stringAt_value h hhost rfl).1.cstr_eq]
  · rw [if_neg hhost, if_neg hhost]

/-! ## One completed line -/

theorem applyTarget_mem (c : Parser) (p : ℕ) (u : Bytes) :
    (c.applyTarget p u).2.mem = c.mem := by
  unfold applyTarget
  split
  · split <;> rfl
  · split <;> rfl

/-- The request line is cut only inside its own text. -/
theorem applyRequestLine_drop (c : Parser) {text k : ℕ}
    (hk : text + t.length ≤ k) :
    (c.applyRequestLine text t).2.mem.drop k = c.mem.drop k := by
  unfold applyRequestLine
  cases hcut : cutAt blanks t with
  | none => rfl
  | some d =>
      obtain ⟨m, t'⟩ := d
      obtain ⟨w, -, rfl, -⟩ := cutAt_eq_some_iff.mp hcut
      simp only [List.length_append, List.length_cons] at hk
      have hfirst : (c.cut (text + m.length)).mem.drop k = c.mem.drop k := by
        rw [cut_mem, List.drop_set_of_lt (by omega)]
      dsimp only
      split
      · unfold applyAfterMethod
        cases hcut' : cutAt blanks t' with
        | none => exact hfirst
        | some d =>
            obtain ⟨u, v⟩ := d
            obtain ⟨w', -, rfl, -⟩ := cutAt_eq_some_iff.mp hcut'
            simp only [List.length_append, List.length_cons] at hk
            have hsecond : ((c.cut (text + m.length)).cut
                (text + m.length + 1 + u.length)).mem.drop k =
                c.mem.drop k := by
              rw [cut_mem, List.drop_set_of_lt (by omega), hfirst]
            dsimp only
            split
            · rw [applyTarget_mem]
              exact hsecond
            · exact hsecond
      · exact hfirst

theorem applyHeader_mem (c : Parser) (text : ℕ) (t : Bytes) :
    (c.applyHeader text t).mem = c.mem := by
  unfold applyHeader
  repeat' split
  all_goals rfl

theorem handleLine_of_requestLine (hstate : c.checkState = .requestLine)
    (h : StringAt c.mem c.startLine t) :
    c.handleLine =
      match c.restart.applyRequestLine c.startLine t with
      | (.badRequest, d) => .inl (.badRequest, d)
      | (_, d) => .inr (.ok, d) := by
  have heq := parseRequestLine_eq (c := c.restart) h
  generalize c.restart.applyRequestLine c.startLine t = result at heq ⊢
  obtain ⟨code, d⟩ := result
  cases code <;> simp only [handleLine, hstate, heq]

theorem handleLine_of_header (hstate : c.checkState = .header)
    (h : StringAt c.mem c.startLine t) :
    c.handleLine =
      if t = [] then
        if c.contentLength ≠ 0 then
          .inr (.ok, { c.restart with checkState := .content })
        else .inl (.doRequest none, c.restart)
      else .inr (.ok, c.restart.applyHeader c.startLine t) := by
  unfold handleLine
  simp only [hstate]
  rw [parseHeaders_eq (c := c.restart) h, restart_contentLength]
  split_ifs <;> rfl

/-- What handling a complete line of the header section leaves alone. -/
theorem handleLine_next {status : LineStatus} {d : Parser}
    (hstate : c.checkState ≠ .content) (h : StringAt c.mem c.startLine t)
    (hnext : c.handleLine = .inr (status, d)) :
    status = .ok ∧
      ∀ k, c.startLine + t.length ≤ k → d.mem.drop k = c.mem.drop k := by
  cases hc : c.checkState with
  | requestLine =>
      rw [handleLine_of_requestLine hc h] at hnext
      split at hnext
      · cases hnext
      next code d' _ heq =>
        simp only [Sum.inr.injEq, Prod.mk.injEq] at hnext
        obtain ⟨rfl, rfl⟩ := hnext
        refine ⟨rfl, fun k hk => ?_⟩
        have hdrop := applyRequestLine_drop c.restart hk
        rwa [heq] at hdrop
  | header =>
      rw [handleLine_of_header hc h] at hnext
      split_ifs at hnext
      · simp only [Sum.inr.injEq, Prod.mk.injEq] at hnext
        obtain ⟨rfl, rfl⟩ := hnext
        exact ⟨rfl, fun k _ => rfl⟩
      · simp only [Sum.inr.injEq, Prod.mk.injEq] at hnext
        obtain ⟨rfl, rfl⟩ := hnext
        refine ⟨rfl, fun k _ => ?_⟩
        rw [applyHeader_mem]
        rfl
  | content => exact absurd hc hstate

namespace Scanning

variable {l rest : Bytes}

/-- The memory from the start of the current line on. -/
theorem drop_startLine (hs : c.Scanning)
    (hsplit : splitLine c.unparsed = some (l, rest)) :
    c.mem.drop c.startLine =
      l ++ carriageReturn :: lineFeed :: rest ++ c.mem.drop c.readIdx := by
  have hstart := hs.start_le.trans hs.checked_le
  obtain ⟨hun, -⟩ := splitLine_eq_some_iff.mp hsplit
  have happend := List.take_append_drop (c.readIdx - c.startLine)
    (c.mem.drop c.startLine)
  rw [List.drop_drop, show c.startLine + (c.readIdx - c.startLine) =
    c.readIdx by omega, ← unparsed, hun] at happend
  exact happend.symm

theorem readIdx_eq (hs : c.Scanning)
    (hsplit : splitLine c.unparsed = some (l, rest)) :
    c.readIdx = c.startLine + l.length + 2 + rest.length := by
  have hstart := hs.start_le.trans hs.checked_le
  have hlen := splitLine_length hsplit
  rw [hs.length_unparsed] at hlen
  omega

/-- The memory from the next line on. -/
theorem drop_nextLine (hs : c.Scanning)
    (hsplit : splitLine c.unparsed = some (l, rest)) :
    c.mem.drop (c.startLine + l.length + 2) =
      rest ++ c.mem.drop c.readIdx := by
  have hline : l ++ carriageReturn :: lineFeed :: rest ++
      c.mem.drop c.readIdx = (l ++ [carriageReturn, lineFeed]) ++
        (rest ++ c.mem.drop c.readIdx) := by simp
  rw [Nat.add_assoc, ← List.drop_drop, hs.drop_startLine hsplit, hline]
  exact List.drop_left' (by simp)

theorem stringAt_line (hs : c.Scanning)
    (hsplit : splitLine c.unparsed = some (l, rest)) :
    StringAt (c.endLine (c.startLine + l.length)).mem c.startLine (lineText l) :=
  stringAt_endLine c (hs.drop_startLine hsplit)

/-- Behind a handled line the scanner starts on the next one. -/
theorem next (hs : c.Scanning)
    (hsplit : splitLine c.unparsed = some (l, rest))
    (hstate : c.checkState ≠ .content) {status : LineStatus} {d : Parser}
    (hnext : (c.endLine (c.startLine + l.length)).handleLine =
      .inr (status, d)) :
    status = .ok ∧ d.Scanning ∧ d.unparsed = rest ∧
      d.startLine = c.startLine + l.length + 2 ∧
      d.checkedIndex = d.startLine ∧ d.readIdx = c.readIdx := by
  obtain ⟨hread, hchecked, hstart, -⟩ := handleLine_frame hnext
  obtain ⟨hok, hdrop⟩ := handleLine_next
    (c := c.endLine (c.startLine + l.length)) hstate
    (hs.stringAt_line hsplit) hnext
  have hidx := hs.readIdx_eq hsplit
  have htext := lineText_length_le l
  have hstart' : d.startLine = c.startLine + l.length + 2 := hstart
  have hchecked' : d.checkedIndex = d.startLine := hchecked.trans hstart.symm
  have hread' : d.readIdx = c.readIdx := hread
  have hmem : d.mem.drop (c.startLine + l.length + 2) =
      c.mem.drop (c.startLine + l.length + 2) := by
    rw [hdrop _ (by change c.startLine + _ ≤ _; omega), drop_endLine]
  have hun : d.unparsed = rest := by
    rw [unparsed, hstart', hread', hmem, hs.drop_nextLine hsplit]
    exact List.take_left' (by omega)
  refine ⟨hok, ⟨by omega, by omega, hread' ▸ hs.read_le, ?_, ?_⟩, hun, hstart',
    hchecked', hread'⟩
  · simp [hchecked']
  · right
    have hbyte : d.mem.drop (c.startLine + l.length + 1) =
        0 :: c.mem.drop (c.startLine + l.length + 2) := by
      have hread := hs.read_le
      rw [hdrop _ (by change c.startLine + _ ≤ _; omega),
        drop_endLine_succ c (by omega)]
    rw [hstart', show c.startLine + l.length + 2 - 1 =
      c.startLine + l.length + 1 by omega, byteAt_of_drop hbyte]
    decide

end Scanning

end Parser

end BackendLab.Proactor
