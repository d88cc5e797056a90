import BackendLab.Proactor.Parsing.Body
import Mathlib.Data.List.Induction

/-!
# Whole requests, delivered in pieces

What a connection has made of the bytes delivered so far: it is still in the
header section, or it waits for the body of the request that `parseHead` sees.
From this follow the answers to two questions about `Content-Length`: whether a
body may be cut anywhere, and whether the declared length is honoured.
-/

namespace BackendLab.Proactor

open Support

namespace Parser

variable {c d e : Parser} {h : Head} {xs : List Bytes} {x : Bytes}

theorem afterReads_concat :
    c.afterReads (xs ++ [x]) = some d ↔
      ∃ e, c.afterReads xs = some e ∧
        (e.receive x).readRequest = (.noRequest, d) := by
  induction xs generalizing c with
  | nil =>
      rw [List.nil_append, afterReads_cons]
      simp [afterReads]
  | cons y ys ih =>
      rw [List.cons_append, afterReads_cons]
      simp only [ih, afterReads_cons]
      constructor
      · rintro ⟨f, hf, e, he, hlast⟩
        exact ⟨e, ⟨f, hf, he⟩, hlast⟩
      · rintro ⟨e, ⟨f, hf, he⟩, hlast⟩
        exact ⟨f, hf, e, he, hlast⟩

theorem HeadEnd.startLine_eq {rest : Bytes} (he : HeadEnd c h rest) :
    c.startLine + rest.length = c.readIdx := by
  have hlen := he.scanning.length_unparsed
  have hstart := he.scanning.start_le.trans he.scanning.checked_le
  rw [he.unparsed] at hlen
  omega

/-- The connection waits for the body of the request at the start of `s`. -/
def Awaits (c : Parser) (s : Bytes) : Prop :=
  ∃ h rest, parseHead s = .complete h rest ∧ 0 < h.contentLength ∧
    c.InBody h (s.length - rest.length)

theorem Awaits.receive {s : Bytes} (ha : c.Awaits s)
    (hfit : c.readIdx + x.length ≤ readBufferSize) :
    (c.receive x).Awaits (s ++ x) := by
  obtain ⟨h, rest, hs, hpos, hb⟩ := ha
  refine ⟨h, rest ++ x, parseHead_append x hs, hpos, ?_⟩
  have hlen : (s ++ x).length - (rest ++ x).length =
      s.length - rest.length := by
    simp only [List.length_append]
    omega
  rw [hlen]
  exact hb.receive hfit

/-- The call reaches `do_request` for the request at the start of `s`.  A
negative length makes `parse_content` cut the buffer in front of the body,
where the strings of the header section are. -/
def Reaches (s : Bytes) (stored : Option ℤ) (d : Parser) : Prop :=
  ∃ h rest, parseHead s = .complete h rest ∧
    ((h.contentLength = 0 ∧ stored = none ∧ d.Carries h) ∨
      (0 < h.contentLength ∧ stored.isSome ∧ d.Carries h) ∨
      (h.contentLength < 0 ∧ ∃ e : Parser, e.Carries h ∧
        e.startLine + rest.length = s.length ∧
        stored = some (e.startLine + h.contentLength) ∧
        d = if 0 ≤ e.startLine + h.contentLength then
            e.cut (e.startLine + h.contentLength).toNat
          else e))

/-- What a call can make of the bytes `s` received so far. -/
def CallOutcome (s : Bytes) : ReadExit × Parser → Prop
  | (.noRequest, d) => d.checkState ≠ .content ∨ d.Awaits s
  | (.badRequest, _) => parseHead s = .bad
  | (.doRequest stored, d) => Reaches s stored d

theorem Awaits.callOutcome {s : Bytes} (ha : c.Awaits s) :
    CallOutcome s c.readRequest := by
  obtain ⟨h, rest, hs, hpos, hb⟩ := ha
  rcases hb.run hpos.le .ok with ⟨d, hrun, hd, -⟩ | ⟨i, d, hrun, hd⟩
  · rw [readRequest, hrun]
    exact Or.inr ⟨h, rest, hs, hpos, hd⟩
  · rw [readRequest, hrun]
    exact ⟨h, rest, hs, Or.inr (Or.inl ⟨hpos, rfl, hd⟩)⟩

/-- Behind a header section that was completed in this call. -/
theorem HeadEnd.callOutcome {s rest : Bytes} (he : HeadEnd c h rest)
    (hread : c.readIdx = s.length) (hs : parseHead s = .complete h rest) :
    CallOutcome s
      (if h.contentLength = 0 then (.doRequest none, c)
        else readRequestLoop.run (.ok, { c with checkState := .content })) := by
  have hstart := he.startLine_eq
  have hb := he.atBody rfl
  by_cases hzero : h.contentLength = 0
  · rw [if_pos hzero]
    exact ⟨h, rest, hs, Or.inl ⟨hzero, rfl, he.represents.carries⟩⟩
  · rw [if_neg hzero]
    by_cases hpos : 0 < h.contentLength
    · refine Awaits.callOutcome ⟨h, rest, hs, hpos, ?_⟩
      rw [show s.length - rest.length = c.startLine by omega]
      exact hb.toInBody
    · have hneg : h.contentLength < 0 := by omega
      rw [← readRequest, hb.readRequest_of_neg hneg]
      refine ⟨h, rest, hs, Or.inr (Or.inr ⟨hneg, _, hb.carries, ?_, rfl, rfl⟩)⟩
      exact hstart.trans hread

/-- The call after a further piece, from a connection that is still in the
header section or waits for the body. -/
theorem callOutcome_receive
    (hfit : (xs.flatten ++ x).length ≤ readBufferSize)
    (he : Parser.fresh.afterReads xs = some e)
    (hcase : e.checkState ≠ .content ∨ e.Awaits xs.flatten) :
    CallOutcome (xs.flatten ++ x) (e.receive x).readRequest := by
  by_cases hstate : e.checkState = .content
  · have ha := hcase.resolve_left (not_not.mpr hstate)
    rw [List.length_append] at hfit
    obtain ⟨-, hread⟩ := scanning_fresh.afterReads he
      (by simp only [fresh]; omega)
    have hroom : e.readIdx + x.length ≤ readBufferSize := by
      rw [hread]
      simp only [fresh]
      omega
    exact (ha.receive hroom).callOutcome
  · rw [readRequest_pieces x hfit he hstate]
    have hout := readRequest_fresh hfit
    cases hhead : parseHead (xs.flatten ++ x) with
    | incomplete h rest =>
        rw [hhead] at hout
        obtain ⟨d, hrun, -, hd, -⟩ := hout
        rw [hrun]
        exact Or.inl hd.checkState_ne
    | bad =>
        rw [hhead] at hout
        obtain ⟨d, hrun⟩ := hout
        rw [hrun]
        exact hhead
    | complete h rest =>
        rw [hhead] at hout
        obtain ⟨d, hend, hread, hrun⟩ := hout
        rw [hrun]
        exact hend.callOutcome hread hhead

/-- The pieces delivered so far have either not completed the header section,
or the connection waits for the body. -/
theorem afterReads_cases (hfit : xs.flatten.length ≤ readBufferSize)
    (h : Parser.fresh.afterReads xs = some c) :
    c.checkState ≠ .content ∨ c.Awaits xs.flatten := by
  induction xs using List.reverseRecOn generalizing c with
  | nil =>
      obtain rfl := Option.some.inj h
      exact Or.inl (by simp [fresh])
  | append_singleton xs x ih =>
      obtain ⟨e, he, hcall⟩ := afterReads_concat.mp h
      simp only [List.flatten_append, List.flatten_singleton] at hfit ⊢
      have hle : xs.flatten.length ≤ readBufferSize := by
        rw [List.length_append] at hfit
        omega
      have hout := callOutcome_receive hfit he (ih hle he)
      rw [hcall] at hout
      exact hout

/-- Every call on a connection, whatever has been delivered before. -/
theorem readRequest_callOutcome
    (hfit : (xs.flatten ++ x).length ≤ readBufferSize)
    (he : Parser.fresh.afterReads xs = some e) :
    CallOutcome (xs.flatten ++ x) (e.receive x).readRequest := by
  refine callOutcome_receive hfit he (afterReads_cases ?_ he)
  rw [List.length_append] at hfit
  omega

/-! ## The declared length -/

/-- Where `parse_content` takes the body to start: at the line the connection
was on before the call, or behind the header section completed in this call. -/
def bodyStart (e : Parser) (s rest : Bytes) : ℕ :=
  if e.checkState = .content then e.startLine else s.length - rest.length

/-- A call that gets to the test of the body reduces to a call on a connection
that waits for it. -/
theorem exists_inBody (hfit : (xs.flatten ++ x).length ≤ readBufferSize)
    (he : Parser.fresh.afterReads xs = some e) {rest : Bytes}
    (hs : parseHead (xs.flatten ++ x) = .complete h rest)
    (hne : h.contentLength ≠ 0) :
    ∃ c : Parser, c.InBody h ((xs.flatten ++ x).length - rest.length) ∧
      c.startLine = bodyStart e (xs.flatten ++ x) rest ∧
      c.readIdx = (xs.flatten ++ x).length ∧
      (e.receive x).readRequest = c.readRequest := by
  have hle : xs.flatten.length ≤ readBufferSize := by
    rw [List.length_append] at hfit
    omega
  obtain ⟨-, hread⟩ := scanning_fresh.afterReads he
    (by simpa [fresh] using hle)
  by_cases hstate : e.checkState = .content
  · have ha := (afterReads_cases hle he).resolve_left (not_not.mpr hstate)
    have hroom : e.readIdx + x.length ≤ readBufferSize := by
      rw [List.length_append] at hfit
      rw [hread]
      simp only [fresh]
      omega
    obtain ⟨h', rest', hs', -, hb⟩ := ha.receive hroom
    cases hs.symm.trans hs'
    refine ⟨e.receive x, hb, ?_, ?_, rfl⟩
    · rw [bodyStart, if_pos hstate]
      rfl
    · rw [receive_readIdx, hread, List.length_append]
      simp [fresh]
  · have hout := readRequest_fresh hfit
    rw [hs] at hout
    obtain ⟨d, hend, hidx, hrun⟩ := hout
    have hstart := hend.startLine_eq
    rw [if_neg hne] at hrun
    have hpos : (xs.flatten ++ x).length - rest.length = d.startLine := by
      omega
    refine ⟨{ d with checkState := .content }, ?_, ?_, hidx, ?_⟩
    · rw [hpos]
      exact hend.inBody
    · rw [bodyStart, if_neg hstate, hpos]
    · rw [readRequest_pieces x hfit he hstate, hrun]
      rfl

theorem contentLength_eq_declared (hpos : 0 ≤ h.declared)
    (hlt : h.declared < 2 ^ 31) : h.contentLength = h.declared := by
  have hclamp : clampLong h.declared = h.declared := by
    unfold clampLong
    omega
  rw [Head.contentLength, hclamp, toInt32_eq_self (by omega) hlt]

/-- When `do_request` is reached with a length in range, the whole body has
been received, and the NUL is stored right behind the bytes taken for it. -/
theorem reached_inRange (hfit : (xs.flatten ++ x).length ≤ readBufferSize)
    (he : Parser.fresh.afterReads xs = some e) {stored : Option ℤ}
    {rest : Bytes}
    (hreach : (e.receive x).readRequest = (.doRequest stored, d))
    (hs : parseHead (xs.flatten ++ x) = .complete h rest) (hr : InRange h) :
    h.contentLength ≤ rest.length ∧
      stored = some (bodyStart e (xs.flatten ++ x) rest + h.contentLength) := by
  obtain ⟨c, hb, hstart, hread, hcall⟩ := exists_inBody hfit he hs
    (ne_of_gt hr.1)
  by_cases hcomplete : c.contentComplete
  · have hrun := hb.readRequest_of_complete hcomplete
    rw [← hcall, hreach] at hrun
    simp only [Prod.mk.injEq, ReadExit.doRequest.injEq] at hrun
    rw [contentComplete_iff hr hb.contentLength hb.checked_le, hread]
      at hcomplete
    have hle := hb.start_le.trans hb.scanning.start_le
    refine ⟨by omega, ?_⟩
    rw [hrun.1, contentEnd, hstart, hb.contentLength]
  · have hwait : (c.readIdx : ℤ) < h.contentLength + c.checkedIndex := by
      rw [contentComplete_iff hr hb.contentLength hb.checked_le]
        at hcomplete
      omega
    obtain ⟨d', hrun, -⟩ := hb.run_waits hr hwait .ok
    rw [← readRequest, ← hcall, hreach] at hrun
    cases hrun

/-- Whenever `do_request` is reached, the length written in the last
`Content-Length` header is at least zero and at most the number of bytes behind
the empty line, and the NUL of `parse_content` lands inside the read buffer,
exactly if the length is not negative, is small enough not to overflow the
test, and does not end the body with the last byte of the buffer. -/
theorem declared_honoured_iff (pieces : List Bytes) (last : Bytes)
    (hfit : (pieces.flatten ++ last).length ≤ readBufferSize)
    (he : Parser.fresh.afterReads pieces = some e) {stored : Option ℤ}
    (hreach : (e.receive last).readRequest = (.doRequest stored, d)) :
    ∃ h rest, parseHead (pieces.flatten ++ last) = .complete h rest ∧
      ((0 ≤ h.declared ∧ h.declared ≤ rest.length ∧
          ∀ i ∈ stored, 0 ≤ i ∧ i < readBufferSize) ↔
        (0 ≤ h.declared ∧ h.declared < 2 ^ 31 - readBufferSize ∧
          (h.declared = 0 ∨
            bodyStart e (pieces.flatten ++ last) rest + h.declared <
              readBufferSize))) := by
  have hout := readRequest_callOutcome hfit he
  rw [hreach] at hout
  obtain ⟨h, rest, hs, hcases⟩ := hout
  refine ⟨h, rest, hs, ?_⟩
  have hrest : rest.length ≤ readBufferSize :=
    (parseHead_rest_length_le hs).trans hfit
  have hsize : (readBufferSize : ℤ) = 2048 := rfl
  by_cases hV : 0 ≤ h.declared ∧ h.declared < 2 ^ 31 - readBufferSize
  · have hlength := contentLength_eq_declared hV.1 (by omega)
    rcases hcases with ⟨hzero, rfl, -⟩ | ⟨hpos, -, -⟩ | ⟨hneg, -⟩
    · have hdeclared : h.declared = 0 := hlength.symm.trans hzero
      simp [hdeclared, hsize]
    · obtain ⟨hle, rfl⟩ := reached_inRange hfit he hreach hs
        ⟨hpos, by omega⟩
      simp only [Option.mem_some_iff, forall_eq', hlength] at hle ⊢
      constructor
      · rintro ⟨h0, -, -, hin⟩
        exact ⟨h0, hV.2, Or.inr hin⟩
      · rintro ⟨h0, -, hend⟩
        refine ⟨h0, hle, by omega, ?_⟩
        rcases hend with hzero | hend
        · omega
        · exact hend
    · omega
  · constructor
    · rintro ⟨h0, hle, -⟩
      exact absurd ⟨h0, by omega⟩ hV
    · rintro ⟨h0, hlt, -⟩
      exact absurd ⟨h0, hlt⟩ hV

theorem declared_honoured_two :
    ∃ h rest, parseHead
        (ascii "GET / HTTP/1.1\r\nContent-Length: 2\r\n\r\nab") =
          .complete h rest ∧
      ((0 ≤ h.declared ∧ h.declared ≤ rest.length ∧
          ∀ i ∈ some (39 : ℤ), 0 ≤ i ∧ i < readBufferSize) ↔
        (0 ≤ h.declared ∧ h.declared < 2 ^ 31 - readBufferSize ∧
          (h.declared = 0 ∨ bodyStart Parser.fresh
              (ascii "GET / HTTP/1.1\r\nContent-Length: 2\r\n\r\nab") rest +
            h.declared < readBufferSize))) := by
  have hexit : (Parser.fresh.receive
      (ascii "GET / HTTP/1.1\r\nContent-Length: 2\r\n\r\nab")).readRequest.1 =
        .doRequest (some 39) := by
    decide +kernel
  have hreach := Prod.mk.eta (p := (Parser.fresh.receive
    (ascii "GET / HTTP/1.1\r\nContent-Length: 2\r\n\r\nab")).readRequest)
  rw [hexit] at hreach
  exact declared_honoured_iff []
    (ascii "GET / HTTP/1.1\r\nContent-Length: 2\r\n\r\nab") (by decide) rfl
    hreach.symm

/-- A negative length reaches `do_request` at once, and the NUL lands in front
of the read buffer. -/
theorem declared_negative :
    parseHead (ascii "GET / HTTP/1.1\r\nContent-Length: -1000\r\n\r\n") =
        .complete ⟨some (ascii "/"), 4, none, false, -1000⟩ [] ∧
      (Parser.fresh.receive (ascii
        "GET / HTTP/1.1\r\nContent-Length: -1000\r\n\r\n")).readRequest.1 =
          .doRequest (some (-959)) ∧
      ¬ ((0 : ℤ) ≤ -1000 ∧ (-1000 : ℤ) ≤ ([] : Bytes).length ∧
        ∀ i ∈ some (-959 : ℤ), 0 ≤ i ∧ i < readBufferSize) := by
  refine ⟨by decide +kernel, by decide +kernel, ?_⟩
  rintro ⟨h, -⟩
  omega

end Parser

end BackendLab.Proactor
