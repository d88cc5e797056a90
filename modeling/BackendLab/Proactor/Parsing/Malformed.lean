import BackendLab.Proactor.Connection.Response
import BackendLab.Proactor.Parsing.Delivery

/-!
# Lines with a stray line end

`parse_line` reports `LINE_BAD` for a CR without an LF behind it and for an LF
without a CR before it.  The loop of `process_read` asks only whether a line is
complete, so for its caller such a line is one that has not yet ended.
-/

namespace BackendLab.Proactor

open Support

/-- Before any CRLF, `x` has an LF with no CR before it, or a CR followed by
something else. -/
def HasStrayEnd (x : Bytes) : Prop :=
  ∃ a rest, ¬ crlf <:+: a ∧
    ((x = a ++ lineFeed :: rest ∧ a.getLast? ≠ some carriageReturn) ∨
      ∃ b, x = a ++ carriageReturn :: b :: rest ∧ b ≠ lineFeed)

/-- Where a byte can stand in a text that starts with a CRLF. -/
theorem append_cons_eq_crlf {mid more rest : Bytes} {b : UInt8}
    (h : mid ++ b :: more = crlf ++ rest) :
    (mid = [] ∧ b = carriageReturn ∧ more = lineFeed :: rest) ∨
      (mid = [carriageReturn] ∧ b = lineFeed) ∨ crlf <+: mid := by
  match mid with
  | [] => exact Or.inl ⟨rfl, List.cons.inj h⟩
  | [b₁] =>
      simp only [crlf_eq, List.cons_append, List.nil_append,
        List.cons.injEq] at h
      exact Or.inr (Or.inl ⟨by rw [h.1], h.2.1⟩)
  | b₁ :: b₂ :: mid =>
      simp only [crlf_eq, List.cons_append, List.nil_append,
        List.cons.injEq] at h
      exact Or.inr (Or.inr ⟨mid, by simp [crlf_eq, h.1, h.2.1]⟩)

/-- There is no first line in front of a stray line end. -/
theorem splitLine_of_hasStrayEnd {x : Bytes} (h : HasStrayEnd x) :
    splitLine x = none := by
  by_contra hsome
  obtain ⟨⟨l, rest⟩, hsplit⟩ := Option.ne_none_iff_exists'.mp hsome
  obtain ⟨hx, hl⟩ := eq_append_crlf_of_splitLine hsplit
  obtain ⟨a, more, hnone, hcase⟩ := h
  -- The stray end stands at or behind the end of `l`.
  have hbehind : ∀ {b : UInt8} {more : Bytes}, ¬ IsLineByte b →
      x = a ++ b :: more →
        ∃ mid, a = l ++ mid ∧ mid ++ b :: more = crlf ++ rest := by
    intro b more hb hxa
    rw [hx, List.append_assoc] at hxa
    rcases List.append_eq_append_iff.mp hxa with ⟨mid, ha, hmid⟩ | ⟨mid, ha, hmid⟩
    · exact ⟨mid, ha, hmid.symm⟩
    · cases mid with
      | nil => exact ⟨[], by simpa using ha.symm, hmid⟩
      | cons b' mid =>
          obtain ⟨rfl, -⟩ := List.cons.inj hmid
          refine absurd (hl b ?_) hb
          rw [ha]
          simp
  have hinfix : ∀ {mid : Bytes}, a = l ++ mid → ¬ crlf <+: mid := by
    rintro mid rfl hinitial
    exact hnone (hinitial.isInfix.trans (List.suffix_append l mid).isInfix)
  rcases hcase with ⟨hxa, hlast⟩ | ⟨b, hxa, hb⟩
  · obtain ⟨mid, ha, hmid⟩ := hbehind (fun h => h.2 rfl) hxa
    rcases append_cons_eq_crlf hmid with ⟨-, hcr, -⟩ | ⟨rfl, -⟩ | hinitial
    · exact absurd hcr (by decide)
    · exact hlast (by simp [ha])
    · exact hinfix ha hinitial
  · obtain ⟨mid, ha, hmid⟩ := hbehind (fun h => h.1 rfl) hxa
    rcases append_cons_eq_crlf hmid with ⟨-, -, hlf⟩ | ⟨-, hlf⟩ | hinitial
    · exact hb (List.cons.inj hlf).1
    · exact absurd hlf (by decide)
    · exact hinfix ha hinitial

/-! ## Header sections that stay incomplete -/

theorem headLoop_run_append (s : Head × Bytes) :
    ∀ {h : Head} {rest : Bytes} (x : Bytes),
      headLoop.run s = .incomplete h rest →
        headLoop.run (s.1, s.2 ++ x) = headLoop.run (h, rest ++ x) := by
  induction s using headLoop.round_induction with
  | h s ih =>
      obtain ⟨h₀, bytes⟩ := s
      intro h rest x hrun
      cases hsplit : splitLine bytes with
      | none =>
          have hstep : headLoop.step (h₀, bytes) =
              .inl (.incomplete h₀ bytes) := by
            simp [headLoop, headStep, hsplit]
          rw [headLoop.run_of_exit hstep] at hrun
          cases hrun
          rfl
      | some p =>
          obtain ⟨l, more⟩ := p
          have hlong := splitLine_append x hsplit
          cases hstep : headLoop.step (h₀, bytes) with
          | inl r =>
              rw [headLoop.run_of_exit hstep] at hrun
              subst hrun
              simp only [headLoop, headStep, hsplit] at hstep
              repeat' split at hstep
              all_goals cases hstep
          | inr s' =>
              have hstep' : headLoop.step (h₀, bytes ++ x) =
                  .inr (s'.1, s'.2 ++ x) := by
                simp only [headLoop, headStep, hsplit, hlong] at hstep ⊢
                repeat' split at hstep
                all_goals cases hstep
                all_goals simp_all
              rw [headLoop.run_of_round hstep] at hrun
              rw [headLoop.run_of_round hstep']
              exact ih s' hstep x hrun

theorem parseHead_append_of_incomplete {s rest : Bytes} {h : Head}
    (x : Bytes) (hs : parseHead s = .incomplete h rest) :
    parseHead (s ++ x) = headLoop.run (h, rest ++ x) :=
  headLoop_run_append (Head.empty, s) x hs

/-- The beginning of an incomplete header section is incomplete. -/
theorem exists_incomplete_of_append {s x rest : Bytes} {h : Head}
    (hs : parseHead (s ++ x) = .incomplete h rest) :
    ∃ h' rest', parseHead s = .incomplete h' rest' := by
  cases hhead : parseHead s with
  | incomplete h' rest' => exact ⟨h', rest', rfl⟩
  | bad =>
      rw [parseHead_append_of_bad x hhead] at hs
      cases hs
  | complete h' rest' =>
      rw [parseHead_append x hhead] at hs
      cases hs

namespace Parser

theorem readRequest_of_incomplete {s rest : Bytes} {h : Head}
    (hfit : s.length ≤ readBufferSize)
    (hs : parseHead s = .incomplete h rest) :
    ∃ d, (Parser.fresh.receive s).readRequest = (.noRequest, d) ∧
      d.checkState ≠ .content := by
  have hout := readRequest_fresh hfit
  rw [hs] at hout
  obtain ⟨d, hrun, -, hd, -⟩ := hout
  exact ⟨d, hrun, hd.checkState_ne⟩

/-- While the header section is incomplete every call asks for more. -/
theorem exists_afterReads {pieces : List Bytes} {rest : Bytes} {h : Head}
    (hfit : pieces.flatten.length ≤ readBufferSize)
    (hs : parseHead pieces.flatten = .incomplete h rest) :
    ∃ e, Parser.fresh.afterReads pieces = some e ∧
      e.checkState ≠ .content := by
  induction pieces using List.reverseRecOn generalizing h rest with
  | nil => exact ⟨_, rfl, by simp [fresh]⟩
  | append_singleton pieces x ih =>
      rw [List.flatten_append, List.flatten_singleton] at hfit hs
      obtain ⟨h', rest', hs'⟩ := exists_incomplete_of_append hs
      have hfit' : pieces.flatten.length ≤ readBufferSize := by
        rw [List.length_append] at hfit
        omega
      obtain ⟨e, he, hstate⟩ := ih hfit' hs'
      obtain ⟨d, hrun, hd⟩ := readRequest_of_incomplete hfit hs
      rw [← readRequest_pieces x hfit he hstate] at hrun
      exact ⟨d, afterReads_concat.mpr ⟨e, he, hrun⟩, hd⟩

/-- `process_read` takes `p` for complete lines, and neither finds the end of
the headers nor reports an error. -/
def ConsumesLines (p : Bytes) : Prop :=
  ∃ c, (Parser.fresh.receive p).readRequest = (.noRequest, c) ∧
    c.checkState ≠ .content ∧ c.startLine = p.length

theorem ConsumesLines.parseHead_eq {p : Bytes} (hp : ConsumesLines p)
    (hfit : p.length ≤ readBufferSize) :
    ∃ h, parseHead p = .incomplete h [] := by
  obtain ⟨c, hrun, hstate, hstart⟩ := hp
  have hout := readRequest_fresh hfit
  rw [hrun] at hout
  cases hs : parseHead p with
  | incomplete h rest =>
      rw [hs] at hout
      obtain ⟨d, hd, hscan, -, hrest, hread⟩ := hout
      cases hd
      have hlen := hscan.length_unparsed
      rw [hrest, hread, hstart, Nat.sub_self] at hlen
      rw [List.length_eq_zero_iff.mp hlen]
      exact ⟨h, rfl⟩
  | bad =>
      rw [hs] at hout
      obtain ⟨d, hd⟩ := hout
      cases hd
  | complete h rest =>
      rw [hs] at hout
      obtain ⟨d, -, -, hd⟩ := hout
      split_ifs at hd
      · cases hd
      · have hcontent := run_content (c := { d with checkState := .content })
          .ok rfl
        rw [← hd] at hcontent
        exact absurd hcontent hstate

/-- However the bytes of complete lines and of a line with a stray end are
delivered, every call returns `NO_REQUEST`, also the one in which the stray end
has come. -/
theorem noRequest_of_hasStrayEnd (p x : Bytes) (hp : ConsumesLines p)
    (hx : HasStrayEnd x) (pieces : List Bytes) (last : Bytes)
    (hsplit : pieces.flatten ++ last = p ++ x)
    (hfit : (p ++ x).length ≤ readBufferSize) :
    ∃ e, Parser.fresh.afterReads pieces = some e ∧
      ∀ (conn : HttpConn) (fs : FileSystem),
        ((conn.withParser (e.receive last)).processRead fs).1 =
          .noRequest := by
  have hp_fit : p.length ≤ readBufferSize := by
    rw [List.length_append] at hfit
    omega
  obtain ⟨h, hhead⟩ := hp.parseHead_eq hp_fit
  have hs : parseHead (p ++ x) = .incomplete h x := by
    have hstep : headLoop.step (h, x) = .inl (.incomplete h x) := by
      simp [headLoop, headStep, splitLine_of_hasStrayEnd hx]
    rw [parseHead_append_of_incomplete x hhead, List.nil_append,
      headLoop.run_of_exit hstep]
  rw [← hsplit] at hs hfit
  obtain ⟨h', rest', hfront⟩ := exists_incomplete_of_append hs
  have hfit' : pieces.flatten.length ≤ readBufferSize := by
    rw [List.length_append] at hfit
    omega
  obtain ⟨e, he, hstate⟩ := exists_afterReads hfit' hfront
  obtain ⟨d, hrun, -⟩ := readRequest_of_incomplete hfit hs
  rw [← readRequest_pieces last hfit he hstate] at hrun
  refine ⟨e, he, fun conn fs => ?_⟩
  simp only [HttpConn.processRead, HttpConn.withParser, hrun]

theorem consumesLines_requestLine :
    ConsumesLines (ascii "GET / HTTP/1.1\r\n") := by
  have hexit : (Parser.fresh.receive
      (ascii "GET / HTTP/1.1\r\n")).readRequest.1 = .noRequest := by
    decide +kernel
  have hrun := Prod.mk.eta (p := (Parser.fresh.receive
    (ascii "GET / HTTP/1.1\r\n")).readRequest)
  rw [hexit] at hrun
  exact ⟨_, hrun.symm, by decide +kernel, by decide +kernel⟩

theorem hasStrayEnd_lineFeed : HasStrayEnd (ascii "Host: a\nb") :=
  ⟨ascii "Host: a", ascii "b", by decide +kernel,
    Or.inl ⟨by decide +kernel, by decide +kernel⟩⟩

/-- The request line is cut in two, and a header line has a lone LF. -/
theorem noRequest_of_hasStrayEnd_lineFeed :
    ∃ e, Parser.fresh.afterReads [ascii "GET / HT"] = some e ∧
      ((HttpConn.blank.withParser (e.receive
        (ascii "TP/1.1\r\nHost: a\nb"))).processRead fun _ => none).1 =
          .noRequest := by
  obtain ⟨e, he, hall⟩ := noRequest_of_hasStrayEnd
    (ascii "GET / HTTP/1.1\r\n") (ascii "Host: a\nb")
    consumesLines_requestLine hasStrayEnd_lineFeed [ascii "GET / HT"]
    (ascii "TP/1.1\r\nHost: a\nb") (by decide) (by decide)
  exact ⟨e, he, hall _ _⟩

/-- A header line with a lone LF, received at once: `BAD_REQUEST` is not what
`process_read` returns. -/
theorem not_badRequest_lineFeed :
    ConsumesLines (ascii "GET / HTTP/1.1\r\n") ∧
      HasStrayEnd (ascii "Host: a\nb") ∧
      ((HttpConn.blank.withParser (Parser.fresh.receive
        (ascii "GET / HTTP/1.1\r\nHost: a\nb"))).processRead
          fun _ => none).1 ≠ .badRequest := by
  refine ⟨consumesLines_requestLine, hasStrayEnd_lineFeed, ?_⟩
  decide +kernel

end Parser

end BackendLab.Proactor
