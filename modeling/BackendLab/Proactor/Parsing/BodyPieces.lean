import BackendLab.Proactor.Parsing.Delivery

/-!
# Where a body may be cut

A request with a body is delivered in pieces, and `process_read` runs after
each of them.  As long as no piece ends inside the body all is well.  A piece
that does end there sends the line scanner over the first bytes of the body,
and from then on the test of `parse_content` counts from where the scanner
stopped.  So the request is recognised with its last byte exactly if the
scanner was stuck on the first byte of the body at every such cut.
-/

namespace BackendLab.Proactor

open Support

/-- A cut behind the first `b` bytes of `body` at which the scanner does not
move: it stops at a lone line end. -/
def HarmlessCut (body : Bytes) (b : ℕ) : Prop :=
  body[0]? = some lineFeed ∨
    body[0]? = some carriageReturn ∧ (b = 1 ∨ body[1]? ≠ some lineFeed)

instance (body : Bytes) (b : ℕ) : Decidable (HarmlessCut body b) :=
  inferInstanceAs (Decidable (_ ∨ _))

namespace Parser

theorem stuck_nil : Stuck [] :=
  ⟨rfl, rfl⟩

theorem stuck_take_iff {body : Bytes} {b : ℕ} (hb : 0 < b)
    (hbody : b < body.length) :
    Stuck (body.take b) ↔ HarmlessCut body b := by
  obtain ⟨b, rfl⟩ : ∃ k, b = k + 1 := ⟨b - 1, by omega⟩
  cases body with
  | nil => simp at hbody
  | cons a s =>
      simp only [List.take_succ_cons, HarmlessCut, Stuck]
      by_cases hcr : a = carriageReturn
      · subst hcr
        rw [lineBytes_cons_of_neg (fun h => h.1 rfl)]
        cases b with
        | zero => simp [splitLine]
        | succ b =>
            cases s with
            | nil => simp at hbody
            | cons a' s =>
                by_cases hlf : a' = lineFeed
                · simp [splitLine, hlf, carriageReturn, lineFeed]
                · simp [splitLine, hlf]
      · by_cases hlf : a = lineFeed
        · subst hlf
          rw [lineBytes_cons_of_neg (fun h => h.2 rfl)]
          simp [splitLine, hcr]
        · rw [lineBytes_cons_of_pos ⟨hcr, hlf⟩]
          simp [hcr, hlf]

section Request

variable {head body : Bytes} {h : Head}

/-- The scanner was stuck on the start of the body after every piece. -/
def NeverMoves (head body : Bytes) (pieces : List Bytes) : Prop :=
  ∀ front, front <+: pieces → ∀ b, front.flatten.length = head.length + b →
    Stuck (body.take b)

theorem neverMoves_concat (head body : Bytes) (pieces : List Bytes)
    (x : Bytes) :
    NeverMoves head body (pieces ++ [x]) ↔
      NeverMoves head body pieces ∧
        ∀ b, (pieces.flatten ++ x).length = head.length + b →
          Stuck (body.take b) := by
  constructor
  · intro hall
    refine ⟨fun front hfront => hall front
      (hfront.trans (List.prefix_append _ _)), fun b hb => ?_⟩
    exact hall _ (List.prefix_refl _) b (by simpa using hb)
  · rintro ⟨hall, hlast⟩ front hfront b hb
    rcases List.prefix_concat_iff.mp hfront with rfl | hfront
    · exact hlast b (by simpa using hb)
    · exact hall front hfront b hb

/-- A connection that has received `b` bytes of the body: it has not moved into
the body, or it has. -/
def Waits (c : Parser) (h : Head) (head body : Bytes) (b : ℕ)
    (still : Prop) : Prop :=
  c.InBody h head.length ∧ c.readIdx = head.length + b ∧
    (still → c.AtBody h head.length (body.take b)) ∧
    (¬ still → head.length < c.checkedIndex)

variable (hhead : parseHead head = .complete h [])
  (hdeclared : h.declared = body.length) (hbody : body ≠ [])
  (hfit : (head ++ body).length ≤ readBufferSize)

include hdeclared hfit in
theorem contentLength_eq_length : h.contentLength = body.length := by
  have hsize : readBufferSize = 2048 := rfl
  rw [List.length_append] at hfit
  rw [contentLength_eq_declared (by omega) (by omega), hdeclared]

include hdeclared hbody hfit in
theorem inRange_of_declared : InRange h := by
  have hsize : readBufferSize = 2048 := rfl
  have hpos := List.length_pos_iff.mpr hbody
  have hlength := contentLength_eq_length hdeclared hfit
  rw [List.length_append] at hfit
  exact ⟨by omega, by omega⟩

include hhead in
/-- A proper part of a header section leaves the connection in it. -/
theorem afterReads_in_head {pieces : List Bytes} {x y : Bytes} {c d : Parser}
    {exit : ReadExit} (hroom : (pieces.flatten ++ x).length ≤ readBufferSize)
    (hc : Parser.fresh.afterReads pieces = some c)
    (hsplit : pieces.flatten ++ x ++ y = head) (hy : y ≠ [])
    (hcall : (c.receive x).readRequest = (exit, d)) :
    exit = .noRequest ∧ d.checkState ≠ .content := by
  have hcomplete : ∀ h' rest,
      parseHead (pieces.flatten ++ x) ≠ .complete h' rest := by
    intro h' rest hs
    have hlong := parseHead_append y hs
    rw [hsplit, hhead] at hlong
    simp_all
  have hout := readRequest_callOutcome hroom hc
  rw [hcall] at hout
  cases exit with
  | noRequest =>
      refine ⟨rfl, hout.resolve_right ?_⟩
      rintro ⟨h', rest, hs, -⟩
      exact hcomplete h' rest hs
  | badRequest =>
      have hlong := parseHead_append_of_bad y hout
      rw [hsplit, hhead] at hlong
      cases hlong
  | doRequest stored =>
      obtain ⟨h', rest, hs, -⟩ := hout
      exact absurd hs (hcomplete h' rest)

/-- The part of a request that ends inside its body. -/
theorem eq_append_take {t y : Bytes} {b : ℕ} (hsplit : t ++ y = head ++ body)
    (hlen : t.length = head.length + b) : t = head ++ body.take b := by
  have htake := congrArg (List.take t.length) hsplit
  rw [List.take_left, hlen, List.take_append,
    List.take_of_length_le (by omega), Nat.add_sub_cancel_left] at htake
  exact htake

/-- What the connection has made of the pieces of a request with a body. -/
def Stage (c : Parser) (h : Head) (head body : Bytes)
    (pieces : List Bytes) : Prop :=
  (pieces.flatten.length < head.length → c.checkState ≠ .content) ∧
    ∀ b, pieces.flatten.length = head.length + b →
      c.Waits h head body b (NeverMoves head body pieces)

theorem neverMoves_of_lt {pieces : List Bytes}
    (hlt : pieces.flatten.length < head.length) :
    NeverMoves head body pieces := by
  rintro front ⟨back, rfl⟩ b hb
  rw [List.flatten_append, List.length_append] at hlt
  omega

include hhead hdeclared hbody hfit in
/-- A call after which the header section is complete tests the body from a
state that shows whether the scanner has moved. -/
theorem Stage.call {pieces : List Bytes} {x y : Bytes} {c : Parser} {b : ℕ}
    (hstage : c.Stage h head body pieces)
    (hc : Parser.fresh.afterReads pieces = some c)
    (hsplit : pieces.flatten ++ x ++ y = head ++ body)
    (hlen : (pieces.flatten ++ x).length = head.length + b) :
    ∃ e : Parser, (c.receive x).readRequest = e.readRequest ∧
      e.Waits h head body b (NeverMoves head body pieces) := by
  have hroom : (pieces.flatten ++ x).length ≤ readBufferSize := by
    have htotal := congrArg List.length hsplit
    rw [List.length_append] at htotal
    omega
  have htext := eq_append_take hsplit hlen
  by_cases hlt : pieces.flatten.length < head.length
  · have hs : parseHead (pieces.flatten ++ x) = .complete h (body.take b) := by
      rw [htext]
      exact parseHead_append _ hhead
    have hout := readRequest_fresh hroom
    rw [hs] at hout
    obtain ⟨d, hend, hread, hrun⟩ := hout
    have hlength := contentLength_eq_length hdeclared hfit
    have hpos := List.length_pos_iff.mpr hbody
    rw [if_neg (by omega)] at hrun
    have hstart : d.startLine = head.length := by
      have hstart := hend.startLine_eq
      have htotal := congrArg List.length htext
      rw [hlen, List.length_append] at htotal
      omega
    have hat := hend.atBody hstart
    refine ⟨{ d with checkState := .content }, ?_, hat.toInBody,
      hread.trans hlen, fun _ => hat,
      fun hmoves => absurd (neverMoves_of_lt hlt) hmoves⟩
    rw [readRequest_pieces x hroom hc (hstage.1 hlt), hrun]
    rfl
  · obtain ⟨b', hb'⟩ : ∃ b', pieces.flatten.length = head.length + b' :=
      ⟨pieces.flatten.length - head.length, by omega⟩
    obtain ⟨hb, hread, hstill, hmoved⟩ := hstage.2 b' hb'
    have hidx : c.readIdx + x.length = head.length + b := by
      rw [List.length_append] at hlen
      omega
    have hfront : pieces.flatten = head ++ body.take b' :=
      eq_append_take (y := x ++ y) (by rw [← hsplit, List.append_assoc]) hb'
    have hrest : body.take b' ++ x = body.take b := by
      rw [hfront, List.append_assoc] at htext
      exact List.append_cancel_left htext
    refine ⟨c.receive x, rfl, hb.receive (by omega), hidx, fun hnever => ?_,
      hmoved⟩
    rw [← hrest]
    exact (hstill hnever).receive (by omega)

include hhead hdeclared hbody hfit in
/-- Before its last byte has come, no piece of the request completes it. -/
theorem Stage.step {pieces : List Bytes} {x y : Bytes} {c : Parser}
    (hstage : c.Stage h head body pieces)
    (hc : Parser.fresh.afterReads pieces = some c)
    (hsplit : pieces.flatten ++ x ++ y = head ++ body) (hy : y ≠ []) :
    ∃ d, (c.receive x).readRequest = (.noRequest, d) ∧
      d.Stage h head body (pieces ++ [x]) := by
  have htotal : (pieces.flatten ++ x).length + y.length =
      head.length + body.length := by
    rw [← List.length_append, hsplit, List.length_append]
  have hroom : head.length + body.length ≤ readBufferSize := by
    rwa [← List.length_append]
  have hypos := List.length_pos_iff.mpr hy
  have hlength := contentLength_eq_length hdeclared hfit
  have hrange := inRange_of_declared hdeclared hbody hfit
  have hflat : (pieces ++ [x]).flatten = pieces.flatten ++ x := by simp
  by_cases hlt : (pieces.flatten ++ x).length < head.length
  · have hpart : pieces.flatten ++ x ++
        head.drop (pieces.flatten ++ x).length = head := by
      have htake := congrArg (List.take (pieces.flatten ++ x).length) hsplit
      rw [List.take_left, List.take_append_of_le_length (by omega)] at htake
      conv_lhs => rw [htake]
      rw [List.length_take, Nat.min_eq_left (by omega), List.take_append_drop]
    have hrest : head.drop (pieces.flatten ++ x).length ≠ [] := by
      rw [ne_eq, List.drop_eq_nil_iff]
      omega
    obtain ⟨hexit, hstate⟩ := afterReads_in_head hhead (by omega) hc hpart
      hrest rfl
    refine ⟨_, Prod.ext hexit rfl, fun _ => hstate, fun b hb => ?_⟩
    rw [hflat] at hb
    omega
  · obtain ⟨b, hb⟩ : ∃ b, (pieces.flatten ++ x).length = head.length + b :=
      ⟨(pieces.flatten ++ x).length - head.length, by omega⟩
    obtain ⟨e, hcall, he, hread, hstill, hmoved⟩ :=
      hstage.call hhead hdeclared hbody hfit hc hsplit hb
    have hnext : ∀ d : Parser, d.InBody h head.length →
        d.readIdx = head.length + b →
        (NeverMoves head body (pieces ++ [x]) →
          d.AtBody h head.length (body.take b)) →
        (¬ NeverMoves head body (pieces ++ [x]) →
          head.length < d.checkedIndex) →
        d.Stage h head body (pieces ++ [x]) := by
      intro d hd hidx hd_still hd_moved
      refine ⟨fun hlt' => absurd (hflat ▸ hlt') hlt, fun b' hb' => ?_⟩
      obtain rfl : b' = b := by
        rw [hflat] at hb'
        omega
      exact ⟨hd, hidx, hd_still, hd_moved⟩
    have hconcat := neverMoves_concat head body pieces x
    by_cases hnever : NeverMoves head body pieces
    · obtain ⟨d, hrun, hd, hidx, hstuck, hfree⟩ :=
        (hstill hnever).readRequest_of_lt hrange (by
          rw [hlength, List.length_take]
          omega)
      refine ⟨d, hcall.trans hrun, hnext d hd (hidx.trans hread)
        (fun hall => hstuck ((hconcat.mp hall).2 b hb)) fun hsome => ?_⟩
      refine hfree fun hst => hsome (hconcat.mpr ⟨hnever, fun b' hb' => ?_⟩)
      obtain rfl : b' = b := by omega
      exact hst
    · have hgt := hmoved hnever
      obtain ⟨d, hrun, hd, hidx, hchecked⟩ := he.run_waits hrange (by omega) .ok
      exact ⟨d, hcall.trans hrun, hnext d hd (hidx.trans hread)
        (fun hall => absurd (hconcat.mp hall).1 hnever)
        fun _ => lt_of_lt_of_le hgt hchecked⟩

include hhead hdeclared hbody hfit in
theorem stage_afterReads {pieces : List Bytes} {y : Bytes}
    (hsplit : pieces.flatten ++ y = head ++ body) (hy : y ≠ []) :
    ∃ c, Parser.fresh.afterReads pieces = some c ∧
      c.Stage h head body pieces := by
  induction pieces using List.reverseRecOn generalizing y with
  | nil =>
      have hne : head.length ≠ 0 := by
        intro hzero
        have hnil : parseHead [] = .incomplete Head.empty [] := by decide
        rw [List.length_eq_zero_iff.mp hzero, hnil] at hhead
        cases hhead
      refine ⟨_, rfl, fun _ => by simp [fresh], fun b hb => ?_⟩
      simp only [List.flatten_nil, List.length_nil] at hb
      omega
  | append_singleton pieces x ih =>
      rw [List.flatten_append, List.flatten_singleton] at hsplit
      obtain ⟨c, hc, hstage⟩ := ih (y := x ++ y)
        (by rw [← hsplit, List.append_assoc]) (by simp [hy])
      obtain ⟨d, hcall, hd⟩ :=
        hstage.step hhead hdeclared hbody hfit hc hsplit hy
      exact ⟨d, afterReads_concat.mpr ⟨c, hc, hcall⟩, hd⟩

end Request

/-- Let a request declare the length of its body and fit into the read buffer,
and let it be delivered in pieces.  `do_request` is reached with the last piece
and not before exactly if every cut inside the body is harmless. -/
theorem reaches_with_last_iff (head body : Bytes) {h : Head}
    (hhead : parseHead head = .complete h [])
    (hdeclared : h.declared = body.length) (hbody : body ≠ [])
    (hfit : (head ++ body).length ≤ readBufferSize)
    (pieces : List Bytes) (last : Bytes) (hlast : last ≠ [])
    (hsplit : pieces.flatten ++ last = head ++ body) :
    (∃ c stored d, Parser.fresh.afterReads pieces = some c ∧
        (c.receive last).readRequest = (.doRequest stored, d)) ↔
      ∀ front, front <+: pieces → ∀ b,
        front.flatten.length = head.length + b → 0 < b →
          HarmlessCut body b := by
  have htotal : pieces.flatten.length + last.length =
      head.length + body.length := by
    rw [← List.length_append, hsplit, List.length_append]
  have hlastPos := List.length_pos_iff.mpr hlast
  have hlength := contentLength_eq_length hdeclared hfit
  have hrange := inRange_of_declared hdeclared hbody hfit
  have hcuts : NeverMoves head body pieces ↔
      ∀ front, front <+: pieces → ∀ b,
        front.flatten.length = head.length + b → 0 < b →
          HarmlessCut body b := by
    have hlt : ∀ front, front <+: pieces → ∀ b,
        front.flatten.length = head.length + b → b < body.length := by
      rintro front ⟨back, rfl⟩ b hb
      rw [List.flatten_append, List.length_append] at htotal
      omega
    constructor
    · intro hall front hfront b hb hpos
      exact (stuck_take_iff hpos (hlt front hfront b hb)).mp
        (hall front hfront b hb)
    · intro hall front hfront b hb
      rcases Nat.eq_zero_or_pos b with rfl | hpos
      · exact stuck_nil
      · exact (stuck_take_iff hpos (hlt front hfront b hb)).mpr
          (hall front hfront b hb hpos)
  rw [← hcuts]
  obtain ⟨c, hc, hstage⟩ :=
    stage_afterReads hhead hdeclared hbody hfit hsplit hlast
  obtain ⟨e, hcall, he, hread, hstill, hmoved⟩ :=
    hstage.call (y := []) (b := body.length) hhead hdeclared hbody hfit hc
      (by rw [List.append_nil, hsplit]) (by rw [List.length_append, htotal])
  constructor
  · rintro ⟨c', stored, d, hc', hreach⟩
    obtain rfl := Option.some.inj (hc.symm.trans hc')
    by_contra hnever
    have hgt := hmoved hnever
    obtain ⟨d', hrun, -⟩ := he.run_waits hrange (by omega) .ok
    cases (hcall.trans hrun).symm.trans hreach
  · intro hnever
    obtain ⟨d, hrun, -⟩ := (hstill hnever).readRequest_of_le hrange (by
      rw [List.take_length]
      omega)
    exact ⟨c, _, d, hc, hcall.trans hrun⟩

theorem reaches_with_last_lineFeed :
    ∃ c stored d, Parser.fresh.afterReads
        [ascii "GET / HTTP/1.1\r\nContent-Length: 2\r\n\r\n\n"] = some c ∧
      (c.receive (ascii "b")).readRequest = (.doRequest stored, d) := by
  have hiff := reaches_with_last_iff
    (ascii "GET / HTTP/1.1\r\nContent-Length: 2\r\n\r\n") (ascii "\nb")
    (h := ⟨some (ascii "/"), 4, none, false, 2⟩)
    (by decide +kernel) (by decide) (by decide) (by decide)
    [ascii "GET / HTTP/1.1\r\nContent-Length: 2\r\n\r\n\n"] (ascii "b")
    (by decide) (by decide)
  exact hiff.mpr fun _ _ _ _ _ => Or.inl (by decide)

/-- The body `ab` cut in the middle: the second call takes the scanner's
position for the start of the body and waits on. -/
theorem not_reaches_with_last :
    parseHead (ascii "GET / HTTP/1.1\r\nContent-Length: 2\r\n\r\n") =
        .complete ⟨some (ascii "/"), 4, none, false, 2⟩ [] ∧
      ¬ ∃ c stored d, Parser.fresh.afterReads
          [ascii "GET / HTTP/1.1\r\nContent-Length: 2\r\n\r\na"] = some c ∧
        (c.receive (ascii "b")).readRequest = (.doRequest stored, d) := by
  refine ⟨by decide +kernel, ?_⟩
  have hrun : (Parser.fresh.afterReads
      [ascii "GET / HTTP/1.1\r\nContent-Length: 2\r\n\r\na"]).map
      (fun c => (c.receive (ascii "b")).readRequest.1) = some .noRequest := by
    decide +kernel
  rintro ⟨c, stored, d, hc, hreach⟩
  rw [hc, Option.map_some, hreach] at hrun
  cases hrun

end Parser

end BackendLab.Proactor
