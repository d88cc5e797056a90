import BackendLab.Proactor.Parsing.Delivery

/-!
# The requests that are accepted

The grammar of a request, written without reference to any parser, and the
proof that one call of `process_read` reaches `do_request` on exactly the byte
strings of this grammar.
-/

namespace BackendLab.Proactor

open Support

/-- The target `u` names the path `path`: directly, or behind a scheme and a
host. -/
def IsTarget (u path : Bytes) : Prop :=
  (u.head? = some slash ∧ path = u) ∨
    ∃ scheme host t, u = scheme ++ (host ++ slash :: t) ∧
      eqIgnoreCase scheme (ascii "http://") ∧ slash ∉ host ∧ path = slash :: t

/-- A request line that asks for `path`. -/
def IsRequestLine (r path : Bytes) : Prop :=
  ∃ m w₁ u w₂ v, r = m ++ w₁ :: (u ++ w₂ :: v) ∧ w₁ ∈ blanks ∧ w₂ ∈ blanks ∧
    (∀ b ∈ m, b ∉ blanks) ∧ (∀ b ∈ u, b ∉ blanks) ∧
    eqIgnoreCase m (ascii "GET") ∧ eqIgnoreCase v (ascii "HTTP/1.1") ∧
    IsTarget u path

/-- A header line that asks to keep the connection. -/
def IsKeepAlive (l : Bytes) : Prop :=
  ∃ name gap value, l = name ++ (gap ++ value) ∧
    eqIgnoreCase name (ascii "Connection:") ∧ (∀ b ∈ gap, b ∈ blanks) ∧
    eqIgnoreCase value (ascii "keep-alive")

def isContentLength (l : Bytes) : Bool :=
  eqIgnoreCase (l.take 15) (ascii "Content-Length:")

/-- The value of the last `Content-Length` header, `0` if there is none. -/
def lastContentLength (ls : List Bytes) : ℤ :=
  match (ls.filter isContentLength).getLast? with
  | none => 0
  | some l => atol (skipBlanks (l.drop 15))

/-- `s` is a request line, header lines and an empty line, followed by
`body`. -/
structure IsRequest (s r : Bytes) (ls : List Bytes) (body path : Bytes) :
    Prop where
  text : s = r ++ crlf ++ (headerLines ls ++ crlf ++ body)
  requestLine : ∀ b ∈ r, IsLineByte b
  headers : ∀ l ∈ ls, l ≠ [] ∧ ∀ b ∈ l, IsLineByte b
  target : IsRequestLine r path

/-! ## The request line -/

theorem eqIgnoreCase_iff {s t : Bytes} :
    eqIgnoreCase s t = true ↔ s.map toLower = t.map toLower := by
  simp [eqIgnoreCase]

/-- A text that equals `lit` up to case starts with the same byte up to case. -/
theorem toLower_head_of_eqIgnoreCase {b : UInt8} {s lit : Bytes}
    (h : eqIgnoreCase (b :: s) lit) : (lit.map toLower).head? =
      some (toLower b) := by
  rw [← eqIgnoreCase_iff.mp h]
  rfl

theorem resource_eq_some_iff {u path : Bytes} :
    resource u = some path ↔ IsTarget u path := by
  unfold resource
  by_cases habs : eqIgnoreCase (u.take 7) (ascii "http://") = true
  · have hslash : u.head? ≠ some slash := by
      intro hhead
      cases u with
      | nil => simp at hhead
      | cons b u =>
          obtain rfl : b = slash := by simpa using hhead
          have := toLower_head_of_eqIgnoreCase habs
          revert this
          decide
    rw [if_pos habs, Option.map_eq_some_iff]
    constructor
    · rintro ⟨⟨host, t⟩, hcut, rfl⟩
      obtain ⟨w, hw, hdrop, hhost⟩ := cutAt_eq_some_iff.mp hcut
      obtain rfl : w = slash := by simpa using hw
      refine Or.inr ⟨u.take 7, host, t, ?_, habs, ?_, rfl⟩
      · rw [← hdrop, List.take_append_drop]
      · exact fun hmem => hhost slash hmem (by simp)
    · rintro (⟨hhead, -⟩ | ⟨scheme, host, t, rfl, hscheme, hhost, rfl⟩)
      · exact absurd hhead hslash
      · have hlen : scheme.length = 7 := length_eq_of_eqIgnoreCase hscheme
        refine ⟨(host, t), cutAt_eq_some_iff.mpr ⟨slash, by simp, ?_, ?_⟩, rfl⟩
        · exact List.drop_left' hlen
        · rintro b hb hmem
          obtain rfl : b = slash := by simpa using hmem
          exact hhost hb
  · rw [if_neg habs]
    constructor
    · intro h
      split_ifs at h with hhead
      exact Or.inl ⟨hhead, (Option.some.inj h).symm⟩
    · rintro (⟨hhead, rfl⟩ | ⟨scheme, host, t, rfl, hscheme, -⟩)
      · rw [if_pos hhead]
      · have hlen : scheme.length = 7 := length_eq_of_eqIgnoreCase hscheme
        refine absurd ?_ habs
        rwa [List.take_left' hlen]

theorem requestTarget_eq_some_iff {t path : Bytes} :
    requestTarget t = some path ↔ IsRequestLine t path := by
  unfold requestTarget
  constructor
  · intro h
    split at h
    · cases h
    next m t' hcut =>
      split_ifs at h with hget
      split at h
      · cases h
      next u v hcut' =>
        split_ifs at h with hversion
        obtain ⟨w₁, hw₁, rfl, hm⟩ := cutAt_eq_some_iff.mp hcut
        obtain ⟨w₂, hw₂, rfl, hu⟩ := cutAt_eq_some_iff.mp hcut'
        exact ⟨m, w₁, u, w₂, v, rfl, hw₁, hw₂, hm, hu, hget, hversion,
          resource_eq_some_iff.mp h⟩
  · rintro ⟨m, w₁, u, w₂, v, rfl, hw₁, hw₂, hm, hu, hget, hversion, htarget⟩
    have hcut : cutAt blanks (m ++ w₁ :: (u ++ w₂ :: v)) =
        some (m, u ++ w₂ :: v) :=
      cutAt_eq_some_iff.mpr ⟨w₁, hw₁, rfl, hm⟩
    have hcut' : cutAt blanks (u ++ w₂ :: v) = some (u, v) :=
      cutAt_eq_some_iff.mpr ⟨w₂, hw₂, rfl, hu⟩
    simp only [hcut, hcut', hget, hversion, if_true]
    exact resource_eq_some_iff.mpr htarget

/-! ## The header lines -/

theorem isKeepAlive_iff {l : Bytes} :
    IsKeepAlive l ↔ eqIgnoreCase (l.take 11) (ascii "Connection:") ∧
      eqIgnoreCase (skipBlanks (l.drop 11)) (ascii "keep-alive") := by
  constructor
  · rintro ⟨name, gap, value, rfl, hname, hgap, hvalue⟩
    have hlen : name.length = 11 := length_eq_of_eqIgnoreCase hname
    rw [List.take_left' hlen, List.drop_left' hlen]
    refine ⟨hname, ?_⟩
    have hskip : skipBlanks (gap ++ value) = value := by
      rw [skipBlanks, List.dropWhile_append_of_pos (by simpa using hgap)]
      cases value with
      | nil => rfl
      | cons b value =>
          apply List.dropWhile_cons_of_neg
          intro hb
          have hfirst := toLower_head_of_eqIgnoreCase hvalue
          have hblank : b = 32 ∨ b = 9 := by simpa [blanks, ascii] using hb
          rcases hblank with rfl | rfl
          · revert hfirst
            decide
          · revert hfirst
            decide
    rwa [hskip]
  · rintro ⟨hname, hvalue⟩
    refine ⟨l.take 11, (l.drop 11).takeWhile (· ∈ blanks),
      skipBlanks (l.drop 11), ?_, hname, ?_, hvalue⟩
    · rw [skipBlanks, List.takeWhile_append_dropWhile, List.take_append_drop]
    · intro b hb
      simpa using List.mem_takeWhile_imp hb

/-- No header line is both a `Connection` and a `Content-Length` header. -/
theorem not_connection_of_isContentLength {l : Bytes}
    (h : isContentLength l) :
    ¬ eqIgnoreCase (l.take 11) (ascii "Connection:") = true := by
  intro hconn
  have hlong := congrArg (List.take 11) (eqIgnoreCase_iff.mp h)
  rw [← List.map_take, List.take_take, Nat.min_eq_left (by decide),
    eqIgnoreCase_iff.mp hconn] at hlong
  revert hlong
  decide

namespace Head

theorem addHeader_linger_iff (h : Head) (l : Bytes) :
    (h.addHeader l).linger = true ↔ h.linger = true ∨ IsKeepAlive l := by
  rw [isKeepAlive_iff]
  unfold addHeader
  split_ifs with hconn halive <;> simp_all

theorem addHeader_declared (h : Head) (l : Bytes) :
    (h.addHeader l).declared =
      if isContentLength l then writtenInt (skipBlanks (l.drop 15))
      else h.declared := by
  by_cases hlength : isContentLength l = true
  · have hlength' : eqIgnoreCase (l.take 15) (ascii "Content-Length:") = true :=
      hlength
    rw [if_pos hlength, addHeader,
      if_neg (not_connection_of_isContentLength hlength), if_pos hlength']
  · have hlength' : ¬ eqIgnoreCase (l.take 15) (ascii "Content-Length:") = true :=
      hlength
    rw [if_neg hlength, addHeader, if_neg hlength']
    split_ifs <;> rfl

variable {ls : List Bytes} (hnul : ∀ l ∈ ls, (0 : UInt8) ∉ l)

include hnul

theorem addHeaders_linger_iff (h : Head) :
    (h.addHeaders ls).linger = true ↔
      h.linger = true ∨ ∃ l ∈ ls, IsKeepAlive l := by
  induction ls generalizing h with
  | nil => simp [addHeaders]
  | cons l ls ih =>
      have hl := lineText_eq_self (hnul l (by simp))
      have hcons : h.addHeaders (l :: ls) = (h.addHeader l).addHeaders ls := by
        simp [addHeaders, hl]
      rw [hcons, ih (fun l' hl' => hnul l' (by simp [hl'])),
        addHeader_linger_iff]
      simp [or_assoc]

theorem addHeaders_declared (h : Head) (hdeclared : h.declared = 0) :
    clampLong (h.addHeaders ls).declared = lastContentLength ls := by
  induction ls using List.reverseRecOn with
  | nil =>
      simp [addHeaders, hdeclared, lastContentLength, clampLong]
  | append_singleton ls l ih =>
      have hl := lineText_eq_self (hnul l (by simp))
      have hconcat : h.addHeaders (ls ++ [l]) =
          (h.addHeaders ls).addHeader l := by
        simp [addHeaders, hl]
      have hrest := ih (fun l' hl' => hnul l' (by simp [hl']))
      rw [hconcat, addHeader_declared]
      by_cases hlength : isContentLength l = true
      · simp [lastContentLength, hlength, atol]
      · rw [if_neg hlength, hrest]
        simp [lastContentLength, hlength]

end Head

/-! ## Acceptance -/

/-- On NUL-free bytes the header section is what the grammar says. -/
theorem parseHead_eq_complete_of_nulFree {s body : Bytes} {h : Head}
    (hnul : (0 : UInt8) ∉ s) :
    parseHead s = .complete h body ↔
      ∃ r ls path, IsRequest s r ls body path ∧
        h = (Head.ofRequestLine r path).addHeaders ls := by
  rw [parseHead_eq_complete_iff]
  constructor
  · rintro ⟨r, path, ls, e, hr, htarget, hsec, rfl, rfl⟩
    have hnul' : ∀ l ∈ ls, (0 : UInt8) ∉ l := by
      intro l hl hmem
      refine hnul ?_
      simp only [headerLines, List.mem_append, List.mem_flatMap]
      exact Or.inr (Or.inl (Or.inl (Or.inl ⟨l, hl, Or.inl hmem⟩)))
    have hr' : (0 : UInt8) ∉ r := fun hmem => hnul (by simp [hmem])
    have he : (0 : UInt8) ∉ e := fun hmem => hnul (by simp [hmem])
    have hempty := hsec.empty
    rw [lineText_eq_self he] at hempty
    subst hempty
    rw [lineText_eq_self hr'] at htarget
    refine ⟨r, ls, path, ⟨by simp, hr, fun l hl => ?_,
      requestTarget_eq_some_iff.mp htarget⟩, rfl⟩
    obtain ⟨hline, htext⟩ := hsec.lines l hl
    rw [lineText_eq_self (hnul' l hl)] at htext
    exact ⟨htext, hline⟩
  · rintro ⟨r, ls, path, ⟨rfl, hr, hls, htarget⟩, rfl⟩
    have hr' : (0 : UInt8) ∉ r := fun hmem => hnul (by simp [hmem])
    refine ⟨r, path, ls, [], hr, ?_, ⟨fun l hl => ?_, by simp, rfl⟩, rfl,
      by simp⟩
    · rw [lineText_eq_self hr']
      exact requestTarget_eq_some_iff.mpr htarget
    · have hl' : (0 : UInt8) ∉ l := fun hmem =>
        hnul (by simpa [headerLines] using Or.inr (Or.inr (Or.inl ⟨l, hl, Or.inl hmem⟩)))
      rw [lineText_eq_self hl']
      exact ⟨(hls l hl).2, (hls l hl).1⟩

namespace IsRequest

variable {s r body path : Bytes} {ls : List Bytes}

theorem zero_notMem_header (hreq : IsRequest s r ls body path)
    (hnul : (0 : UInt8) ∉ s) : ∀ l ∈ ls, (0 : UInt8) ∉ l := by
  intro l hl hmem
  refine hnul ?_
  rw [hreq.text]
  simp only [headerLines, List.mem_append, List.mem_flatMap]
  exact Or.inr (Or.inl (Or.inl ⟨l, hl, Or.inl hmem⟩))

/-- The length that the headers of a request declare, by any parse of it. -/
theorem lastContentLength_eq (hreq : IsRequest s r ls body path)
    (hnul : (0 : UInt8) ∉ s) {h : Head} {rest : Bytes}
    (hs : parseHead s = .complete h rest) :
    lastContentLength ls = clampLong h.declared := by
  cases hs.symm.trans ((parseHead_eq_complete_of_nulFree hnul).mpr
    ⟨r, ls, path, hreq, rfl⟩)
  rw [Head.addHeaders_declared (hreq.zero_notMem_header hnul) _ rfl]

/-- The header section of a request, and the length its headers declare. -/
theorem parseHead_eq (hreq : IsRequest s r ls body path)
    (hnul : (0 : UInt8) ∉ s)
    (hn : 0 ≤ lastContentLength ls ∧ lastContentLength ls ≤ readBufferSize) :
    ∃ h, parseHead s = .complete h body ∧ h.url = some path ∧
      (h.linger = true ↔ ∃ l ∈ ls, IsKeepAlive l) ∧
      h.contentLength = lastContentLength ls := by
  have hls := hreq.zero_notMem_header hnul
  have hsize : readBufferSize = 2048 := rfl
  refine ⟨_, (parseHead_eq_complete_of_nulFree hnul).mpr
    ⟨r, ls, path, hreq, rfl⟩, ?_, ?_, ?_⟩
  · rw [Head.addHeaders_url]
    rfl
  · rw [Head.addHeaders_linger_iff hls]
    simp [Head.ofRequestLine, Head.empty]
  · rw [Head.contentLength, Head.addHeaders_declared hls _ rfl,
      toInt32_eq_self (by omega) (by omega)]

end IsRequest

namespace Parser

/-- A NUL-free byte string that one `read()` has put into the buffer of a fresh
connection makes `process_read` reach `do_request` exactly if it is a request
whose body is complete.  Then `m_url` is its path, and `m_linger` says whether
one of its headers asks to keep the connection. -/
theorem reaches_iff_isRequest {s : Bytes} (hnul : (0 : UInt8) ∉ s)
    (hlen : s.length < readBufferSize)
    (hn : ∀ r ls body path, IsRequest s r ls body path →
      0 ≤ lastContentLength ls ∧ lastContentLength ls ≤ readBufferSize) :
    ((∃ stored d, (Parser.fresh.receive s).readRequest =
        (.doRequest stored, d)) ↔
      ∃ r ls body path, IsRequest s r ls body path ∧
        lastContentLength ls ≤ body.length) ∧
      ∀ r ls body path, IsRequest s r ls body path → ∀ stored d,
        (Parser.fresh.receive s).readRequest = (.doRequest stored, d) →
          (∃ p, d.url = some p ∧ cstr d.mem p = path) ∧
            (d.linger = true ↔ ∃ l ∈ ls, IsKeepAlive l) := by
  have hsize : readBufferSize = 2048 := rfl
  have hfit : (([] : List Bytes).flatten ++ s).length ≤ readBufferSize := hlen.le
  have hnil : Parser.fresh.afterReads [] = some Parser.fresh := rfl
  have hreaches : ∀ stored d, (Parser.fresh.receive s).readRequest =
      (.doRequest stored, d) → Reaches s stored d := by
    intro stored d hrun
    have hout := readRequest_callOutcome hfit hnil
    rwa [List.flatten_nil, List.nil_append, hrun] at hout
  refine ⟨⟨?_, ?_⟩, ?_⟩
  · rintro ⟨stored, d, hrun⟩
    obtain ⟨h, body, hs, -⟩ := hreaches stored d hrun
    obtain ⟨r, ls, path, hreq, -⟩ :=
      (parseHead_eq_complete_of_nulFree hnul).mp hs
    obtain ⟨h0, hle⟩ := hn r ls body path hreq
    obtain ⟨h', hs', -, -, hlength⟩ := hreq.parseHead_eq hnul ⟨h0, hle⟩
    cases hs.symm.trans hs'
    refine ⟨r, ls, body, path, hreq, ?_⟩
    rcases h0.eq_or_lt with hzero | hpos
    · omega
    · have hle' := (reached_inRange hfit hnil hrun hs
        ⟨by omega, by omega⟩).1
      omega
  · rintro ⟨r, ls, body, path, hreq, hle⟩
    obtain ⟨h0, hle'⟩ := hn r ls body path hreq
    obtain ⟨h, hs, -, -, hlength⟩ := hreq.parseHead_eq hnul ⟨h0, hle'⟩
    have hout := readRequest_fresh hlen.le
    rw [hs] at hout
    obtain ⟨d, hend, -, hrun⟩ := hout
    by_cases hzero : h.contentLength = 0
    · rw [if_pos hzero] at hrun
      exact ⟨_, _, hrun⟩
    · rw [if_neg hzero] at hrun
      obtain ⟨d', hrun', -⟩ := (hend.atBody rfl).readRequest_of_le
        ⟨by omega, by omega⟩ (by omega)
      exact ⟨_, d', hrun.trans hrun'⟩
  · intro r ls body path hreq stored d hrun
    obtain ⟨h0, hle⟩ := hn r ls body path hreq
    obtain ⟨h, hs, hurl, hlinger, hlength⟩ := hreq.parseHead_eq hnul ⟨h0, hle⟩
    obtain ⟨h', rest, hs', hcases⟩ := hreaches stored d hrun
    cases hs.symm.trans hs'
    have hd : d.Carries h := by
      rcases hcases with ⟨-, -, hd⟩ | ⟨-, -, hd⟩ | ⟨hneg, -⟩
      · exact hd
      · exact hd
      · omega
    have hpoints := hd.url
    rw [hurl] at hpoints
    obtain ⟨p, hp, hstring, -⟩ := hpoints
    exact ⟨⟨p, hp, hstring.cstr_eq⟩, by rw [hd.linger, hlinger]⟩

/-- A request for `/a` that keeps the connection. -/
theorem reaches_keepAlive_request :
    ∃ stored d, (Parser.fresh.receive (ascii
        "get /a HTTP/1.1\r\nConnection: \tKeep-Alive\r\n\r\n")).readRequest =
      (.doRequest stored, d) := by
  have hnul : (0 : UInt8) ∉
      ascii "get /a HTTP/1.1\r\nConnection: \tKeep-Alive\r\n\r\n" := by
    decide
  have hhead : parseHead
      (ascii "get /a HTTP/1.1\r\nConnection: \tKeep-Alive\r\n\r\n") =
      .complete ⟨some (ascii "/a"), 4, none, true, 0⟩ [] := by
    decide +kernel
  have hn : ∀ r ls body path, IsRequest
      (ascii "get /a HTTP/1.1\r\nConnection: \tKeep-Alive\r\n\r\n")
      r ls body path →
      0 ≤ lastContentLength ls ∧ lastContentLength ls ≤ readBufferSize := by
    intro r ls body path hreq
    rw [hreq.lastContentLength_eq hnul hhead]
    decide
  refine (reaches_iff_isRequest hnul (by decide) hn).1.mpr ?_
  obtain ⟨r, ls, path, hreq, -⟩ :=
    (parseHead_eq_complete_of_nulFree hnul).mp hhead
  refine ⟨r, ls, [], path, hreq, ?_⟩
  rw [hreq.lastContentLength_eq hnul hhead]
  decide

end Parser

end BackendLab.Proactor
