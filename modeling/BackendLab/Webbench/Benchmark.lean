import BackendLab.Proactor.Parsing.Accepted
import BackendLab.Proactor.Responses.Closing
import BackendLab.Webbench.Request
import Mathlib

/-!
# The Proactor under webbench

What the Proactor makes of the requests that webbench builds, and what webbench
counts of the answers.
-/

namespace BackendLab.Webbench

open Support Proactor

/-- A byte of a URL: no line end, no blank and no NUL. -/
def IsUrlByte (b : UInt8) : Prop :=
  IsLineByte b ∧ b ∉ blanks ∧ b ≠ 0

instance (b : UInt8) : Decidable (IsUrlByte b) :=
  inferInstanceAs (Decidable (_ ∧ _))

/-! ## The scheme -/

theorem eq_of_toLower_eq {b c : UInt8} (hc : c < 65) (h : toLower b = c) : b = c := by
  unfold toLower at h
  split_ifs at h with hupper
  · exfalso
    have hb := UInt8.le_iff_toNat_le.mp hupper.1
    have hb' := UInt8.le_iff_toNat_le.mp hupper.2
    have hsum := congrArg UInt8.toNat h
    rw [UInt8.lt_iff_toNat_lt] at hc
    rw [UInt8.toNat_add] at hsum
    simp at hb hb' hsum hc
    omega
  · exact h

section Scheme

variable {url : Bytes} (hhttp : eqIgnoreCase (url.take 7) (ascii "http://") = true)

include hhttp

theorem toLower_head?_drop {k : ℕ} (hk : k < 7) :
    (url.drop k).head?.map toLower = ((ascii "http://").map toLower)[k]? := by
  rw [← eqIgnoreCase_iff.mp hhttp]
  simp [hk]

theorem drop_eq_cons {k : ℕ} {c : UInt8} (hk : k < 7)
    (hc : ((ascii "http://").map toLower)[k]? = some c) (hlt : c < 65) :
    url.drop k = c :: url.drop (k + 1) := by
  have hhead := (toLower_head?_drop hhttp hk).trans hc
  cases hdrop : url.drop k with
  | nil =>
      rw [hdrop] at hhead
      cases hhead
  | cons b t =>
      rw [hdrop] at hhead
      rw [eq_of_toLower_eq hlt (Option.some.inj hhead), ← List.tail_drop, hdrop,
        List.tail_cons]

theorem scheme_prefix_drop : ascii "://" <+: url.drop 4 := by
  refine ⟨url.drop 7, ?_⟩
  rw [drop_eq_cons hhttp (k := 4) (c := 58) (by decide) (by decide) (by decide),
    drop_eq_cons hhttp (k := 5) (c := 47) (by decide) (by decide) (by decide),
    drop_eq_cons hhttp (k := 6) (c := 47) (by decide) (by decide) (by decide)]
  rfl

/-- In a URL that starts with `http://`, the first `://` is the one behind `http`. -/
theorem Options.Accepts.length_scheme {o : Options} {scheme rest : Bytes}
    (h : o.Accepts url scheme rest) : scheme.length = 4 := by
  have hdrop : url.drop scheme.length = ascii "://" ++ rest := by
    rw [h.text, List.append_assoc, List.drop_left]
  rcases lt_trichotomy scheme.length 4 with hlt | heq | hgt
  · have hhead := toLower_head?_drop hhttp (k := scheme.length) (by omega)
    rw [hdrop] at hhead
    revert hhead hlt
    generalize scheme.length = k
    intro hlt hhead
    have hnone : ∀ k < 4, ((ascii "http://").map toLower)[k]? ≠ some 58 := by decide
    exact absurd hhead.symm (hnone k hlt)
  · exact heq
  · exact absurd (scheme_prefix_drop hhttp) (h.first 4 hgt)

end Scheme

/-! ## The request line -/

theorem requestTarget_line {m target version : Bytes} (hm : ∀ b ∈ m, b ∉ blanks)
    (htarget : ∀ b ∈ target, b ∉ blanks) :
    requestTarget (m ++ 32 :: (target ++ 32 :: version)) =
      if eqIgnoreCase m (ascii "GET") ∧ eqIgnoreCase version (ascii "HTTP/1.1") then
        resource target
      else none := by
  have hblank : (32 : UInt8) ∈ blanks := by decide
  have hfirst : cutAt blanks (m ++ 32 :: (target ++ 32 :: version)) =
      some (m, target ++ 32 :: version) :=
    cutAt_eq_some_iff.mpr ⟨32, hblank, rfl, hm⟩
  have hsecond : cutAt blanks (target ++ 32 :: version) = some (target, version) :=
    cutAt_eq_some_iff.mpr ⟨32, hblank, rfl, htarget⟩
  simp only [requestTarget, hfirst, hsecond]
  by_cases hget : eqIgnoreCase m (ascii "GET") = true
  · by_cases hversion : eqIgnoreCase version (ascii "HTTP/1.1") = true
    · simp only [hget, hversion, and_self, if_true]
    · simp only [hget, hversion, and_false, if_true, if_false, Bool.false_eq_true]
  · simp only [hget, false_and, if_false, Bool.false_eq_true]

namespace Options

variable {o : Options} {url scheme rest : Bytes}

/-- The target names the path of the URL, through a proxy or not. -/
theorem Accepts.isTarget (h : o.Accepts url scheme rest)
    (hhttp : eqIgnoreCase (url.take 7) (ascii "http://") = true) :
    IsTarget (o.target url (scheme.length + 3)) (pathPart rest) := by
  obtain ⟨a, t, hrest, ha⟩ := List.eq_append_cons_of_mem h.slash
  have hpath : pathPart rest = Webbench.slash :: t := by
    rw [hrest]
    exact pathPart_append ha
  by_cases hproxy : o.proxyhost = none
  · left
    have htarget : o.target url (scheme.length + 3) = Webbench.slash :: t := by
      rw [target, if_pos hproxy, h.drop_eq, hrest, strcspn_append ha, List.drop_left]
    rw [htarget, hpath]
    exact ⟨rfl, rfl⟩
  · right
    have hseven : (scheme ++ ascii "://").length = 7 := by
      rw [List.length_append, Accepts.length_scheme hhttp h]
      rfl
    have htake : url.take 7 = scheme ++ ascii "://" := by
      rw [h.text, ← hseven]
      exact List.take_left
    refine ⟨scheme ++ ascii "://", a, t, ?_, htake ▸ hhttp, ha, hpath⟩
    have htext := h.text
    rw [hrest] at htext
    rw [target, if_neg hproxy]
    exact htext

/-! ## The request line by line -/

/-- What stands for the version in the request line, from HTTP/1.0 on. -/
def versionText (o : Options) : Bytes :=
  if o.corrected = .v10 then ascii "HTTP/1.0" else ascii "HTTP/1.1"

def requestLine (o : Options) (url : Bytes) (i : ℕ) : Bytes :=
  o.method.name ++ 32 :: (o.target url i ++ 32 :: o.versionText)

def headers (o : Options) (host : Bytes) : List Bytes :=
  [ascii "User-Agent: WebBench 1.5"] ++
  (if o.proxyhost = none then [ascii "Host: " ++ host] else []) ++
  (if o.forceReload ∧ o.proxyhost ≠ none then [ascii "Pragma: no-cache"] else []) ++
  (if 1 < o.corrected.number then [ascii "Connection: close"] else [])

theorem text_eq (hversion : o.corrected ≠ .v09) (url : Bytes) (i : ℕ) (host : Bytes) :
    o.text url i host = o.requestLine url i ++ crlf ++
      (headerLines (o.headers host) ++ [] ++ crlf ++ []) := by
  have hblank : ascii " " = [32] := by decide
  have hcrlf : ascii "\r\n" = crlf := by decide
  have hagent : ascii "User-Agent: WebBench 1.5\r\n" =
      ascii "User-Agent: WebBench 1.5" ++ crlf := by decide
  have hpragma : ascii "Pragma: no-cache\r\n" =
      ascii "Pragma: no-cache" ++ crlf := by decide
  have hclose : ascii "Connection: close\r\n" =
      ascii "Connection: close" ++ crlf := by decide
  have hline : (if o.corrected.number = 1 then [ascii " HTTP/1.0"]
      else if o.corrected.number = 2 then [ascii " HTTP/1.1"] else []).flatten =
        32 :: o.versionText := by
    unfold versionText
    revert hversion
    cases o.corrected <;> decide
  have hpos : 0 < o.corrected.number := by
    revert hversion
    cases o.corrected <;> decide
  simp only [text, trailer, List.flatten_append, hline, hblank, hcrlf, hagent, hpragma,
    hclose, hpos, and_true, if_true, requestLine, headers, headerLines,
    List.flatMap_append, List.append_assoc, List.flatten_cons, List.flatten_nil,
    List.append_nil, List.flatMap_cons, List.flatMap_nil]
  split_ifs <;> simp

theorem isUrlByte_name (m : Method) : ∀ b ∈ m.name, IsUrlByte b := by
  cases m <;> decide +kernel

theorem isUrlByte_versionText (o : Options) : ∀ b ∈ o.versionText, IsUrlByte b := by
  unfold versionText
  split_ifs <;> decide +kernel

theorem mem_of_mem_target {b : UInt8} {i : ℕ} (hb : b ∈ o.target url i) : b ∈ url := by
  unfold target at hb
  split_ifs at hb
  · exact List.mem_of_mem_drop (List.mem_of_mem_drop hb)
  · exact hb

theorem mem_of_mem_hostPart {b : UInt8} (hb : b ∈ hostPart rest) : b ∈ rest :=
  (List.takeWhile_sublist _).mem ((List.takeWhile_sublist _).mem hb)

section Bytes

variable (hurl : ∀ b ∈ url, IsUrlByte b)

include hurl

theorem requestLine_bytes (i : ℕ) :
    ∀ b ∈ o.requestLine url i, IsLineByte b ∧ b ≠ 0 := by
  have hblank : IsLineByte 32 ∧ (32 : UInt8) ≠ 0 := by decide
  have hplain {b : UInt8} (hb : IsUrlByte b) : IsLineByte b ∧ b ≠ 0 := ⟨hb.1, hb.2.2⟩
  intro b hb
  simp only [requestLine, List.mem_append, List.mem_cons] at hb
  rcases hb with hb | rfl | hb | rfl | hb
  · exact hplain (isUrlByte_name _ b hb)
  · exact hblank
  · exact hplain (hurl b (mem_of_mem_target hb))
  · exact hblank
  · exact hplain (isUrlByte_versionText o b hb)

/-- The Proactor finds the path of the URL, if it accepts method and version. -/
theorem requestTarget_requestLine (h : o.Accepts url scheme rest)
    (hhttp : eqIgnoreCase (url.take 7) (ascii "http://") = true)
    (hversion : o.corrected ≠ .v09) :
    requestTarget (lineText (o.requestLine url (scheme.length + 3))) =
      if o.method = .get ∧ o.corrected = .v11 then some (pathPart rest) else none := by
  have hnul : (0 : UInt8) ∉ o.requestLine url (scheme.length + 3) :=
    fun hmem => (requestLine_bytes hurl _ 0 hmem).2 rfl
  have hget : eqIgnoreCase o.method.name (ascii "GET") = true ↔ o.method = .get := by
    cases o.method <;> decide
  have hone : eqIgnoreCase o.versionText (ascii "HTTP/1.1") = true ↔ o.corrected = .v11 := by
    unfold versionText
    revert hversion
    cases o.corrected <;> decide
  rw [lineText_eq_self hnul, requestLine,
    requestTarget_line (fun b hb => (isUrlByte_name _ b hb).2.1)
      (fun b hb => (hurl b (mem_of_mem_target hb)).2.1),
    resource_eq_some_iff.mpr (h.isTarget hhttp)]
  simp only [hget, hone]

end Bytes

/-! ## The header lines -/

/-- A header line that asks neither to keep the connection nor for a body. -/
structure Plain (l : Bytes) : Prop where
  bytes : ∀ b ∈ l, IsLineByte b ∧ b ≠ 0
  ne_nil : l ≠ []
  closes : ¬ IsKeepAlive l
  bodiless : ¬ isContentLength l

theorem plain_of_head {b : UInt8} {l : Bytes} (hhead : l.head? = some b)
    (hb : toLower b ≠ 99) (hbytes : ∀ x ∈ l, IsLineByte x ∧ x ≠ 0) : Plain l := by
  obtain ⟨l, rfl⟩ := List.head?_eq_some_iff.mp hhead
  refine ⟨hbytes, List.cons_ne_nil _ _, ?_, ?_⟩
  · intro hkeep
    have hfirst := toLower_head_of_eqIgnoreCase (isKeepAlive_iff.mp hkeep).1
    exact hb (Option.some.inj (hfirst.symm.trans (by decide)))
  · intro hlength
    have hfirst := toLower_head_of_eqIgnoreCase hlength
    exact hb (Option.some.inj (hfirst.symm.trans (by decide)))

theorem plain_headers {host : Bytes} (hhost : ∀ b ∈ host, IsLineByte b ∧ b ≠ 0) :
    ∀ l ∈ o.headers host, Plain l := by
  intro l hl
  simp only [headers, List.mem_append, List.mem_singleton] at hl
  rcases hl with ((rfl | hl) | hl) | hl
  · exact plain_of_head (b := 85) (by decide) (by decide) (by decide +kernel)
  · split_ifs at hl
    · rw [List.mem_singleton.mp hl]
      have hname : ascii "Host: " = [72, 111, 115, 116, 58, 32] := by decide
      rw [hname]
      refine plain_of_head (b := 72) rfl (by decide) ?_
      have hbytes : ∀ b ∈ ([72, 111, 115, 116, 58, 32] : Bytes),
          IsLineByte b ∧ b ≠ 0 := by decide +kernel
      intro b hb
      rcases List.mem_append.mp hb with hb | hb
      · exact hbytes b hb
      · exact hhost b hb
    · cases hl
  · split_ifs at hl
    · rw [List.mem_singleton.mp hl]
      exact plain_of_head (b := 80) (by decide) (by decide) (by decide +kernel)
    · cases hl
  · split_ifs at hl
    · rw [List.mem_singleton.mp hl]
      refine ⟨by decide +kernel, by decide, fun hkeep => ?_, by decide⟩
      exact absurd (isKeepAlive_iff.mp hkeep).2 (by decide)
    · cases hl

theorem headerSection_of_plain {ls : List Bytes} (hls : ∀ l ∈ ls, Plain l) :
    HeaderSection ls [] where
  lines := by
    intro l hl
    refine ⟨fun b hb => ((hls l hl).bytes b hb).1, ?_⟩
    rw [lineText_eq_self fun hmem => ((hls l hl).bytes 0 hmem).2 rfl]
    exact (hls l hl).ne_nil
  last := by simp
  empty := rfl

/-- Plain header lines leave what the request line has said. -/
theorem addHeaders_of_plain {ls : List Bytes} (hls : ∀ l ∈ ls, Plain l) {h : Head}
    (hlinger : h.linger = false) (hdeclared : h.declared = 0) :
    (h.addHeaders ls).linger = false ∧ (h.addHeaders ls).contentLength = 0 := by
  have hnul : ∀ l ∈ ls, (0 : UInt8) ∉ l :=
    fun l hl hmem => ((hls l hl).bytes 0 hmem).2 rfl
  constructor
  · rw [← Bool.not_eq_true, Head.addHeaders_linger_iff hnul, hlinger]
    rintro (hfalse | ⟨l, hl, hkeep⟩)
    · cases hfalse
    · exact (hls l hl).closes hkeep
  · have hnone : ls.filter isContentLength = [] := by
      rw [List.filter_eq_nil_iff]
      exact fun l hl => (hls l hl).bodiless
    rw [Head.contentLength, Head.addHeaders_declared hnul h hdeclared, lastContentLength,
      hnone]
    rfl

/-! ## The request as the Proactor reads it -/

section Read

variable (hurl : ∀ b ∈ url, IsUrlByte b) (h : o.Accepts url scheme rest)
  (hhttp : eqIgnoreCase (url.take 7) (ascii "http://") = true)
  (hversion : o.corrected ≠ .v09) {host : Bytes}

include hurl h hhttp hversion

theorem parseHead_text_of_get (hhost : ∀ b ∈ host, IsLineByte b ∧ b ≠ 0)
    (hget : o.method = .get ∧ o.corrected = .v11) :
    ∃ head, parseHead (o.text url (scheme.length + 3) host) = .complete head [] ∧
      head.url = some (pathPart rest) ∧ head.linger = false ∧
      head.contentLength = 0 := by
  have htarget := requestTarget_requestLine hurl h hhttp hversion
  rw [if_pos hget] at htarget
  have hplain := plain_headers (o := o) hhost
  obtain ⟨hlinger, hlength⟩ := addHeaders_of_plain hplain
    (h := Head.ofRequestLine (o.requestLine url (scheme.length + 3)) (pathPart rest))
    rfl rfl
  refine ⟨_, parseHead_eq_complete_iff.mpr ⟨_, _, _, _, ?_, htarget,
    headerSection_of_plain hplain, rfl, text_eq hversion _ _ _⟩, ?_, hlinger, hlength⟩
  · exact fun b hb => (requestLine_bytes hurl _ b hb).1
  · rw [Head.addHeaders_url]
    rfl

theorem parseHead_text_of_not_get (hget : ¬ (o.method = .get ∧ o.corrected = .v11)) :
    parseHead (o.text url (scheme.length + 3) host) = .bad := by
  have htarget := requestTarget_requestLine hurl h hhttp hversion
  rw [if_neg hget] at htarget
  rw [text_eq hversion]
  exact parseHead_eq_bad_iff.mpr ⟨_, _,
    splitLine_append_crlf (fun b hb => (requestLine_bytes hurl _ b hb).1) _, htarget⟩

end Read

/-! ## The answer of the Proactor -/

theorem corrected_eq_v11_iff (hget : o.method = .get) :
    o.corrected = .v11 ↔ o.http10 = .v11 := by
  simp only [corrected, hget, reduceCtorEq, false_and, if_false]
  split_ifs with hreload
  · have hsmall := hreload.2.2
    revert hsmall
    cases o.http10 <;> decide
  · rfl

/-- What the Proactor has for the URL, as webbench asks for it. -/
def page (o : Options) (fs : FileSystem) (url : Bytes) : Answer :=
  if o.method = .get ∧ o.http10 = .v11 then
    answerFor fs (docRoot ++ (pathPart (url.drop 7)).take targetRoom)
  else HttpConn.refusal

section Answered

variable {b : Built} {fs : FileSystem} (hb : o.buildRequest url = .ok b)
  (hurl : ∀ x ∈ url, IsUrlByte x)
  (hhttp : eqIgnoreCase (url.take 7) (ascii "http://") = true)

include hb hurl hhttp

/-- The URL and the host behind a request that has been built. -/
theorem exists_text :
    ∃ scheme host, o.Accepts url scheme (url.drop 7) ∧ b.http10 = o.corrected ∧
      b.request = o.text url (scheme.length + 3) host ∧
      ∀ x ∈ host, IsLineByte x ∧ x ≠ 0 := by
  obtain ⟨scheme, rest, h, -, -, rfl⟩ := buildRequest_ok_iff.mp hb
  obtain rfl : rest = url.drop 7 := by
    rw [← h.drop_eq, Accepts.length_scheme hhttp h]
  rw [built]
  split_ifs with hproxy
  · refine ⟨scheme, _, h, rfl, rfl, fun x hx => ?_⟩
    have hbyte := hurl x (List.mem_of_mem_drop (mem_of_mem_hostPart hx))
    exact ⟨hbyte.1, hbyte.2.2⟩
  · exact ⟨scheme, [], h, rfl, rfl, by simp⟩

variable (hversion : b.http10 ≠ .v09)
  (hopen : Openable fs (docRoot ++ (pathPart (url.drop 7)).take targetRoom))

include hversion hopen

/-- The Proactor answers, in whatever reads the request reaches it, and closes the
connection behind its answer. -/
theorem firstResponse_eq (conn : HttpConn) {pieces : List Bytes}
    (hpieces : pieces.flatten = b.request) :
    ∃ d header file, conn.init.firstResponse fs pieces = some d ∧
      d.Prepared header file ∧ header ++ file = (o.page fs url).textFor false ∧
      d.parser.linger = false := by
  have hfit : b.request.length ≤ readBufferSize :=
    (length_request_le hb).trans (by decide)
  obtain ⟨scheme, host, h, hcorrected, hrequest, hhost⟩ := exists_text hb hurl hhttp
  have hhttp10 : o.corrected ≠ .v09 := hcorrected ▸ hversion
  have hne : b.request ≠ [] := by
    rw [hrequest, text_eq hhttp10]
    simp [crlf_eq]
  have hpending := HttpConn.pending_init conn hne
  have hall : ([] : List Bytes).flatten ++ pieces.flatten = b.request := hpieces
  by_cases hget : o.method = .get ∧ o.corrected = .v11
  · obtain ⟨head, hhead, hpath, hlinger, hlength⟩ :=
      parseHead_text_of_get hurl h hhttp hhttp10 hhost hget
    rw [← hrequest] at hhead
    have htarget : requestPath b.request =
        docRoot ++ (pathPart (url.drop 7)).take targetRoom := by
      simp [requestPath, servedTarget, hhead, hlength, hpath]
    obtain ⟨d, header, file, hfirst, hprepared, htext, hclose⟩ :=
      hpending.firstResponse_complete hhead hlength hfit hall (htarget ▸ hopen)
    rw [htarget, hlinger] at htext
    rw [hlinger] at hclose
    refine ⟨d, header, file, hfirst, hprepared, ?_, hclose⟩
    rw [page, if_pos ⟨hget.1, (corrected_eq_v11_iff hget.1).mp hget.2⟩, htext]
  · have hbad : parseHead b.request = .bad := by
      rw [hrequest]
      exact parseHead_text_of_not_get hurl h hhttp hhttp10 hget
    obtain ⟨d, hfirst, hprepared, hclose⟩ := hpending.firstResponse_bad hbad hfit hall fs
    refine ⟨d, _, _, hfirst, hprepared, ?_, hclose⟩
    rw [page, if_neg, List.append_nil]
    rintro ⟨hmethod, htwo⟩
    exact hget ⟨hmethod, (corrected_eq_v11_iff hmethod).mpr htwo⟩

end Answered

end Options

/-! ## What webbench counts -/

/-- The counters of `benchcore`, of type `int`. -/
structure Tally where
  speed : ℕ
  failed : ℕ
  bytes : ℕ
  deriving DecidableEq, Repr

/-- `m += n` for an `int`, whose overflow is undefined. -/
def addInt (m n : ℕ) : Option ℕ :=
  if m + n < 2 ^ 31 then some (m + n) else none

namespace Tally

variable (t : Tally)

def succeeded : Option Tally :=
  (addInt t.speed 1).map fun n => { t with speed := n }

def missed : Option Tally :=
  (addInt t.failed 1).map fun n => { t with failed := n }

def received (n : ℕ) : Option Tally :=
  (addInt t.bytes n).map fun n => { t with bytes := n }

end Tally

/-- A round of the loop that reads the answer: the timer has expired, or what `read`
returns. -/
inductive Received where
  | expired
  | failed
  | closed
  | data (n : ℕ)
  deriving DecidableEq, Repr

/-- The loop that reads the answer; whether it is left to close the socket.  It has no
value for rounds that it does not have and where a counter overflows. -/
def readAnswer (t : Tally) : List Received → Option (Bool × Tally)
  | [.expired] | [.closed] => some (true, t)
  | [.failed] => t.missed.map fun t => (false, t)
  | .data n :: rest =>
      if 0 < n ∧ n ≤ 1500 then (t.received n).bind fun t => readAnswer t rest
      else none
  | _ => none

/-- A round of the outer loop: `Socket`, `write` or `shutdown` fails, or the socket
is read and closed. -/
inductive Attempt where
  | unconnected
  | unsent
  | unshut
  | answered (rounds : List Received) (closes : Bool)
  deriving DecidableEq, Repr

def Tally.attempt (http10 : Version) (force : Bool) (t : Tally) : Attempt → Option Tally
  | .unconnected | .unsent => t.missed
  | .unshut => if http10 = .v09 then t.missed else none
  | .answered rounds closes => do
      let (left, t) ←
        if force then (if rounds = [] then some (true, t) else none)
        else readAnswer t rounds
      if left then (if closes then t.succeeded else t.missed) else some t

/-- `benchcore`, up to the expiry of the timer in front of the next attempt. -/
def benchcore (http10 : Version) (force : Bool) (attempts : List Attempt) :
    Option Tally :=
  (attempts.foldlM (Tally.attempt http10 force) ⟨0, 0, 0⟩).map fun t =>
    if 0 < t.failed then { t with failed := t.failed - 1 } else t

theorem addInt_of_lt {m n : ℕ} (h : m + n < 2 ^ 31) : addInt m n = some (m + n) :=
  if_pos h

theorem addInt_of_le {m n : ℕ} (h : 2 ^ 31 ≤ m + n) : addInt m n = none :=
  if_neg (not_lt.mpr h)

theorem readAnswer_data {chunks : List ℕ} (hchunks : ∀ n ∈ chunks, 0 < n ∧ n ≤ 1500)
    {t : Tally} (ht : t.bytes < 2 ^ 31) :
    readAnswer t (chunks.map .data ++ [.closed]) =
      if t.bytes + chunks.sum < 2 ^ 31 then
        some (true, { t with bytes := t.bytes + chunks.sum })
      else none := by
  induction chunks generalizing t with
  | nil => exact (if_pos ht).symm
  | cons n chunks ih =>
      obtain ⟨hn, hchunks⟩ := List.forall_mem_cons.mp hchunks
      rw [List.map_cons, List.cons_append, readAnswer, if_pos hn, List.sum_cons,
        ← Nat.add_assoc, Tally.received]
      by_cases hfit : t.bytes + n < 2 ^ 31
      · have hrest := @ih hchunks { t with bytes := t.bytes + n } hfit
        rw [addInt_of_lt hfit]
        exact hrest
      · rw [addInt_of_le (not_lt.mp hfit), if_neg (by omega)]
        rfl

/-! ## A benchmark of the Proactor -/

/-- One attempt against the Proactor: the reads in which the request reaches it, the
`writev` calls for the answer, and the sizes of the reads of the client. -/
structure Visit where
  pieces : List Bytes
  calls : List (List HttpConn.WritevOutcome)
  chunks : List ℕ

/-- The client reads to the end of the stream. -/
def Visit.attempt (v : Visit) : Attempt :=
  .answered (v.chunks.map .data ++ [.closed]) true

/-- The request arrives, each `writev` accepts nothing or everything of the answer,
and the client reads what has been put on the socket. -/
structure Visit.Delivers (v : Visit) (fs : FileSystem) (conn : HttpConn)
    (request answer : Bytes) : Prop where
  pieces : v.pieces.flatten = request
  accepted : ∀ outcomes ∈ v.calls, ∀ n, .accepted n ∈ outcomes →
    n = 0 ∨ answer.length ≤ min n HttpConn.maxRwCount
  reads : ∀ n ∈ v.chunks, 0 < n ∧ n ≤ 1500
  whole : ∃ d wire e, conn.init.firstResponse fs v.pieces = some d ∧
    d.respond v.calls = some (wire, e) ∧ v.chunks.sum = wire.length

/-- An answer that is read to its end is a success. -/
theorem attempt_eq {http10 : Version} {v : Visit} {t : Tally}
    (hchunks : ∀ k ∈ v.chunks, 0 < k ∧ k ≤ 1500) (ht : t.bytes < 2 ^ 31)
    (hspeed : t.speed ≤ t.bytes) (hpos : 0 < v.chunks.sum) :
    t.attempt http10 false v.attempt =
      if t.bytes + v.chunks.sum < 2 ^ 31 then
        some { t with speed := t.speed + 1, bytes := t.bytes + v.chunks.sum }
      else none := by
  simp only [Tally.attempt, Visit.attempt, Bool.false_eq_true, if_false,
    readAnswer_data hchunks ht]
  by_cases hfit : t.bytes + v.chunks.sum < 2 ^ 31
  · have hroom : t.speed + 1 < 2 ^ 31 := by omega
    simp only [if_pos hfit, Option.bind_eq_bind, Option.bind_some, Tally.succeeded,
      addInt_of_lt hroom, if_true, Option.map_some]
  · simp only [if_neg hfit]
    rfl

/-- The counters stand for as long as the bytes of all visits fit an `int`. -/
theorem foldlM_attempt {http10 : Version} {n : ℕ} (hn : 0 < n) {visits : List Visit}
    (hvisits : ∀ v ∈ visits, (∀ k ∈ v.chunks, 0 < k ∧ k ≤ 1500) ∧ v.chunks.sum = n)
    {t : Tally} (ht : t.bytes < 2 ^ 31) (hspeed : t.speed ≤ t.bytes) :
    (visits.map Visit.attempt).foldlM (Tally.attempt http10 false) t =
      if t.bytes + visits.length * n < 2 ^ 31 then
        some { t with
          speed := t.speed + visits.length
          bytes := t.bytes + visits.length * n }
      else none := by
  induction visits generalizing t with
  | nil => simpa using ht
  | cons v visits ih =>
      obtain ⟨⟨hchunks, hsum⟩, hvisits⟩ := List.forall_mem_cons.mp hvisits
      have htotal : t.bytes + (visits.length + 1) * n =
          t.bytes + n + visits.length * n := by
        rw [Nat.succ_mul]
        omega
      rw [List.map_cons, List.foldlM_cons, List.length_cons, htotal,
        attempt_eq hchunks ht hspeed (hsum ▸ hn), hsum]
      by_cases hfit : t.bytes + n < 2 ^ 31
      · have hspeed' : t.speed + 1 ≤ t.bytes + n := by omega
        rw [if_pos hfit, Option.bind_eq_bind, Option.bind_some, ih hvisits hfit hspeed',
          Nat.add_right_comm t.speed, ← Nat.add_assoc]
      · rw [if_neg hfit, if_neg (by omega)]
        rfl

theorem length_textFor_pos (a : Answer) (linger : Bool) :
    0 < (a.textFor linger).length := by
  have htype : 0 < contentTypeText.length := by
    decide
  simp only [Answer.textFor, headerText, List.length_append]
  omega

section Counted

variable {o : Options} {url : Bytes} {b : Built} {fs : FileSystem}
  (hb : o.buildRequest url = .ok b) (hurl : ∀ x ∈ url, IsUrlByte x)
  (hhttp : eqIgnoreCase (url.take 7) (ascii "http://") = true)
  (hversion : b.http10 ≠ .v09)
  (hopen : Openable fs (docRoot ++ (pathPart (url.drop 7)).take targetRoom))

include hb hurl hhttp hversion hopen

theorem Visit.Delivers.respond_eq {v : Visit} {conn : HttpConn}
    (hv : v.Delivers fs conn b.request ((o.page fs url).textFor false)) :
    (∃ d e, conn.init.firstResponse fs v.pieces = some d ∧
      d.respond v.calls = some ((o.page fs url).textFor false, e) ∧
      d.parser.linger = false) ∧
    v.chunks.sum = ((o.page fs url).textFor false).length := by
  obtain ⟨d, wire, e, hfirst, hrespond, hsum⟩ := hv.whole
  obtain ⟨d', header, file, hfirst', hprepared, htext, hclose⟩ :=
    Options.firstResponse_eq hb hurl hhttp hversion hopen conn hv.pieces
  obtain rfl : d = d' := Option.some.inj (hfirst.symm.trans hfirst')
  have haccepted := hv.accepted
  rw [← htext] at haccepted
  obtain ⟨rfl, -⟩ := hprepared.wire_eq hrespond haccepted
  rw [htext] at hrespond hsum
  exact ⟨⟨d, e, hfirst, hrespond, hclose⟩, hsum⟩

end Counted

/-! ### Two visits -/

def pageOptions : Options :=
  { Options.initial with http10 := .v11 }

def pageUrl : Bytes := ascii "http://h:80/"

def pageRequest : Bytes := ascii
  "GET / HTTP/1.1\r\nUser-Agent: WebBench 1.5\r\nHost: h\r\nConnection: close\r\n\r\n"

def pageVisit : Visit :=
  ⟨[pageRequest.take 20, pageRequest.drop 20], [[.eagain], [.accepted 1000]], [50, 34]⟩

theorem buildRequest_pageUrl :
    pageOptions.buildRequest pageUrl = .ok ⟨ascii "h", 80, pageRequest, .v11⟩ := by
  decide +kernel

theorem isUrlByte_pageUrl : ∀ x ∈ pageUrl, IsUrlByte x := by
  decide +kernel

theorem http_pageUrl : eqIgnoreCase (pageUrl.take 7) (ascii "http://") = true := by
  decide +kernel

theorem openable_pageUrl : Openable HttpConn.smallSite
    (docRoot ++ (pathPart (pageUrl.drop 7)).take targetRoom) := by
  have hpath : docRoot ++ (pathPart (pageUrl.drop 7)).take targetRoom =
      ascii "./resources/" := by
    decide +kernel
  rw [hpath]
  exact HttpConn.openable_smallSite

theorem length_page :
    ((pageOptions.page HttpConn.smallSite pageUrl).textFor false).length = 84 := by
  decide +kernel

theorem delivers_pageVisit :
    pageVisit.Delivers HttpConn.smallSite HttpConn.blank pageRequest
      ((pageOptions.page HttpConn.smallSite pageUrl).textFor false) := by
  have hpieces : pageVisit.pieces.flatten = pageRequest := by
    decide +kernel
  obtain ⟨d, header, file, hfirst, hprepared, htext, -⟩ :=
    Options.firstResponse_eq buildRequest_pageUrl isUrlByte_pageUrl http_pageUrl
      (by decide) openable_pageUrl HttpConn.blank hpieces
  have hroom : (header ++ file).length ≤ min 1000 HttpConn.maxRwCount := by
    rw [htext, length_page]
    decide
  have haccepted : ∀ outcomes ∈ pageVisit.calls, ∀ n, .accepted n ∈ outcomes →
      n = 0 ∨ (header ++ file).length ≤ min n HttpConn.maxRwCount := by
    intro outcomes houtcomes n hn
    simp only [pageVisit, List.mem_cons, List.not_mem_nil, or_false] at houtcomes
    rcases houtcomes with rfl | rfl
    · simp at hn
    · obtain rfl : n = 1000 := by simpa using hn
      exact .inr hroom
  obtain ⟨⟨wire, e⟩, hrespond⟩ := hprepared.exists_respond hroom 1
  obtain ⟨rfl, -⟩ := hprepared.wire_eq hrespond haccepted
  refine ⟨hpieces, htext ▸ haccepted, by decide, d, _, e, hfirst, hrespond, ?_⟩
  rw [htext, length_page]
  decide

end BackendLab.Webbench
