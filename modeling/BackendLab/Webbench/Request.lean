import BackendLab.Support.CString
import Mathlib

/-!
# The requests of webbench

`build_request` of `webbench.c`, which puts one request together from the options
and the URL on the command line.  Its three buffers have fixed sizes, and only the
length of the whole URL is tested.
-/

namespace BackendLab.Webbench

open Support

def requestSize : ℕ := 2048

/-- `MAXHOSTNAMELEN`. -/
def hostSize : ℕ := 64

/-- The size of `tmp`, which the port is copied to. -/
def portSize : ℕ := 10

def maxUrlLength : ℕ := 1500

def slash : UInt8 := 47
def colon : UInt8 := 58

inductive Method where
  | get | head | options | trace
  deriving DecidableEq, Repr

def Method.name : Method → Bytes
  | .get => ascii "GET"
  | .head => ascii "HEAD"
  | .options => ascii "OPTIONS"
  | .trace => ascii "TRACE"

/-- The values of `http10`. -/
inductive Version where
  | v09 | v10 | v11
  deriving DecidableEq, Repr

def Version.number : Version → ℕ
  | .v09 => 0
  | .v10 => 1
  | .v11 => 2

/-- The global variables that the command line sets. -/
structure Options where
  http10 : Version
  method : Method
  forceReload : Bool
  proxyhost : Option Bytes
  proxyport : ℤ
  deriving DecidableEq, Repr

/-- The values of these variables before the command line is read. -/
def Options.initial : Options :=
  ⟨.v10, .get, false, none, 80⟩

/-- The ways in which `build_request` does not come to its end: four messages, each
followed by `exit(2)`, a copy that goes beyond its array, and the read of a string
that does not end in its array. -/
inductive Failure where
  | notValidUrl
  | urlTooLong
  | onlyHttp
  | hostNotEnded
  | overrun
  | overread
  deriving DecidableEq, Repr

/-- What `build_request` leaves in the global variables.  A `host` of `hostSize`
bytes has no NUL behind it. -/
structure Built where
  host : Bytes
  proxyport : ℤ
  request : Bytes
  http10 : Version
  deriving DecidableEq, Repr

/-! ## String functions -/

/-- `strstr`, as an offset into `s`. -/
def strstr (s needle : Bytes) : Option ℕ :=
  (List.range (s.length + 1)).find? fun k => needle.isPrefixOf (s.drop k)

/-- `strcspn`; where the character is known to be there, also the offset that
`strchr` and `index` find. -/
def strcspn (s : Bytes) (c : UInt8) : ℕ :=
  (s.takeWhile (· ≠ c)).length

/-- What `strncpy(_, s, n)` puts into an array of this size that `bzero` has cleared.
Only a cleared byte behind it ends it as a string. -/
def strncpy (size : ℕ) (s : Bytes) (n : ℕ) : Except Failure Bytes :=
  if n ≤ size then .ok (s.take n) else .error .overrun

/-- What `atoi(s)` leaves unread behind white space, a sign and digits. -/
def unread (s : Bytes) : Bytes :=
  match s.dropWhile isSpace with
  | [] => []
  | b :: t => (if b = 45 ∨ b = 43 then t else b :: t).dropWhile isDigit

/-- `atoi` of what has been put into an array of this size.  With the array full and
no byte left unread it goes on behind the array. -/
def atoi (size : ℕ) (s : Bytes) : Except Failure ℤ :=
  if s.length < size ∨ unread s ≠ [] then .ok (toInt32 (atol s)) else .error .overread

/-- `strcat(request, s)`. -/
def strcat (request s : Bytes) : Except Failure Bytes :=
  if request.length + s.length < requestSize then .ok (request ++ s)
  else .error .overrun

def strcats (request : Bytes) (ss : List Bytes) : Except Failure Bytes :=
  ss.foldlM strcat request

/-! ## Building a request -/

namespace Options

variable (o : Options)

/-- The four corrections of `http10`. -/
def corrected : Version :=
  let v :=
    if o.forceReload ∧ o.proxyhost ≠ none ∧ o.http10.number < 1 then .v10
    else o.http10
  let v := if o.method = .head ∧ v.number < 1 then .v10 else v
  let v := if o.method = .options ∧ v.number < 2 then .v11 else v
  if o.method = .trace ∧ v.number < 2 then .v11 else v

/-- The tests of the URL.  The offset is that of the host. -/
def hostOffset (url : Bytes) : Except Failure ℕ :=
  match strstr url (ascii "://") with
  | none => .error .notValidUrl
  | some k =>
      if maxUrlLength < url.length then .error .urlTooLong
      else if o.proxyhost = none ∧ ¬ eqIgnoreCase (url.take 7) (ascii "http://") then
        .error .onlyHttp
      else if slash ∉ url.drop (k + 3) then .error .hostNotEnded
      else .ok (k + 3)

/-- `host` and `proxyport`, from the URL behind its scheme. -/
def address (url : Bytes) : Except Failure (Bytes × ℤ) :=
  if o.proxyhost ≠ none then .ok ([], o.proxyport)
  else if colon ∈ url ∧ strcspn url colon < strcspn url slash then do
    let host ← strncpy hostSize url (strcspn url colon)
    let tmp ← strncpy portSize (url.drop (strcspn url colon + 1))
      (strcspn url slash - strcspn url colon - 1)
    let port ← atoi portSize tmp
    .ok (host, if port = 0 then 80 else port)
  else do
    let host ← strncpy hostSize url (strcspn url slash)
    .ok (host, o.proxyport)

/-- What stands for the target in the request. -/
def target (url : Bytes) (i : ℕ) : Bytes :=
  if o.proxyhost = none then (url.drop i).drop (strcspn (url.drop i) slash) else url

/-- `host`, which is read as a string behind `Host: ` and not without that line. -/
def hostString (http10 : Version) (host : Bytes) : Except Failure Bytes :=
  if o.proxyhost = none ∧ 0 < http10.number ∧ ¬ host.length < hostSize then
    .error .overread
  else .ok host

/-- What is appended behind the target. -/
def trailer (http10 : Version) (host : Bytes) : List Bytes :=
  (if http10.number = 1 then [ascii " HTTP/1.0"]
    else if http10.number = 2 then [ascii " HTTP/1.1"] else []) ++
  [ascii "\r\n"] ++
  (if 0 < http10.number then [ascii "User-Agent: WebBench 1.5\r\n"] else []) ++
  (if o.proxyhost = none ∧ 0 < http10.number then
    [ascii "Host: ", host, ascii "\r\n"] else []) ++
  (if o.forceReload ∧ o.proxyhost ≠ none then [ascii "Pragma: no-cache\r\n"]
    else []) ++
  (if 1 < http10.number then [ascii "Connection: close\r\n"] else []) ++
  (if 0 < http10.number then [ascii "\r\n"] else [])

/-- `build_request(url)`. -/
def buildRequest (url : Bytes) : Except Failure Built := do
  let http10 := o.corrected
  let request ← strcats [] [o.method.name, ascii " "]
  let i ← o.hostOffset url
  let (host, proxyport) ← o.address (url.drop i)
  let request ← strcat request (o.target url i)
  let name ← o.hostString http10 host
  let request ← strcats request (o.trailer http10 name)
  .ok ⟨host, proxyport, request, http10⟩

end Options

/-! ## The parts of a URL -/

/-- What stands in front of the path in a URL without its scheme. -/
def authority (url : Bytes) : Bytes :=
  url.takeWhile (· ≠ slash)

def hostPart (url : Bytes) : Bytes :=
  (authority url).takeWhile (· ≠ colon)

def portPart (url : Bytes) : Bytes :=
  ((authority url).dropWhile (· ≠ colon)).tail

def pathPart (url : Bytes) : Bytes :=
  url.dropWhile (· ≠ slash)

section Strings

variable {s t : Bytes} {c : UInt8}

theorem decide_ne_of_notMem (h : c ∉ s) : ∀ b ∈ s, decide (b ≠ c) = true := by
  intro b hb
  simpa using ne_of_mem_of_not_mem hb h

theorem takeWhile_ne (h : c ∉ s) (t : Bytes) :
    (s ++ c :: t).takeWhile (· ≠ c) = s := by
  rw [List.takeWhile_append_of_pos (decide_ne_of_notMem h),
    List.takeWhile_cons_of_neg (by simp), List.append_nil]

theorem dropWhile_ne (h : c ∉ s) (t : Bytes) :
    (s ++ c :: t).dropWhile (· ≠ c) = c :: t := by
  rw [List.dropWhile_append_of_pos (decide_ne_of_notMem h),
    List.dropWhile_cons_of_neg (by simp)]

theorem strcspn_append (h : c ∉ s) (t : Bytes) :
    strcspn (s ++ c :: t) c = s.length := by
  rw [strcspn, takeWhile_ne h]

theorem le_strcspn_append (h : c ∉ s) (t : Bytes) :
    s.length ≤ strcspn (s ++ t) c := by
  rw [strcspn, List.takeWhile_append_of_pos (decide_ne_of_notMem h), List.length_append]
  exact Nat.le_add_right _ _

end Strings

section Parts

variable {a t : Bytes} (ha : slash ∉ a)

include ha

theorem authority_append : authority (a ++ slash :: t) = a :=
  takeWhile_ne ha t

theorem pathPart_append : pathPart (a ++ slash :: t) = slash :: t :=
  dropWhile_ne ha t

theorem hostPart_of_notMem (hcolon : colon ∉ a) :
    hostPart (a ++ slash :: t) = a := by
  rw [hostPart, authority_append ha,
    List.takeWhile_eq_self_iff.mpr (decide_ne_of_notMem hcolon)]

theorem portPart_of_notMem (hcolon : colon ∉ a) :
    portPart (a ++ slash :: t) = [] := by
  rw [portPart, authority_append ha,
    List.dropWhile_eq_nil_iff.mpr (decide_ne_of_notMem hcolon), List.tail_nil]

end Parts

section Ports

variable {host port t : Bytes} (hhost : colon ∉ host)
  (hslash : slash ∉ host ++ colon :: port)

include hhost hslash

theorem hostPart_append :
    hostPart (host ++ colon :: port ++ slash :: t) = host := by
  rw [hostPart, authority_append hslash, takeWhile_ne hhost]

theorem portPart_append :
    portPart (host ++ colon :: port ++ slash :: t) = port := by
  rw [portPart, authority_append hslash, dropWhile_ne hhost, List.tail_cons]

end Ports

/-! ## Where the buffers end -/

namespace Options

variable {o : Options} {url : Bytes} {i : ℕ}

/-- The port that is connected to. -/
def port (o : Options) (url : Bytes) : ℤ :=
  if colon ∈ authority url then
    if toInt32 (atol (portPart url)) = 0 then 80 else toInt32 (atol (portPart url))
  else o.proxyport

/-- The host and the port of a URL fit into their arrays. -/
def Fits (o : Options) (rest : Bytes) : Prop :=
  o.proxyhost = none →
    (hostPart rest).length ≤ hostSize ∧ (portPart rest).length ≤ portSize

/-- `atoi` stops within `tmp`. -/
def PortEnds (rest : Bytes) : Prop :=
  (portPart rest).length < portSize ∨ unread (portPart rest) ≠ []

instance (rest : Bytes) : Decidable (PortEnds rest) :=
  inferInstanceAs (Decidable (_ ∨ _))

theorem address_of_portPart {host port t : Bytes} (hproxy : o.proxyhost = none)
    (hhost : colon ∉ host) (hslash : slash ∉ host ++ colon :: port) :
    o.address (host ++ colon :: port ++ slash :: t) = (do
      let copied ← strncpy hostSize host host.length
      let tmp ← strncpy portSize port port.length
      let number ← atoi portSize tmp
      .ok (copied, if number = 0 then 80 else number)) := by
  have hwhole : host ++ colon :: port ++ slash :: t =
      host ++ colon :: (port ++ slash :: t) := by
    rw [List.append_assoc, List.cons_append]
  have hat : strcspn (host ++ colon :: port ++ slash :: t) colon = host.length := by
    rw [hwhole, strcspn_append hhost]
  have hstop : strcspn (host ++ colon :: port ++ slash :: t) slash =
      (host ++ colon :: port).length := strcspn_append hslash t
  have hlt : host.length < (host ++ colon :: port).length := by
    simp
  have hmem : colon ∈ host ++ colon :: port ++ slash :: t := by
    simp
  have hcopy : strncpy hostSize (host ++ colon :: port ++ slash :: t) host.length =
      strncpy hostSize host host.length := by
    rw [hwhole, strncpy, strncpy, List.take_left, List.take_length]
  have hrest : (host ++ colon :: port ++ slash :: t).drop (host.length + 1) =
      port ++ slash :: t := by
    rw [hwhole, ← List.drop_drop, List.drop_left, List.drop_one, List.tail_cons]
  have hlen : (host ++ colon :: port).length - host.length - 1 = port.length := by
    simp only [List.length_append, List.length_cons]
    omega
  have htmp : strncpy portSize (port ++ slash :: t) port.length =
      strncpy portSize port port.length := by
    rw [strncpy, strncpy, List.take_left, List.take_length]
  rw [address, if_neg (not_not.mpr hproxy), hat, hstop, if_pos ⟨hmem, hlt⟩, hrest, hlen,
    hcopy, htmp]

theorem address_of_no_colon {a t : Bytes} (hproxy : o.proxyhost = none)
    (hslash : slash ∉ a) (hcolon : colon ∉ a) :
    o.address (a ++ slash :: t) = (do
      let copied ← strncpy hostSize a a.length
      .ok (copied, o.proxyport)) := by
  have hstop : strcspn (a ++ slash :: t) slash = a.length := strcspn_append hslash t
  have hnot : ¬ strcspn (a ++ slash :: t) colon < strcspn (a ++ slash :: t) slash := by
    rw [hstop]
    exact not_lt.mpr (le_strcspn_append hcolon _)
  have hcopy : strncpy hostSize (a ++ slash :: t) a.length =
      strncpy hostSize a a.length := by
    rw [strncpy, strncpy, List.take_left, List.take_length]
  rw [address, if_neg (not_not.mpr hproxy), if_neg (fun h => hnot h.2), hstop, hcopy]

/-- The host and the port are the parts of the URL, if they fit and end. -/
theorem address_eq (o : Options) (hslash : slash ∈ url) (hproxy : o.proxyhost = none) :
    o.address url =
      if (hostPart url).length ≤ hostSize ∧ (portPart url).length ≤ portSize then
        if PortEnds url then .ok (hostPart url, o.port url) else .error .overread
      else .error .overrun := by
  obtain ⟨a, t, rfl, ha⟩ := List.eq_append_cons_of_mem hslash
  by_cases hcolon : colon ∈ a
  · obtain ⟨host, port, rfl, hhost⟩ := List.eq_append_cons_of_mem hcolon
    have hport : o.port (host ++ colon :: port ++ slash :: t) =
        if toInt32 (atol port) = 0 then 80 else toInt32 (atol port) := by
      rw [Options.port, authority_append ha, if_pos hcolon, portPart_append hhost ha]
    have hiff : PortEnds (host ++ colon :: port ++ slash :: t) ↔
        port.length < portSize ∨ unread port ≠ [] := by
      rw [PortEnds, portPart_append hhost ha]
    rw [address_of_portPart hproxy hhost ha, hport, hostPart_append hhost ha,
      portPart_append hhost ha]
    simp only [strncpy, atoi, List.take_length]
    by_cases hfits : host.length ≤ hostSize
    · by_cases hfits' : port.length ≤ portSize
      · rw [if_pos hfits, if_pos hfits', if_pos ⟨hfits, hfits'⟩]
        by_cases hends : port.length < portSize ∨ unread port ≠ []
        · simp only [if_pos hends, if_pos (hiff.mpr hends), Bind.bind, Except.bind]
        · simp only [if_neg hends, if_neg (mt hiff.mp hends), Bind.bind, Except.bind]
      · rw [if_pos hfits, if_neg hfits', if_neg (fun h : _ ∧ _ => hfits' h.2)]
        rfl
    · rw [if_neg hfits, if_neg (fun h : _ ∧ _ => hfits h.1)]
      rfl
  · have hport : o.port (a ++ slash :: t) = o.proxyport := by
      rw [Options.port, authority_append ha, if_neg hcolon]
    have hempty : ([] : Bytes).length ≤ portSize := by decide
    have hends : PortEnds (a ++ slash :: t) := by
      rw [PortEnds, portPart_of_notMem ha hcolon]
      exact .inl (by decide)
    rw [address_of_no_colon hproxy ha hcolon, hport, if_pos hends,
      hostPart_of_notMem ha hcolon, portPart_of_notMem ha hcolon, strncpy,
      List.take_length]
    by_cases hfits : a.length ≤ hostSize
    · rw [if_pos hfits, if_pos ⟨hfits, hempty⟩]
      rfl
    · rw [if_neg hfits, if_neg (fun h => hfits h.1)]
      rfl

theorem address_of_proxy (url : Bytes) (hproxy : o.proxyhost ≠ none) :
    o.address url = .ok ([], o.proxyport) := by
  rw [address, if_pos hproxy]

/-- A URL that passes the tests. -/
theorem hostOffset_eq_ok_iff :
    o.hostOffset url = .ok i ↔
      (∃ k, strstr url (ascii "://") = some k ∧ i = k + 3) ∧
      url.length ≤ maxUrlLength ∧
      (o.proxyhost = none → eqIgnoreCase (url.take 7) (ascii "http://") = true) ∧
      slash ∈ url.drop i := by
  unfold hostOffset
  cases hfind : strstr url (ascii "://") with
  | none => simp
  | some k =>
      simp only [Option.some.injEq, exists_eq_left']
      split_ifs with hlong hhttp hslash
      · simp [not_le.mpr hlong]
      · obtain ⟨hproxy, hother⟩ := hhttp
        simp [hproxy, hother]
      · simp only [Except.ok.injEq]
        constructor
        · rintro rfl
          refine ⟨rfl, not_lt.mp hlong, fun hproxy => ?_, hslash⟩
          by_contra hother
          exact hhttp ⟨hproxy, hother⟩
        · rintro ⟨rfl, -⟩
          rfl
      · simp only [false_iff]
        rintro ⟨rfl, -, -, hmem⟩
        exact hslash hmem

/-- The tests of the URL keep within the arrays. -/
theorem ne_of_hostOffset {f : Failure} (h : o.hostOffset url = .error f) :
    f ≠ .overrun ∧ f ≠ .overread := by
  unfold hostOffset at h
  repeat' split at h
  all_goals cases h
  all_goals decide

/-- The text of the request. -/
def text (o : Options) (url : Bytes) (i : ℕ) (host : Bytes) : Bytes :=
  o.method.name ++ ascii " " ++ o.target url i ++ (o.trailer o.corrected host).flatten

theorem strcats_eq {request : Bytes} {ss : List Bytes}
    (h : request.length + ss.flatten.length < requestSize) :
    strcats request ss = .ok (request ++ ss.flatten) := by
  induction ss generalizing request with
  | nil => simp [strcats, pure, Except.pure]
  | cons s ss ih =>
      rw [List.flatten_cons, List.length_append] at h
      have hfirst : strcat request s = .ok (request ++ s) := by
        rw [strcat, if_pos (by omega)]
      have hrest := @ih (request ++ s) (by rw [List.length_append]; omega)
      rw [strcats] at hrest
      rw [strcats, List.foldlM_cons, hfirst, List.flatten_cons, ← List.append_assoc]
      exact hrest

theorem length_name_le (m : Method) : m.name.length ≤ 7 := by
  cases m <;> decide

theorem length_trailer_le (o : Options) (http10 : Version) (host : Bytes) :
    (o.trailer http10 host).flatten.length ≤
      84 + (if o.proxyhost = none then host.length else 0) := by
  have hversion : (if http10.number = 1 then [ascii " HTTP/1.0"]
      else if http10.number = 2 then [ascii " HTTP/1.1"] else []).flatten.length ≤ 9 := by
    cases http10 <;> decide
  have hagent : (if 0 < http10.number then
      [ascii "User-Agent: WebBench 1.5\r\n"] else []).flatten.length ≤ 26 := by
    cases http10 <;> decide
  have hpragma : (if o.forceReload ∧ o.proxyhost ≠ none then
      [ascii "Pragma: no-cache\r\n"] else []).flatten.length ≤ 18 := by
    split_ifs <;> decide
  have hclose : (if 1 < http10.number then
      [ascii "Connection: close\r\n"] else []).flatten.length ≤ 19 := by
    cases http10 <;> decide
  have hblank : (if 0 < http10.number then [ascii "\r\n"] else []).flatten.length ≤ 2 := by
    cases http10 <;> decide
  have hhost : (if o.proxyhost = none ∧ 0 < http10.number then
      [ascii "Host: ", host, ascii "\r\n"] else []).flatten.length ≤
        8 + (if o.proxyhost = none then host.length else 0) := by
    have hsix : (ascii "Host: ").length = 6 := by decide
    have htwo : (ascii "\r\n").length = 2 := by decide
    split_ifs with h hproxy
    · simp only [List.flatten_cons, List.flatten_nil, List.length_append, hsix, htwo,
        List.length_nil]
      omega
    · exact absurd h.1 hproxy
    all_goals simp
  have htwo : [ascii "\r\n"].flatten.length = 2 := by decide
  simp only [trailer, List.flatten_append, List.length_append]
  omega

/-- The host and the path are in the URL one behind the other. -/
theorem length_target_le {host : Bytes} {port : ℤ}
    (hi : o.hostOffset url = .ok i)
    (haddress : o.address (url.drop i) = .ok (host, port)) :
    (o.target url i).length + (if o.proxyhost = none then host.length else 0) ≤
      maxUrlLength := by
  obtain ⟨-, hlength, -, hslash⟩ := hostOffset_eq_ok_iff.mp hi
  by_cases hproxy : o.proxyhost = none
  · rw [address_eq o hslash hproxy] at haddress
    split_ifs at haddress with hfits hends
    obtain ⟨rfl, -⟩ := Prod.mk.inj (Except.ok.inj haddress)
    have hpart : (hostPart (url.drop i)).length ≤ strcspn (url.drop i) slash :=
      (List.takeWhile_sublist _).length_le
    have hstop : strcspn (url.drop i) slash ≤ (url.drop i).length :=
      (List.takeWhile_sublist _).length_le
    rw [target, if_pos hproxy, if_pos hproxy, List.length_drop]
    rw [List.length_drop] at hstop ⊢
    omega
  · rw [target, if_neg hproxy, if_neg hproxy]
    omega

/-- The buffer `request` is never filled. -/
theorem length_text_le {host : Bytes} {port : ℤ} (hi : o.hostOffset url = .ok i)
    (haddress : o.address (url.drop i) = .ok (host, port)) :
    (o.text url i host).length ≤ 1592 := by
  have hname := length_name_le o.method
  have htarget := length_target_le hi haddress
  have htrailer := length_trailer_le o o.corrected host
  have hmax : maxUrlLength = 1500 := rfl
  have hblank : (ascii " ").length = 1 := by decide
  simp only [text, List.length_append, hblank]
  omega

theorem strcats_name (m : Method) :
    strcats [] [m.name, ascii " "] = .ok (m.name ++ ascii " ") := by
  cases m <;> decide

theorem buildRequest_of_error {f : Failure} (hi : o.hostOffset url = .error f) :
    o.buildRequest url = .error f := by
  simp only [buildRequest, strcats_name, hi, Bind.bind, Except.bind]

theorem hostString_eq_ok_iff {http10 : Version} {host name : Bytes} :
    o.hostString http10 host = .ok name ↔
      name = host ∧ (o.proxyhost = none → host.length < hostSize ∨ http10 = .v09) := by
  have hzero : 0 < http10.number ↔ http10 ≠ .v09 := by
    cases http10 <;> decide
  unfold hostString
  simp only [hzero]
  split_ifs with h
  · simp only [false_iff, not_and]
    intro _ hread
    exact (hread h.1).elim h.2.2 h.2.1
  · simp only [Except.ok.injEq, eq_comm (a := host)]
    refine ⟨fun hname => ⟨hname, fun hproxy => ?_⟩, And.left⟩
    by_contra hread
    rw [not_or] at hread
    exact h ⟨hproxy, hread.2, hread.1⟩

theorem hostString_eq_error {http10 : Version} {host : Bytes} {f : Failure}
    (h : o.hostString http10 host = .error f) : f = .overread := by
  unfold hostString at h
  split_ifs at h
  exact (Except.error.inj h).symm

/-- Behind the tests of the URL only the host and the port can go wrong. -/
theorem buildRequest_eq (hi : o.hostOffset url = .ok i) :
    o.buildRequest url = (do
      let a ← o.address (url.drop i)
      let name ← o.hostString o.corrected a.1
      .ok ⟨a.1, a.2, o.text url i name, o.corrected⟩) := by
  have hsize : requestSize = 2048 := rfl
  simp only [buildRequest, strcats_name, hi, Bind.bind, Except.bind]
  cases haddress : o.address (url.drop i) with
  | error f => rfl
  | ok a =>
      obtain ⟨host, port⟩ := a
      have hlength := length_text_le hi haddress
      have htarget : strcat (o.method.name ++ ascii " ") (o.target url i) =
          .ok (o.method.name ++ ascii " " ++ o.target url i) := by
        simp only [text, List.length_append] at hlength
        rw [strcat, if_pos (by rw [List.length_append]; omega)]
      simp only [htarget]
      cases hname : o.hostString o.corrected host with
      | error f => rfl
      | ok name =>
          obtain ⟨rfl, -⟩ := hostString_eq_ok_iff.mp hname
          have htrailer := @strcats_eq (o.method.name ++ ascii " " ++ o.target url i)
            (o.trailer o.corrected name) (by
              simp only [text, List.length_append] at hlength ⊢
              omega)
          simp only [htrailer]
          rfl

/-! ## Which URLs are accepted -/

/-- The URL passes the tests of `build_request`, and `rest` follows its first
`://`. -/
structure Accepts (o : Options) (url scheme rest : Bytes) : Prop where
  text : url = scheme ++ ascii "://" ++ rest
  first : ∀ k < scheme.length, ¬ ascii "://" <+: url.drop k
  length : url.length ≤ maxUrlLength
  http : o.proxyhost = none → eqIgnoreCase (url.take 7) (ascii "http://") = true
  slash : slash ∈ rest

theorem strstr_eq_some_iff {s needle : Bytes} {k : ℕ} :
    strstr s needle = some k ↔
      needle <+: s.drop k ∧ k ≤ s.length ∧ ∀ j < k, ¬ needle <+: s.drop j := by
  rw [strstr, List.find?_range_eq_some]
  simp only [List.isPrefixOf_iff_prefix, List.mem_range, Nat.lt_succ_iff,
    Bool.not_eq_true', ← Bool.not_eq_true]

theorem hostOffset_iff_accepts :
    o.hostOffset url = .ok i ↔
      ∃ scheme rest, o.Accepts url scheme rest ∧ i = scheme.length + 3 := by
  have hthree : (ascii "://").length = 3 := by decide
  rw [hostOffset_eq_ok_iff]
  constructor
  · rintro ⟨⟨k, hfind, rfl⟩, hlength, hhttp, hslash⟩
    obtain ⟨⟨rest, hrest⟩, hk, hfirst⟩ := strstr_eq_some_iff.mp hfind
    have hscheme : (url.take k).length = k := by
      rw [List.length_take]
      omega
    have htext : url = url.take k ++ ascii "://" ++ rest := by
      rw [List.append_assoc, hrest, List.take_append_drop]
    have hdrop : url.drop (k + 3) = rest := by
      rw [← List.drop_drop, ← hrest]
      exact List.drop_left' hthree
    refine ⟨url.take k, rest, ⟨htext, ?_, hlength, hhttp, hdrop ▸ hslash⟩, ?_⟩
    · rwa [hscheme]
    · rw [hscheme]
  · rintro ⟨scheme, rest, h, rfl⟩
    have hdrop : url.drop scheme.length = ascii "://" ++ rest := by
      rw [h.text, List.append_assoc, List.drop_left]
    have hrest : url.drop (scheme.length + 3) = rest := by
      rw [← List.drop_drop, hdrop]
      exact List.drop_left' hthree
    refine ⟨⟨scheme.length, strstr_eq_some_iff.mpr ⟨?_, ?_, h.first⟩, rfl⟩, h.length,
      h.http, hrest.symm ▸ h.slash⟩
    · rw [hdrop]
      exact List.prefix_append _ _
    · rw [h.text, List.append_assoc, List.length_append]
      omega

theorem Accepts.drop_eq {scheme rest : Bytes} (h : o.Accepts url scheme rest) :
    url.drop (scheme.length + 3) = rest := by
  have hthree : (ascii "://").length = 3 := by decide
  rw [h.text, ← hthree, ← List.length_append]
  exact List.drop_left

/-- What is read of the host and of the port ends in its array.  In HTTP/0.9 nothing
is read of the host. -/
def Ends (o : Options) (rest : Bytes) : Prop :=
  o.proxyhost = none →
    ((hostPart rest).length < hostSize ∨ o.corrected = .v09) ∧ PortEnds rest

/-- What `build_request` leaves for an accepted URL. -/
def built (o : Options) (url : Bytes) (i : ℕ) (rest : Bytes) : Built :=
  if o.proxyhost = none then
    ⟨hostPart rest, o.port rest, o.text url i (hostPart rest), o.corrected⟩
  else ⟨[], o.proxyport, o.text url i [], o.corrected⟩

section Accepted

variable {scheme rest : Bytes} (h : o.Accepts url scheme rest)

include h

theorem Accepts.hostOffset_eq : o.hostOffset url = .ok (scheme.length + 3) :=
  hostOffset_iff_accepts.mpr ⟨scheme, rest, h, rfl⟩

theorem Accepts.address_eq (hproxy : o.proxyhost = none) :
    o.address (url.drop (scheme.length + 3)) =
      if (hostPart rest).length ≤ hostSize ∧ (portPart rest).length ≤ portSize then
        if PortEnds rest then .ok (hostPart rest, o.port rest) else .error .overread
      else .error .overrun := by
  rw [h.drop_eq, Options.address_eq o h.slash hproxy]

theorem Accepts.buildRequest_of_ends (hfits : o.Fits rest) (hends : o.Ends rest) :
    o.buildRequest url = .ok (o.built url (scheme.length + 3) rest) := by
  rw [buildRequest_eq h.hostOffset_eq]
  by_cases hproxy : o.proxyhost = none
  · obtain ⟨hhost, hport⟩ := hends hproxy
    have hname : o.hostString o.corrected (hostPart rest) = .ok (hostPart rest) :=
      hostString_eq_ok_iff.mpr ⟨rfl, fun _ => hhost⟩
    rw [h.address_eq hproxy, if_pos (hfits hproxy), if_pos hport, built, if_pos hproxy]
    simp only [hname, Bind.bind, Except.bind]
  · have hname : o.hostString o.corrected [] = .ok [] :=
      hostString_eq_ok_iff.mpr ⟨rfl, fun hnone => absurd hnone hproxy⟩
    rw [address_of_proxy _ hproxy, built, if_neg hproxy]
    simp only [hname, Bind.bind, Except.bind]

theorem Accepts.buildRequest_of_not_ends (hfits : o.Fits rest) (hends : ¬ o.Ends rest) :
    o.buildRequest url = .error .overread := by
  obtain ⟨hproxy, hread⟩ := Classical.not_imp.mp hends
  rw [buildRequest_eq h.hostOffset_eq, h.address_eq hproxy, if_pos (hfits hproxy)]
  by_cases hport : PortEnds rest
  · rw [if_pos hport]
    simp only [Bind.bind, Except.bind]
    cases hname : o.hostString o.corrected (hostPart rest) with
    | error f => rw [hostString_eq_error hname]
    | ok name => exact absurd ⟨(hostString_eq_ok_iff.mp hname).2 hproxy, hport⟩ hread
  · rw [if_neg hport]
    rfl

theorem Accepts.buildRequest_of_not_fits (hfits : ¬ o.Fits rest) :
    o.buildRequest url = .error .overrun := by
  obtain ⟨hproxy, hlong⟩ := Classical.not_imp.mp hfits
  rw [buildRequest_eq h.hostOffset_eq, h.address_eq hproxy, if_neg hlong]
  rfl

end Accepted

/-- What `build_request` does with a URL: an error of the tests, or an accepted URL
with one of three ends. -/
theorem buildRequest_cases (o : Options) (url : Bytes) :
    (∃ f, o.buildRequest url = .error f ∧ f ≠ .overrun ∧ f ≠ .overread ∧
      ∀ scheme rest, ¬ o.Accepts url scheme rest) ∨
    ∃ scheme rest, o.Accepts url scheme rest ∧
      (o.Fits rest ∧ o.Ends rest ∧
          o.buildRequest url = .ok (o.built url (scheme.length + 3) rest) ∨
        o.Fits rest ∧ ¬ o.Ends rest ∧ o.buildRequest url = .error .overread ∨
        ¬ o.Fits rest ∧ o.buildRequest url = .error .overrun) := by
  cases hi : o.hostOffset url with
  | error f =>
      obtain ⟨hrun, hread⟩ := ne_of_hostOffset hi
      refine .inl ⟨f, buildRequest_of_error hi, hrun, hread, fun scheme rest h => ?_⟩
      rw [h.hostOffset_eq] at hi
      cases hi
  | ok i =>
      obtain ⟨scheme, rest, h, rfl⟩ := hostOffset_iff_accepts.mp hi
      refine .inr ⟨scheme, rest, h, ?_⟩
      by_cases hfits : o.Fits rest
      · by_cases hends : o.Ends rest
        · exact .inl ⟨hfits, hends, h.buildRequest_of_ends hfits hends⟩
        · exact .inr (.inl ⟨hfits, hends, h.buildRequest_of_not_ends hfits hends⟩)
      · exact .inr (.inr ⟨hfits, h.buildRequest_of_not_fits hfits⟩)

/-- A request comes from a URL that is accepted, fits and ends. -/
theorem buildRequest_ok_iff {b : Built} :
    o.buildRequest url = .ok b ↔
      ∃ scheme rest, o.Accepts url scheme rest ∧ o.Fits rest ∧ o.Ends rest ∧
        b = o.built url (scheme.length + 3) rest := by
  constructor
  · intro hb
    rcases o.buildRequest_cases url with
      ⟨f, hf, -⟩ | ⟨scheme, rest, h, ⟨hfits, hends, hok⟩ | ⟨-, -, hf⟩ | ⟨-, hf⟩⟩
    · rw [hf] at hb
      cases hb
    · rw [hok] at hb
      exact ⟨scheme, rest, h, hfits, hends, (Except.ok.inj hb).symm⟩
    · rw [hf] at hb
      cases hb
    · rw [hf] at hb
      cases hb
  · rintro ⟨scheme, rest, h, hfits, hends, rfl⟩
    exact h.buildRequest_of_ends hfits hends

theorem length_request_le {b : Built} (hb : o.buildRequest url = .ok b) :
    b.request.length ≤ 1592 := by
  obtain ⟨scheme, rest, h, hfits, hends, rfl⟩ := buildRequest_ok_iff.mp hb
  by_cases hproxy : o.proxyhost = none
  · have haddress := h.address_eq hproxy
    rw [if_pos (hfits hproxy), if_pos (hends hproxy).2] at haddress
    rw [built, if_pos hproxy]
    exact length_text_le h.hostOffset_eq haddress
  · rw [built, if_neg hproxy]
    exact length_text_le h.hostOffset_eq (address_of_proxy _ hproxy)

/-- Two ports that fill `tmp`, of which `atoi` reads to the end only the second. -/
example :
    initial.buildRequest (ascii "http://h:80abcdefgh/") = .ok ⟨ascii "h", 80,
      ascii "GET / HTTP/1.0\r\nUser-Agent: WebBench 1.5\r\nHost: h\r\n\r\n", .v10⟩ ∧
    initial.buildRequest (ascii "http://h:0123456789/") = .error .overread := by
  decide +kernel

end Options

end BackendLab.Webbench
