import BackendLab.Proactor.Responses.Confinement
import BackendLab.Proactor.Responses.KeepAlive
import BackendLab.Proactor.Responses.Lengths
import BackendLab.Support.HeadLines

/-!
# What a client fetches

A connection over several requests, from the bytes that `read()` receives to the
bytes that the `writev` calls have put on the socket.  The client reads the
responses by their heads, one behind the other, and finds for each request what
the document root has for its target.
-/

namespace BackendLab.Proactor

open Support

/-! ## What the document root has -/

/-- A status with its title, and a body. -/
structure Answer where
  status : ℕ
  title : Bytes
  body : Bytes
  deriving DecidableEq, Repr

/-- What there is for a path. -/
def answerFor (fs : FileSystem) (path : Bytes) : Answer :=
  match fs path with
  | none => ⟨404, error404Title, error404Form⟩
  | some file =>
      if othersMayRead file.mode then
        if isDirectory file.mode then ⟨400, error400Title, error400Form⟩
        else ⟨200, ok200Title, file.content⟩
      else ⟨403, error403Title, error403Form⟩

namespace Answer

def statusLine (a : Answer) : Bytes :=
  ascii "HTTP/1.1 " ++ intText a.status ++ ascii " " ++ a.title

/-- The lines of the head of a response on a connection that is kept. -/
def lines (a : Answer) : List Bytes :=
  [a.statusLine, ascii "Content-Length: " ++ natText a.body.length,
    ascii "Content-Type:text/html", ascii "Connection: keep-alive"]

def text (a : Answer) : Bytes :=
  (a.lines.flatMap fun line => line ++ crlf) ++ (crlf ++ a.body)

/-- The text as `process_write` puts it together, on a connection that is kept or
closed behind it. -/
def textFor (a : Answer) (linger : Bool) : Bytes :=
  statusText a.status a.title ++ headerText a.body.length linger ++ a.body

end Answer

/-- A file that is answered with can be mapped, and its length is an `int`. -/
def Openable (fs : FileSystem) (path : Bytes) : Prop :=
  ∀ file, fs path = some file → othersMayRead file.mode = true →
    isDirectory file.mode = false →
      (file.readable = true ∧ file.content ≠ []) ∧ file.content.length < 2 ^ 31

theorem intText_natCast (n : ℕ) : intText n = natText n := by
  have hnonneg : ¬ (n : ℤ) < 0 := not_lt.mpr (Int.natCast_nonneg n)
  rw [intText, if_neg hnonneg, Int.natAbs_natCast]

theorem text_eq (a : Answer) : a.text = a.textFor true := by
  have hcrlf : crlf = ascii "\r\n" := by decide
  simp only [Answer.text, Answer.textFor, Answer.lines, Answer.statusLine,
    List.flatMap_cons, List.flatMap_nil, List.append_nil, hcrlf, statusText,
    headerText, contentLengthText, contentTypeText, lingerText, if_true,
    intText_natCast, List.append_assoc]
  rfl

/-! ## The text is read back -/

theorem isLine_statusLine (fs : FileSystem) (path : Bytes) :
    IsLine (answerFor fs path).statusLine := by
  have hfixed : ∀ p ∈ [(404, error404Title), (400, error400Title), (200, ok200Title),
      (403, error403Title)],
      ascii "HTTP/1.1 " ++ intText (p.1 : ℕ) ++ ascii " " ++ p.2 ≠ [] ∧
        13 ∉ ascii "HTTP/1.1 " ++ intText (p.1 : ℕ) ++ ascii " " ++ p.2 := by
    decide +kernel
  have hmem : ((answerFor fs path).status, (answerFor fs path).title) ∈
      [(404, error404Title), (400, error400Title), (200, ok200Title),
        (403, error403Title)] := by
    unfold answerFor
    repeat' split
    all_goals simp
  obtain ⟨hne, hreturn⟩ := hfixed _ hmem
  exact ⟨hne, hreturn⟩

theorem isLine_lines (fs : FileSystem) (path : Bytes) :
    ∀ line ∈ (answerFor fs path).lines, IsLine line := by
  intro line hline
  simp only [Answer.lines, List.mem_cons, List.not_mem_nil, or_false] at hline
  rcases hline with rfl | rfl | rfl | rfl
  · exact isLine_statusLine fs path
  · constructor
    · intro hnil
      cases (List.append_eq_nil_iff.mp hnil).1
    · intro hmem
      rcases List.mem_append.mp hmem with hmem | hmem
      · exact absurd hmem (by decide)
      · exact absurd (mem_natText hmem) (by decide)
  · exact ⟨by decide, by decide⟩
  · exact ⟨by decide, by decide⟩

theorem valueAfter_lines (a : Answer) :
    valueAfter (ascii "Content-Length: ") a.lines =
      some (natText a.body.length) := by
  have hstatus : ¬ ascii "Content-Length: " <+: a.statusLine := by
    rw [Answer.statusLine, List.append_assoc, List.append_assoc]
    intro hstart
    have hfirst := List.prefix_iff_eq_take.mp hstart
    cases congrArg List.head? hfirst
  have hlines : a.lines = [a.statusLine] ++
      (ascii "Content-Length: " ++ natText a.body.length) ::
        [ascii "Content-Type:text/html", ascii "Connection: keep-alive"] := rfl
  rw [hlines]
  apply valueAfter_append
  intro line hline
  rw [List.mem_singleton.mp hline]
  exact hstatus

theorem readMessage_text (fs : FileSystem) (path rest : Bytes) :
    readMessage (ascii "Content-Length: ") ((answerFor fs path).text ++ rest) =
      some ((answerFor fs path).lines, (answerFor fs path).body, rest) := by
  rw [Answer.text, List.append_assoc, List.append_assoc]
  exact readMessage_append (isLine_lines fs path) (valueAfter_lines _) rest

/-! ## A turn of a connection -/

namespace HttpConn

/-- The calls of `write()` for one response, with what they have put on the socket
and the connection behind the completion branch. -/
def respond (c : HttpConn) : List (List WritevOutcome) → Option (Bytes × HttpConn)
  | [] => none
  | outcomes :: calls =>
      match c.write outcomes with
      | some ⟨.again, c', sent⟩ =>
          (c'.respond calls).map fun r => (sent ++ r.1, r.2)
      | some ⟨.completed, c', sent⟩ => if calls = [] then some (sent, c') else none
      | _ => none

/-- Reads behind each of which `process()` asks for more. -/
def await (fs : FileSystem) : HttpConn → List Bytes → Option HttpConn
  | c, [] => some c
  | c, bytes :: reads =>
      match (c.withParser (c.parser.receive bytes)).process fs with
      | (.waiting, d) => d.await fs reads
      | _ => none

/-- What comes and goes for one request: the reads, of which the last completes
the request, and the `writev` calls of each `write()`. -/
structure Turn where
  reads : List Bytes
  last : Bytes
  calls : List (List WritevOutcome)

def takeTurn (fs : FileSystem) (c : HttpConn) (turn : Turn) :
    Option (Bytes × HttpConn) := do
  let c ← c.await fs turn.reads
  match (c.withParser (c.parser.receive turn.last)).process fs with
  | (.responding, d) => d.respond turn.calls
  | _ => none

/-- What each turn of a connection has put on the socket. -/
def takeTurns (fs : FileSystem) : HttpConn → List Turn → Option (List Bytes)
  | _, [] => some []
  | c, turn :: turns => do
      let r ← c.takeTurn fs turn
      let others ← r.2.takeTurns fs turns
      some (r.1 :: others)

/-- The turn brings a request that fits into the read buffer and ends with a read,
and each `writev` for its response accepts nothing or everything. -/
structure Turn.Carries (fs : FileSystem) (turn : Turn) (request : Bytes) :
    Prop where
  bytes : turn.reads.flatten ++ turn.last = request
  last : turn.last ≠ []
  fits : request.length ≤ readBufferSize
  accepted : ∀ outcomes ∈ turn.calls, ∀ n, .accepted n ∈ outcomes →
    n = 0 ∨ (answerFor fs (requestPath request)).text.length ≤ min n maxRwCount

/-- The socket is full for some calls of `write()`, and then takes something. -/
def Turn.Goes (turn : Turn) : Prop :=
  ∃ k n, turn.calls = List.replicate k [.eagain] ++ [[.accepted n]] ∧ n ≠ 0

/-! ### The request is read -/

variable {fs : FileSystem} {c conn : HttpConn} {xs reads : List Bytes}
  {r last : Bytes}

/-- More of the request, but not all of it. -/
theorem Pending.process_more (fs : FileSystem) {bytes rest : Bytes}
    (hp : Pending c conn xs r) {h : Head} (hhead : parseHead r = .complete h [])
    (hfit : r.length ≤ readBufferSize)
    (hbytes : xs.flatten ++ bytes ++ rest = r) (hrest : rest ≠ []) :
    ∃ d, (c.withParser (c.parser.receive bytes)).process fs = (.waiting, d) ∧
      Pending d conn (xs ++ [bytes]) r := by
  have hlen := congrArg List.length hbytes
  have hpos := List.length_pos_iff.mpr hrest
  rw [List.length_append] at hlen
  have hroom : (xs.flatten ++ bytes).length ≤ readBufferSize := by omega
  obtain ⟨hexit, hstate⟩ := Parser.afterReads_in_head hhead hroom hp.reads
    hbytes hrest rfl
  have hcall : (c.parser.receive bytes).readRequest =
      (.noRequest, (c.parser.receive bytes).readRequest.2) :=
    Prod.ext hexit rfl
  refine ⟨_, process_of_noRequest (c := c.withParser (c.parser.receive bytes)) fs
    hcall, ?_, Parser.afterReads_concat.mpr ⟨_, hp.reads, hcall⟩, hstate, ?_⟩
  · rw [hp.conn_eq]
    rfl
  · rw [List.flatten_append, List.flatten_singleton]
    omega

/-- However the request is cut, the last read finds the connection where it has
received the bytes before it. -/
theorem Pending.await (fs : FileSystem) (hp : Pending c conn xs r) {h : Head}
    (hhead : parseHead r = .complete h []) (hfit : r.length ≤ readBufferSize)
    (hbytes : xs.flatten ++ (reads.flatten ++ last) = r) (hlast : last ≠ []) :
    ∃ d, c.await fs reads = some d ∧ Pending d conn (xs ++ reads) r := by
  induction reads generalizing c xs with
  | nil => exact ⟨c, rfl, by rwa [List.append_nil]⟩
  | cons bytes reads ih =>
      rw [List.flatten_cons, List.append_assoc, ← List.append_assoc] at hbytes
      have hrest : reads.flatten ++ last ≠ [] := by
        intro hnil
        exact hlast (List.append_eq_nil_iff.mp hnil).2
      obtain ⟨d, hwait, hd⟩ := hp.process_more fs hhead hfit hbytes hrest
      have hflat : (xs ++ [bytes]).flatten = xs.flatten ++ bytes := by simp
      obtain ⟨e, he, hpending⟩ := ih hd (by rw [hflat]; exact hbytes)
      rw [List.append_assoc, List.singleton_append] at hpending
      refine ⟨e, ?_, hpending⟩
      rw [HttpConn.await, hwait]
      exact he

/-! ### The response is prepared -/

theorem mapFile_of_readable {file : File}
    (h : file.readable = true ∧ file.content ≠ []) :
    mapFile file = .mapped file.content := by
  simp [mapFile, h.1, h.2]

/-- `do_request` comes to the answer for the path. -/
theorem doRequest_answerFor (hreal : c.realFile = Vector.replicate filenameLen 0)
    {path : Bytes} (hpath : docRoot ++ c.urlText.take targetRoom = path)
    (hopen : Openable fs path) (linger : Bool) :
    ∃ t, responseText linger (c.doRequest fs).2.fileStat.size (c.doRequest fs).1 =
        some t ∧
      t ++ (if (c.doRequest fs).1 = .fileRequest then (c.doRequest fs).2.fileBytes
        else []) = (answerFor fs path).textFor linger ∧
      ((c.doRequest fs).1 = .fileRequest →
        (c.doRequest fs).2.fileBytes.length = (c.doRequest fs).2.fileStat.size ∧
          (c.doRequest fs).2.fileAddress ≠ .failed) := by
  have hjoin : { c with realFile := c.joinPath }.path = path :=
    (path_joinPath hreal).trans hpath
  rw [Answer.textFor]
  cases hfile : fs path with
  | none =>
      refine ⟨pageText 404 error404Title error404Form linger, ?_⟩
      simp [doRequest, hjoin, hfile, answerFor, responseText, pageText]
  | some file =>
      by_cases hread : othersMayRead file.mode = true
      · by_cases hdir : isDirectory file.mode = true
        · refine ⟨pageText 400 error400Title error400Form linger, ?_⟩
          simp [doRequest, hjoin, hfile, answerFor, responseText, pageText, hread,
            hdir]
        · have hnotDir : isDirectory file.mode = false := by simpa using hdir
          obtain ⟨hopens, hlength⟩ := hopen file hfile hread hnotDir
          have hint : toInt32 file.content.length = file.content.length :=
            toInt32_eq_self (by omega) (by omega)
          have hmap := mapFile_of_readable hopens
          refine ⟨statusText 200 ok200Title ++
            headerText file.content.length linger, ?_⟩
          simp [doRequest, hjoin, hfile, answerFor, responseText, hread, hnotDir,
            hmap, fileBytes, hint]
      · have hnotRead : othersMayRead file.mode = false := by simpa using hread
        refine ⟨pageText 403 error403Title error403Form linger, ?_⟩
        simp [doRequest, hjoin, hfile, answerFor, responseText, pageText, hnotRead]

/-- A response whose text is known is prepared by `process`. -/
theorem process_prepared {code : HttpCode} {d : HttpConn} {t : Bytes}
    (hread : c.processRead fs = (code, d)) (hidx : d.writeIdx = 0)
    (ht : responseText d.parser.linger d.fileStat.size code = some t)
    (hfile : code = .fileRequest →
      d.fileBytes.length = d.fileStat.size ∧ d.fileAddress ≠ .failed) :
    ∃ e, c.process fs = (.responding, e) ∧ e.parser = d.parser ∧
      e.sockfd = d.sockfd ∧
      e.Prepared t (if code = .fileRequest then d.fileBytes else []) := by
  obtain ⟨c', hw, heq⟩ := processWrite_eq hidx ht
  have hprepared := processWrite_prepared hidx (congrArg Prod.fst heq)
    (fun hcode => (hfile hcode).1) (fun hcode => (hfile hcode).2)
  have hcode : code ≠ .noRequest := by
    rintro rfl
    cases ht
  refine ⟨(d.processWrite code).2, ?_, ?_, ?_, ?_⟩
  · rw [heq, process, hread]
    simp only [heq]
  · rw [heq, hw.rest]
  · rw [heq, hw.rest]
  · rw [heq] at hprepared ⊢
    simpa only [hw.writeIdx_eq, hw.text] using hprepared

/-- The last read of a request leads to the response, and a connection that is kept
is behind the response as it was at first. -/
theorem Pending.process_last (hp : Pending c conn xs r) {h : Head}
    (hhead : parseHead r = .complete h []) (hlength : h.contentLength = 0)
    (hfit : r.length ≤ readBufferSize)
    (hbytes : xs.flatten ++ last = r) (hopen : Openable fs (requestPath r)) :
    ∃ d header file,
      (c.withParser (c.parser.receive last)).process fs = (.responding, d) ∧
      d.Prepared header file ∧
      header ++ file = (answerFor fs (requestPath r)).textFor h.linger ∧
      d.parser.linger = h.linger ∧ (h.linger = true → d.finish = conn.init) := by
  have hroom : (xs.flatten ++ last).length ≤ readBufferSize := by rwa [hbytes]
  have hcall := Parser.readRequest_pieces last hroom hp.reads hp.state
  have hout := Parser.readRequest_fresh hroom
  rw [← hcall, hbytes, hhead] at hout
  obtain ⟨p, hend, -, hrun⟩ := hout
  rw [if_pos hlength] at hrun
  have hkept : p.linger = h.linger := hend.represents.linger
  have hread : (c.withParser (c.parser.receive last)).processRead fs =
      (conn.init.withParser p).doRequest fs := by
    rw [← processRead_of_reach hrun conn fs, hp.conn_eq]
    rfl
  have hurl : (conn.init.withParser p).urlText = servedTarget r := by
    rw [urlText_of_reach hrun conn xs hroom hp.reads, hbytes]
  obtain ⟨hparser, hsock, hidx⟩ := doRequest_frame fs (conn.init.withParser p)
  obtain ⟨t, ht, htext, hfile⟩ := doRequest_answerFor
    (c := conn.init.withParser p) rfl (by rw [hurl]; rfl) hopen h.linger
  generalize (conn.init.withParser p).doRequest fs = result at *
  obtain ⟨code, d⟩ := result
  have hlingers : d.parser.linger = h.linger := (congrArg Parser.linger hparser).trans hkept
  rw [← hlingers] at ht
  obtain ⟨e, hprocess, hparser', hsock', hprepared⟩ :=
    process_prepared hread hidx ht hfile
  refine ⟨e, t, _, hprocess, hprepared, htext, by rw [hparser', hlingers], ?_⟩
  intro hlinger
  rw [finish, if_pos (by rw [hparser', hlingers, hlinger])]
  change { HttpConn.blank with sockfd := e.sockfd } = conn.init
  rw [hsock', hsock]
  rfl

/-! ### The response is sent -/

/-- What `respond` puts on the socket is what the calls of `write()` have sent, and
the connection behind them is the one of the completion branch. -/
theorem sendAll_of_respond {calls : List (List WritevOutcome)} {wire : Bytes}
    {d : HttpConn} (h : c.respond calls = some (wire, d)) (hpos : 0 < c.writeIdx) :
    d = c.finish ∧ ∃ sent, c.sendAll calls = some sent ∧ wire = sent.flatten := by
  induction calls generalizing wire d with
  | nil => cases h
  | cons outcomes calls ih =>
      cases hwrite : c.write outcomes with
      | none =>
          rw [respond, hwrite] at h
          cases h
      | some result =>
          obtain ⟨exit, c', s⟩ := result
          rw [respond, hwrite] at h
          rw [sendAll, hwrite]
          have hcases := write_cases hwrite hpos
          simp only at hcases
          obtain ⟨rfl, rfl, -⟩ | ⟨rfl, -⟩ | ⟨rfl, hconn, -⟩ := hcases
          · obtain ⟨r, hr, hpair⟩ := Option.map_eq_some_iff.mp h
            obtain ⟨rfl, rfl⟩ := Prod.mk.inj hpair
            obtain ⟨hfinish, sent, hsent, hflat⟩ := ih hr
            refine ⟨hfinish, s :: sent, ?_, ?_⟩
            · change (c'.sendAll calls).map (s :: ·) = some (s :: sent)
              rw [hsent, Option.map_some]
            · rw [List.flatten_cons, hflat]
          · cases h
          · change (if calls = [] then some (s, c') else none) = some (wire, d) at h
            split_ifs at h with hcalls
            obtain ⟨rfl, rfl⟩ := Prod.mk.inj (Option.some.inj h)
            exact ⟨hconn, [s], if_pos hcalls, (List.flatten_singleton).symm⟩

/-- A prepared response of which every `writev` accepts nothing or everything is
what comes over the socket. -/
theorem Prepared.wire_eq {header file : Bytes} (hp : c.Prepared header file)
    {calls : List (List WritevOutcome)} {wire : Bytes} {d : HttpConn}
    (h : c.respond calls = some (wire, d))
    (hall : ∀ outcomes ∈ calls, ∀ n, .accepted n ∈ outcomes →
      n = 0 ∨ (header ++ file).length ≤ min n maxRwCount) :
    wire = header ++ file ∧ d = c.finish := by
  obtain ⟨hfinish, sent, hsent, rfl⟩ := sendAll_of_respond h hp.writeIdx_pos
  refine ⟨((hp.intact_iff hsent).mpr ?_).1, hfinish⟩
  intro x hx
  obtain ⟨o, ho, hox⟩ := List.mem_filterMap.mp hx
  obtain ⟨outcomes, houtcomes, hmem⟩ := List.mem_flatten.mp ho
  cases o with
  | accepted n =>
      obtain rfl := Option.some.inj hox
      rw [taken, hp.offered]
      rcases hall outcomes houtcomes n hmem with rfl | hle
      · left
        rw [Nat.zero_min, List.take_zero]
      · right
        exact List.take_of_length_le hle
  | eagain => cases hox
  | error => cases hox

/-- The socket takes all of a prepared response. -/
theorem Prepared.write_all {header file : Bytes} (hp : c.Prepared header file)
    {n : ℕ} (hn : (header ++ file).length ≤ min n maxRwCount) :
    c.write [.accepted n] = some ⟨.completed, c.finish, header ++ file⟩ := by
  have hpos : c.writeIdx ≠ 0 := hp.writeIdx_pos.ne'
  have htaken : c.taken n = header ++ file := by
    rw [taken, hp.offered]
    exact List.take_of_length_le hn
  have hdone : (c.writeIdx : ℤ) - (c.taken n).length ≤ 0 + (c.taken n).length := by
    rw [htaken, hp.writeIdx, List.length_append]
    omega
  rw [← htaken, write_eq_writeLoop hpos hp.faults]
  simp only [writeLoop, if_pos hdone, if_true]

theorem Prepared.exists_respond {header file : Bytes} (hp : c.Prepared header file)
    {n : ℕ} (hn : (header ++ file).length ≤ min n maxRwCount) (k : ℕ) :
    ∃ r, c.respond (List.replicate k [.eagain] ++ [[.accepted n]]) = some r := by
  have hpos : c.writeIdx ≠ 0 := hp.writeIdx_pos.ne'
  induction k with
  | zero =>
      refine ⟨(header ++ file, c.finish), ?_⟩
      rw [List.replicate_zero, List.nil_append]
      simp only [respond, hp.write_all hn, if_true]
  | succ k ih =>
      obtain ⟨r, hr⟩ := ih
      refine ⟨([] ++ r.1, r.2), ?_⟩
      rw [List.replicate_succ, List.cons_append]
      simp only [respond, write_eq_writeLoop hpos hp.faults, writeLoop, hr,
        Option.map_some]

/-! ### Turn by turn -/

section Turns

variable {turn : Turn} (hr : IsKeepAliveRequest r)
  (hopen : Openable fs (requestPath r)) (hturn : turn.Carries fs r)

include hr hopen hturn

/-- A turn comes to the response, which is then sent. -/
theorem takeTurn_eq_respond (conn : HttpConn) :
    ∃ (d : HttpConn) (header file : Bytes),
      conn.init.takeTurn fs turn = d.respond turn.calls ∧
      d.Prepared header file ∧
      header ++ file = (answerFor fs (requestPath r)).text ∧
      d.finish = conn.init := by
  have hbytes : ([] : List Bytes).flatten ++ (turn.reads.flatten ++ turn.last) = r :=
    hturn.bytes
  have hne := hr.ne_nil
  obtain ⟨h, hhead, hlength, hlinger⟩ := hr
  obtain ⟨c, hawait, hpending⟩ := (pending_init conn hne).await fs hhead
    hturn.fits hbytes hturn.last
  obtain ⟨d, header, file, hprocess, hprepared, htext, -, hfinish⟩ :=
    hpending.process_last hhead hlength hturn.fits hturn.bytes hopen
  rw [hlinger, ← text_eq] at htext
  refine ⟨d, header, file, ?_, hprepared, htext, hfinish hlinger⟩
  simp only [takeTurn, hawait, Option.bind_eq_bind, Option.bind_some, hprocess]

theorem takeTurn_eq {wire : Bytes} {d : HttpConn}
    (h : conn.init.takeTurn fs turn = some (wire, d)) :
    wire = (answerFor fs (requestPath r)).text ∧ d = conn.init := by
  obtain ⟨e, header, file, htake, hprepared, htext, hfinish⟩ :=
    takeTurn_eq_respond hr hopen hturn conn
  have hall := hturn.accepted
  rw [← htext] at hall
  obtain ⟨hwire, hd⟩ := hprepared.wire_eq (htake.symm.trans h) hall
  exact ⟨hwire.trans htext, hd.trans hfinish⟩

theorem exists_takeTurn (hgoes : turn.Goes) (conn : HttpConn) :
    ∃ wire, conn.init.takeTurn fs turn = some (wire, conn.init) := by
  obtain ⟨e, header, file, htake, hprepared, htext, -⟩ :=
    takeTurn_eq_respond hr hopen hturn conn
  obtain ⟨k, n, hcalls, hn⟩ := hgoes
  have hmem : [.accepted n] ∈ turn.calls := by
    rw [hcalls]
    exact List.mem_append_right _ (List.mem_singleton_self _)
  have hle := (hturn.accepted _ hmem n (List.mem_singleton_self _)).resolve_left hn
  rw [← htext] at hle
  obtain ⟨⟨wire, d⟩, hrespond⟩ := hprepared.exists_respond hle k
  rw [hcalls, hrespond] at htake
  refine ⟨wire, ?_⟩
  rw [htake, (takeTurn_eq hr hopen hturn htake).2]

end Turns

section Requests

variable {requests : List Bytes} {turns : List Turn} {wires : List Bytes}
  (hrequests : ∀ r ∈ requests, IsKeepAliveRequest r ∧ Openable fs (requestPath r))
  (hturns : List.Forall₂ (fun r turn => turn.Carries fs r) requests turns)

include hrequests hturns

theorem takeTurns_eq (h : conn.init.takeTurns fs turns = some wires) :
    wires = requests.map fun r => (answerFor fs (requestPath r)).text := by
  induction hturns generalizing wires with
  | nil => exact (Option.some.inj h).symm
  | @cons r turn requests turns hturn hturns ih =>
      obtain ⟨⟨hr, hopen⟩, hrequests⟩ := List.forall_mem_cons.mp hrequests
      simp only [takeTurns, Option.bind_eq_bind, Option.bind_eq_some_iff] at h
      obtain ⟨⟨wire, d⟩, htake, others, hothers, hwires⟩ := h
      obtain ⟨rfl, rfl⟩ := takeTurn_eq hr hopen hturn htake
      rw [← Option.some.inj hwires, ih hrequests hothers, List.map_cons]

theorem exists_takeTurns (hgoes : ∀ turn ∈ turns, turn.Goes) (conn : HttpConn) :
    ∃ wires, conn.init.takeTurns fs turns = some wires := by
  induction hturns with
  | nil => exact ⟨[], rfl⟩
  | @cons r turn requests turns hturn hturns ih =>
      obtain ⟨⟨hr, hopen⟩, hrequests⟩ := List.forall_mem_cons.mp hrequests
      obtain ⟨hfirst, hgoes⟩ := List.forall_mem_cons.mp hgoes
      obtain ⟨wire, htake⟩ := exists_takeTurn hr hopen hturn hfirst conn
      obtain ⟨others, hothers⟩ := ih hrequests hgoes
      refine ⟨wire :: others, ?_⟩
      simp only [takeTurns, htake, hothers, Option.bind_eq_bind, Option.bind_some]

end Requests

/-! ### A request for a page -/

/-- A document root with one page. -/
def smallSite : FileSystem := fun path =>
  if path = ascii "./resources/" then some ⟨0o100644, ascii "abc", true⟩ else none

/-- The request comes in two reads, and the socket is full at first. -/
def smallTurn : Turn :=
  ⟨[rootRequest.take 10], rootRequest.drop 10, [[.eagain], [.accepted 1000]]⟩

theorem requestPath_rootRequest : requestPath rootRequest = ascii "./resources/" := by
  decide +kernel

theorem openable_smallSite : Openable smallSite (ascii "./resources/") := by
  intro file hfile _ _
  obtain rfl := Option.some.inj hfile
  exact ⟨⟨rfl, by decide⟩, by decide⟩

theorem length_smallSite :
    (answerFor smallSite (ascii "./resources/")).text.length ≤
      min 1000 maxRwCount := by
  decide +kernel

theorem carries_smallTurn : smallTurn.Carries smallSite rootRequest := by
  refine ⟨?_, by decide, by decide, ?_⟩
  · rw [smallTurn, List.flatten_singleton, List.take_append_drop]
  · intro outcomes houtcomes n hn
    rw [requestPath_rootRequest]
    have hn : n = 1000 := by
      simp only [smallTurn, List.mem_cons, List.not_mem_nil, or_false] at houtcomes
      rcases houtcomes with rfl | rfl
      · simp at hn
      · simpa using hn
    subst hn
    exact .inr length_smallSite

end HttpConn

end BackendLab.Proactor
