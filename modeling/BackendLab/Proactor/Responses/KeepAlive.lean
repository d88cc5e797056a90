import BackendLab.Proactor.Parsing.BodyPieces
import BackendLab.Proactor.Responses.Confinement
import BackendLab.Proactor.Responses.Sending

/-!
# A connection that is kept

After a response the connection is initialised again, and whatever the read
buffer holds behind the answered request is lost.  A file that could not be mapped
ends the connection without a response, and every response goes through the end of
`add_headers`.  Where control comes back from there, a row of requests is answered
request by request exactly if no read contains the end of one request and the
beginning of the next, and every file that is answered with has been mapped.
-/

namespace BackendLab.Proactor

open Support

/-- The path that a request leads to. -/
def requestPath (request : Bytes) : Bytes :=
  docRoot ++ (servedTarget request).take targetRoom

/-- If the path leads to a file that is answered with, then `mmap` succeeds: the file
can be opened and is not empty. -/
def Mappable (fs : FileSystem) (path : Bytes) : Prop :=
  ∀ file, fs path = some file → othersMayRead file.mode = true →
    isDirectory file.mode = false → file.readable = true ∧ file.content ≠ []

namespace HttpConn

/-- What one `EPOLLIN` event leads to: more input is awaited, a response has been
sent completely, or the connection is closed without one.  `discarded` are the bytes
in the read buffer behind the answered request, and `next` is the connection if it
is kept. -/
inductive Served where
  | waiting (c : HttpConn)
  | answered (response discarded : Bytes) (next : Option HttpConn)
  | dropped

/-- `read()` of the bytes `group`, `process()`, and `write()` up to its completion
branch; `none` if control does not come back from `add_headers`. -/
def serveRead (f : FlowOff) (fs : FileSystem) (c : HttpConn) (group : Bytes) :
    Option Served :=
  ((c.withParser (c.parser.receive group)).processOn f fs).map fun
    | (.waiting, d) => .waiting d
    | (.responding, d) =>
        if d.faults then .dropped
        else .answered d.offered d.parser.unparsed
          (if d.parser.linger then some d.finish else none)
    | (.closing, _) => .dropped

/-- The responses of a connection, each with the bytes discarded behind its
request, when its input arrives in the given groups; `none` also if a group does not
fit into the read buffer. -/
def serve (f : FlowOff) (fs : FileSystem) :
    HttpConn → List Bytes → Option (List (Bytes × Bytes))
  | _, [] => some []
  | c, group :: groups =>
      if c.parser.readIdx + group.length ≤ readBufferSize then
        match c.serveRead f fs group with
        | none => none
        | some (.waiting d) => d.serve f fs groups
        | some (.answered response discarded (some d)) =>
            (d.serve f fs groups).map ((response, discarded) :: ·)
        | some (.answered response discarded none) => some [(response, discarded)]
        | some .dropped => some []
      else none

/-- The response of a fresh connection to one request alone. -/
def freshResponse (f : FlowOff) (fs : FileSystem) (c : HttpConn) (request : Bytes) :
    Option Bytes :=
  match c.init.serveRead f fs request with
  | some (.answered response _ _) => some response
  | _ => none

/-- On the implementation `f` the connection gives one response to each request, in
order and as a fresh connection would, and discards no byte. -/
def OnePerRequest (f : FlowOff) (fs : FileSystem) (c : HttpConn)
    (requests groups : List Bytes) : Prop :=
  ∃ out, c.init.serve f fs groups = some out ∧
    out.map (fun x => some x.1) = requests.map (freshResponse f fs c) ∧
    ∀ x ∈ out, x.2 = []

/-- A complete request without a body that asks to keep the connection. -/
def IsKeepAliveRequest (r : Bytes) : Prop :=
  ∃ h, parseHead r = .complete h [] ∧ h.contentLength = 0 ∧ h.linger = true

theorem IsKeepAliveRequest.ne_nil {r : Bytes} (hr : IsKeepAliveRequest r) :
    r ≠ [] := by
  rintro rfl
  obtain ⟨h, hhead, -⟩ := hr
  have hnil : parseHead [] = .incomplete Head.empty [] := by decide
  rw [hnil] at hhead
  cases hhead

/-! ## One read -/

variable {fs : FileSystem} {c : HttpConn}

theorem serveRead_of_noRequest {p : Parser} {group : Bytes}
    (h : (c.parser.receive group).readRequest = (.noRequest, p)) :
    c.serveRead .returns fs group = some (.waiting (c.withParser p)) := by
  have hprocess := process_of_noRequest (c := c.withParser
    (c.parser.receive group)) fs h
  simp only [serveRead, processOn_returns, hprocess, Option.map_some]
  rfl

/-- A read depends on the parser only through the call of `process_read`. -/
theorem serveRead_congr {p : Parser} {group r : Bytes}
    (h : (p.receive group).readRequest = (c.parser.receive r).readRequest) :
    (c.withParser p).serveRead .returns fs group = c.serveRead .returns fs r := by
  simp only [serveRead, processOn, processRead, withParser, h]

/-- `do_request` answers with a file that it could not map. -/
theorem doRequest_failed_iff (hreal : c.realFile = Vector.replicate filenameLen 0)
    {path : Bytes} (hpath : docRoot ++ c.urlText.take targetRoom = path) :
    ((c.doRequest fs).1 = .fileRequest ∧ (c.doRequest fs).2.fileAddress = .failed) ↔
      ¬ Mappable fs path := by
  have hjoin : { c with realFile := c.joinPath }.path = path :=
    (path_joinPath hreal).trans hpath
  cases hfile : fs path with
  | none => simp [doRequest, hjoin, hfile, Mappable]
  | some file =>
      by_cases hread : othersMayRead file.mode = true
      · by_cases hdir : isDirectory file.mode = true
        · simp [doRequest, hjoin, hfile, Mappable, hread, hdir]
        · simp [doRequest, hjoin, hfile, Mappable, hread, hdir, mapFile]
      · simp [doRequest, hjoin, hfile, Mappable, hread]

/-- The response cannot be sent if it is a file that has not been mapped. -/
theorem faults_process (hidx : c.writeIdx = 0) {d : HttpConn}
    (h : c.process fs = (.responding, d)) :
    d.faults = true ↔ (c.processRead fs).1 = .fileRequest ∧
      (c.processRead fs).2.fileAddress = .failed := by
  obtain ⟨-, -, hwrite⟩ := processRead_frame fs c
  rw [process] at h
  generalize c.processRead fs = result at *
  obtain ⟨code, e⟩ := result
  cases ht : responseText e.parser.linger e.fileStat.size code with
  | none => cases code <;> simp [responseText] at ht <;> simp [processWrite] at h
  | some t =>
      obtain ⟨c', -, heq⟩ := processWrite_eq (hwrite.trans hidx) ht
      have hcode : code ≠ .noRequest := by
        rintro rfl
        cases ht
      simp only [heq] at h
      obtain rfl := (Prod.mk.inj h).2
      by_cases hfile : code = .fileRequest
      · simp [faults, hfile]
      · simp [faults, hfile]

/-- Where control does not come back from `add_headers`, a read leads to no
response. -/
theorem serveRead_ne_answered (group response discarded : Bytes)
    (next : Option HttpConn) :
    c.serveRead (fun _ => none) fs group ≠ some (.answered response discarded next) := by
  intro h
  obtain ⟨⟨exit, d⟩, hprocess, hserved⟩ := Option.map_eq_some_iff.mp h
  rw [processOn] at hprocess
  split at hprocess
  next =>
    obtain ⟨rfl, rfl⟩ := Prod.mk.inj (Option.some.inj hprocess)
    cases hserved
  next code e _ _ =>
    obtain ⟨⟨ok, e'⟩, hwrite, hr⟩ := Option.map_eq_some_iff.mp hprocess
    have hok : ok = false := by
      cases code with
      | noRequest | getRequest | closedConnection =>
          exact (Prod.mk.inj (Option.some.inj hwrite)).1.symm
      | _ => cases hwrite
    subst hok
    obtain ⟨rfl, rfl⟩ := Prod.mk.inj hr
    cases hserved

/-- A read that completes a request for a connection that is kept. -/
theorem serveRead_of_doRequest (fs : FileSystem) {p : Parser} {group : Bytes}
    {stored : Option ℤ} (hidx : c.writeIdx = 0)
    (hreal : c.realFile = Vector.replicate filenameLen 0)
    (h : (c.parser.receive group).readRequest = (.doRequest stored, p))
    (hlinger : p.linger = true) {path : Bytes}
    (hpath : docRoot ++ (c.withParser p).urlText.take targetRoom = path) :
    (Mappable fs path → ∃ response, c.serveRead .returns fs group =
      some (.answered response p.unparsed (some c.init))) ∧
    (¬ Mappable fs path → c.serveRead .returns fs group = some .dropped) := by
  have hread : (c.withParser (c.parser.receive group)).processRead fs =
      (c.withParser p).doRequest fs := by
    simp only [processRead, withParser, h]
  obtain ⟨d, hprocess, hparser, hsock, -⟩ := process_of_ne_noRequest
    (c := c.withParser (c.parser.receive group)) fs hidx
    (by
      change (c.parser.receive group).readRequest.1 ≠ .noRequest
      rw [h]
      simp)
  have hfaults := faults_process
    (c := c.withParser (c.parser.receive group)) hidx hprocess
  rw [hread, doRequest_failed_iff (c := c.withParser p) hreal hpath] at hfaults
  have hparser' : d.parser = p := by
    rw [hparser]
    change (c.parser.receive group).readRequest.2 = p
    rw [h]
  have hfinish : d.finish = c.init := by
    rw [finish, if_pos (by rw [hparser', hlinger])]
    change { HttpConn.blank with sockfd := d.sockfd } = c.init
    rw [hsock]
    rfl
  constructor
  · intro hmappable
    have hnot : ¬ d.faults = true := fun hd => hfaults.mp hd hmappable
    refine ⟨d.offered, ?_⟩
    simp only [serveRead, processOn_returns, hprocess, Option.map_some, if_neg hnot,
      hparser', hlinger, if_true, hfinish]
  · intro hmappable
    simp only [serveRead, processOn_returns, hprocess, Option.map_some,
      if_pos (hfaults.mpr hmappable)]

/-! ## Requests and reads in step -/

/-- Where a request ends a read ends, counted from `pending` bytes on. -/
def InStep (pending : ℕ) (requests groups : List Bytes) : Prop :=
  ∀ front, front <+: requests → front ≠ [] →
    ∃ reads, reads <+: groups ∧
      pending + reads.flatten.length = front.flatten.length

/-- Every request ends where a read ends. -/
def EndsTogether (requests groups : List Bytes) : Prop :=
  ∀ front, front <+: requests →
    ∃ reads, reads <+: groups ∧ reads.flatten.length = front.flatten.length

theorem endsTogether_iff_inStep {requests groups : List Bytes} :
    EndsTogether requests groups ↔ InStep 0 requests groups := by
  constructor
  · intro h front hfront _
    obtain ⟨reads, hreads, hlen⟩ := h front hfront
    exact ⟨reads, hreads, by omega⟩
  · intro h front hfront
    by_cases hne : front = []
    · exact ⟨[], List.nil_prefix, by rw [hne]⟩
    · obtain ⟨reads, hreads, hlen⟩ := h front hfront hne
      exact ⟨reads, hreads, by omega⟩

section Steps

variable {pending : ℕ} {r group : Bytes} {requests groups : List Bytes}

/-- A read that does not complete the request. -/
theorem inStep_cons_iff_of_lt (hlt : pending + group.length < r.length) :
    InStep pending (r :: requests) (group :: groups) ↔
      InStep (pending + group.length) (r :: requests) groups := by
  constructor
  · intro h front hfront hne
    obtain ⟨reads, hreads, hlen⟩ := h front hfront hne
    obtain ⟨rest, hrest⟩ := hfront
    cases front with
    | nil => exact absurd rfl hne
    | cons r' front =>
        obtain ⟨rfl, -⟩ := List.cons.inj hrest
        rw [List.flatten_cons, List.length_append] at hlen
        cases reads with
        | nil =>
            simp only [List.flatten_nil, List.length_nil] at hlen
            omega
        | cons g reads =>
            obtain ⟨rfl, htail⟩ := List.cons_prefix_cons.mp hreads
            rw [List.flatten_cons, List.length_append] at hlen
            refine ⟨reads, htail, ?_⟩
            rw [List.flatten_cons, List.length_append]
            omega
  · intro h front hfront hne
    obtain ⟨reads, hreads, hlen⟩ := h front hfront hne
    refine ⟨group :: reads, List.cons_prefix_cons.mpr ⟨rfl, hreads⟩, ?_⟩
    rw [List.flatten_cons, List.length_append]
    omega

/-- A read that ends with the request. -/
theorem inStep_cons_iff_of_eq (hpending : pending < r.length)
    (heq : pending + group.length = r.length) :
    InStep pending (r :: requests) (group :: groups) ↔
      InStep 0 requests groups := by
  constructor
  · intro h front hfront hne
    obtain ⟨reads, hreads, hlen⟩ := h (r :: front)
      (List.cons_prefix_cons.mpr ⟨rfl, hfront⟩) (by simp)
    rw [List.flatten_cons, List.length_append] at hlen
    cases reads with
    | nil =>
        simp only [List.flatten_nil, List.length_nil] at hlen
        omega
    | cons g reads =>
        obtain ⟨rfl, htail⟩ := List.cons_prefix_cons.mp hreads
        rw [List.flatten_cons, List.length_append] at hlen
        exact ⟨reads, htail, by omega⟩
  · intro h front hfront hne
    cases front with
    | nil => exact absurd rfl hne
    | cons r' front =>
        obtain ⟨rfl, htail⟩ := List.cons_prefix_cons.mp hfront
        by_cases hnil : front = []
        · refine ⟨[group], List.cons_prefix_cons.mpr
            ⟨rfl, List.nil_prefix⟩, ?_⟩
          simp only [hnil, List.flatten_singleton]
          exact heq
        · obtain ⟨reads, hreads, hlen⟩ := h front htail hnil
          refine ⟨group :: reads, List.cons_prefix_cons.mpr ⟨rfl, hreads⟩, ?_⟩
          rw [List.flatten_cons, List.length_append, List.flatten_cons,
            List.length_append]
          omega

/-- A read that goes on into the next request. -/
theorem not_inStep_of_gt (hpending : pending < r.length)
    (hgt : r.length < pending + group.length) :
    ¬ InStep pending (r :: requests) (group :: groups) := by
  intro h
  obtain ⟨reads, hreads, hlen⟩ := h [r]
    (List.cons_prefix_cons.mpr ⟨rfl, List.nil_prefix⟩) (by simp)
  rw [List.flatten_singleton] at hlen
  cases reads with
  | nil =>
      simp only [List.flatten_nil, List.length_nil] at hlen
      omega
  | cons g reads =>
      obtain ⟨rfl, -⟩ := List.cons_prefix_cons.mp hreads
      rw [List.flatten_cons, List.length_append] at hlen
      omega

end Steps

/-! ## The whole run -/

/-- The state of a kept connection between two reads: the bytes `xs` of the
request `r` have come, and they do not complete it. -/
structure Pending (c : HttpConn) (conn : HttpConn) (xs : List Bytes)
    (r : Bytes) : Prop where
  conn_eq : c = conn.init.withParser c.parser
  reads : Parser.fresh.afterReads xs = some c.parser
  state : c.parser.checkState ≠ .content
  lt : xs.flatten.length < r.length

theorem pending_init (conn : HttpConn) {r : Bytes} (hr : r ≠ []) :
    Pending conn.init conn [] r :=
  ⟨rfl, rfl, by simp [init, blank, Parser.fresh],
    by simpa using List.length_pos_iff.mpr hr⟩

variable {conn : HttpConn} {xs : List Bytes} {r group y : Bytes}

theorem Pending.readIdx (hp : Pending c conn xs r)
    (hfit : xs.flatten.length ≤ readBufferSize) :
    c.parser.readIdx = xs.flatten.length := by
  obtain ⟨-, hread⟩ := Parser.scanning_fresh.afterReads hp.reads
    (by simpa [Parser.fresh] using hfit)
  rw [hread]
  simp [Parser.fresh]

/-- More of the request, but not all of it. -/
theorem Pending.serveRead_lt (fs : FileSystem) (hp : Pending c conn xs r)
    (hr : IsKeepAliveRequest r)
    (hfit : (xs.flatten ++ group).length ≤ readBufferSize)
    (hsplit : xs.flatten ++ group ++ y = r) (hy : y ≠ []) :
    ∃ d, c.serveRead .returns fs group = some (.waiting d) ∧
      Pending d conn (xs ++ [group]) r := by
  obtain ⟨h, hhead, -⟩ := hr
  obtain ⟨hexit, hstate⟩ := Parser.afterReads_in_head hhead hfit hp.reads
    hsplit hy rfl
  have hcall : (c.parser.receive group).readRequest =
      (.noRequest, (c.parser.receive group).readRequest.2) :=
    Prod.ext hexit rfl
  refine ⟨_, serveRead_of_noRequest hcall, ?_, ?_, hstate, ?_⟩
  · rw [hp.conn_eq]
    rfl
  · exact Parser.afterReads_concat.mpr ⟨_, hp.reads, hcall⟩
  · have hlen := congrArg List.length hsplit
    have hpos := List.length_pos_iff.mpr hy
    rw [List.length_append] at hlen
    rw [List.flatten_append, List.flatten_singleton]
    omega

/-- The rest of the request, and perhaps more, which is discarded.  If there is no
more, the response is the one of a fresh connection, unless the file that the request
leads to has not been mapped. -/
theorem Pending.serveRead_ge (fs : FileSystem) (hp : Pending c conn xs r)
    (hr : IsKeepAliveRequest r)
    (hfit : (xs.flatten ++ group).length ≤ readBufferSize)
    (hsplit : xs.flatten ++ group = r ++ y) :
    (∃ response, c.serveRead .returns fs group =
        some (.answered response y (some conn.init)) ∧
      (y = [] → Mappable fs (requestPath r) ∧
        freshResponse .returns fs conn r = some response)) ∨
    (c.serveRead .returns fs group = some .dropped ∧
      (y = [] → ¬ Mappable fs (requestPath r))) := by
  obtain ⟨h, hhead, hlength, hlinger⟩ := hr
  have hcall := Parser.readRequest_pieces group hfit hp.reads hp.state
  have hout := Parser.readRequest_fresh hfit
  rw [← hcall, hsplit, parseHead_append y hhead] at hout
  obtain ⟨d, hend, -, hrun⟩ := hout
  rw [if_pos hlength] at hrun
  have hd : d.linger = true := hend.represents.linger.trans hlinger
  have hidx : c.writeIdx = 0 := by rw [hp.conn_eq]; rfl
  have hreal : c.realFile = Vector.replicate filenameLen 0 := by
    rw [hp.conn_eq]
    rfl
  have hinit : c.init = conn.init := by rw [hp.conn_eq]; rfl
  have hparser : c.withParser d = conn.init.withParser d := by rw [hp.conn_eq]; rfl
  have hpath : y = [] →
      docRoot ++ (c.withParser d).urlText.take targetRoom = requestPath r := by
    rintro rfl
    rw [hparser, urlText_of_reach hrun conn xs hfit hp.reads, hsplit, List.append_nil]
    rfl
  obtain ⟨hmapped, hfailed⟩ := serveRead_of_doRequest fs hidx hreal hrun hd rfl
  by_cases hmappable :
      Mappable fs (docRoot ++ (c.withParser d).urlText.take targetRoom)
  · left
    obtain ⟨response, hserve⟩ := hmapped hmappable
    rw [hend.unparsed, List.nil_append, hinit] at hserve
    refine ⟨response, hserve, fun hy => ⟨hpath hy ▸ hmappable, ?_⟩⟩
    subst hy
    have hread : (c.parser.receive group).readRequest =
        (conn.init.parser.receive r).readRequest := by
      rw [hcall, hsplit, List.append_nil]
      rfl
    have hsame : c.serveRead .returns fs group = conn.init.serveRead .returns fs r := by
      rw [hp.conn_eq]
      exact serveRead_congr hread
    rw [freshResponse, ← hsame, hserve]
  · right
    exact ⟨hfailed hmappable, fun hy => hpath hy ▸ hmappable⟩

/-- What a kept connection makes of the rest of its input. -/
theorem Pending.serve_iff {r : Bytes} {requests groups : List Bytes}
    {out : List (Bytes × Bytes)} (hp : Pending c conn xs r)
    (hrequests : ∀ r' ∈ r :: requests, IsKeepAliveRequest r')
    (hgroups : ∀ g ∈ groups, g ≠ [])
    (hbytes : xs.flatten ++ groups.flatten = (r :: requests).flatten)
    (hfit : xs.flatten.length ≤ readBufferSize)
    (hserve : c.serve .returns fs groups = some out) :
    (out.map (fun x => some x.1) =
          (r :: requests).map (freshResponse .returns fs conn) ∧
        ∀ x ∈ out, x.2 = []) ↔
      InStep xs.flatten.length (r :: requests) groups ∧
        ∀ r' ∈ r :: requests, Mappable fs (requestPath r') := by
  induction groups generalizing c xs r requests out with
  | nil =>
      have hlen := congrArg List.length hbytes
      have hlt := hp.lt
      simp only [List.flatten_nil, List.append_nil, List.flatten_cons,
        List.length_append] at hlen
      omega
  | cons g gs ih =>
      have hgs : ∀ g' ∈ gs, g' ≠ [] :=
        fun g' hg' => hgroups g' (List.mem_cons_of_mem _ hg')
      have hr := hrequests r (by simp)
      have hlt := hp.lt
      rw [serve] at hserve
      split_ifs at hserve with hroom
      rw [hp.readIdx hfit] at hroom
      have hroom' : (xs.flatten ++ g).length ≤ readBufferSize := by
        rwa [List.length_append]
      rw [List.flatten_cons, ← List.append_assoc, List.flatten_cons] at hbytes
      by_cases hshort : (xs.flatten ++ g).length < r.length
      · obtain ⟨y, hy, hrest⟩ : ∃ y, xs.flatten ++ g ++ y = r ∧ y ≠ [] := by
          rcases List.append_eq_append_iff.mp hbytes with ⟨y, hy, -⟩ |
            ⟨y, hy, -⟩
          · refine ⟨y, hy.symm, fun hnil => ?_⟩
            rw [hy, hnil, List.append_nil] at hshort
            exact lt_irrefl _ hshort
          · rw [hy, List.length_append] at hshort
            omega
        obtain ⟨d, hread, hd⟩ := hp.serveRead_lt fs hr hroom' hy hrest
        rw [hread] at hserve
        have hflat : (xs ++ [g]).flatten = xs.flatten ++ g := by simp
        have hnext := ih hd hrequests hgs (by rw [hflat, hbytes]; rfl)
          (by rw [hflat]; exact hroom') hserve
        rw [hflat, List.length_append] at hnext
        rw [List.length_append] at hshort
        rw [hnext, inStep_cons_iff_of_lt hshort]
      · obtain ⟨y, hy, hrest⟩ : ∃ y, xs.flatten ++ g = r ++ y ∧
            requests.flatten = y ++ gs.flatten := by
          rcases List.append_eq_append_iff.mp hbytes with ⟨y, hy, hrest⟩ |
            ⟨y, hy, hrest⟩
          · have hnil : y = [] := by
              have hlen := congrArg List.length hy
              rw [List.length_append] at hlen
              exact List.length_eq_zero_iff.mp (by omega)
            subst hnil
            exact ⟨[], by rw [List.append_nil, hy, List.append_nil],
              hrest.symm⟩
          · exact ⟨y, hy, hrest⟩
        have hlen := congrArg List.length hy
        rw [List.length_append, List.length_append] at hlen
        have hgt : y ≠ [] → r.length < xs.flatten.length + g.length := by
          intro hne
          have hpos := List.length_pos_iff.mpr hne
          omega
        rcases hp.serveRead_ge fs hr hroom' hy with
          ⟨response, hread, hresponse⟩ | ⟨hread, hfailed⟩
        · rw [hread] at hserve
          obtain ⟨out', hout', rfl⟩ := Option.map_eq_some_iff.mp hserve
          by_cases hnil : y = []
          · subst hnil
            obtain ⟨hmappable, hfresh⟩ := hresponse rfl
            rw [List.length_nil, Nat.add_zero] at hlen
            rw [inStep_cons_iff_of_eq hlt hlen]
            rw [List.nil_append] at hrest
            simp only [List.map_cons, hfresh, List.cons.injEq, true_and,
              List.mem_cons, forall_eq_or_imp, hmappable]
            cases requests with
            | nil =>
                have hgs' : gs = [] := by
                  cases gs with
                  | nil => rfl
                  | cons g' gs =>
                      rw [List.flatten_nil, List.flatten_cons] at hrest
                      have hg' := List.append_eq_nil_iff.mp hrest.symm
                      exact absurd hg'.1 (hgs g' (by simp))
                subst hgs'
                obtain rfl := Option.some.inj hout'
                simp [InStep]
            | cons r' requests =>
                have hr' := hrequests r' (by simp)
                exact ih (pending_init conn hr'.ne_nil)
                  (fun q hq => hrequests q (List.mem_cons_of_mem _ hq)) hgs
                  hrest.symm (by simp) hout'
          · constructor
            · rintro ⟨-, hall⟩
              exact absurd (hall (response, y) (by simp)) hnil
            · rintro ⟨hstep, -⟩
              exact absurd hstep (not_inStep_of_gt hlt (hgt hnil))
        · rw [hread] at hserve
          obtain rfl := Option.some.inj hserve
          constructor
          · rintro ⟨hout, -⟩
            cases hout
          · rintro ⟨hstep, hmappable⟩
            by_cases hnil : y = []
            · exact absurd (hmappable r (by simp)) (hfailed hnil)
            · exact absurd hstep (not_inStep_of_gt hlt (hgt hnil))

/-- Where control does not come back from `add_headers`, nothing is answered. -/
theorem eq_nil_of_serve {groups : List Bytes} {out : List (Bytes × Bytes)}
    (h : c.serve (fun _ => none) fs groups = some out) : out = [] := by
  induction groups generalizing c with
  | nil => exact (Option.some.inj h).symm
  | cons g gs ih =>
      rw [serve] at h
      split_ifs at h
      split at h
      next => cases h
      next d _ => exact ih h
      next response discarded d hread =>
        exact absurd hread (serveRead_ne_answered _ _ _ _)
      next response discarded hread =>
        exact absurd hread (serveRead_ne_answered _ _ _ _)
      next => exact (Option.some.inj h).symm

/-- Let complete requests without a body, each of which asks to keep the connection,
arrive in any groups of bytes that fit into the read buffer.  What C++ says of the
code gives one response to each of them only if there is none: the first response
comes to the end of `add_headers`.  Where control comes back from there, the
connection gives one response to each request, in order and as a fresh connection
would, and discards no byte, exactly if every request ends where a read ends and
every file that is answered with can be mapped. -/
theorem onePerRequest_iff (conn : HttpConn)
    {requests groups : List Bytes} {out : List (Bytes × Bytes)}
    (hrequests : ∀ r ∈ requests, IsKeepAliveRequest r)
    (hgroups : ∀ g ∈ groups, g ≠ [])
    (hbytes : groups.flatten = requests.flatten)
    (hserve : conn.init.serve .returns fs groups = some out) :
    ((∀ f, OnePerRequest f fs conn requests groups) ↔ requests = []) ∧
    (OnePerRequest .returns fs conn requests groups ↔
      EndsTogether requests groups ∧ ∀ r ∈ requests, Mappable fs (requestPath r)) := by
  cases requests with
  | nil =>
      have hnil : groups = [] := by
        cases groups with
        | nil => rfl
        | cons g groups =>
            rw [List.flatten_nil, List.flatten_cons] at hbytes
            exact absurd (List.append_eq_nil_iff.mp hbytes).1
              (hgroups g (by simp))
      subst hnil
      have hone (f : FlowOff) : OnePerRequest f fs conn [] [] := ⟨[], rfl, rfl, by simp⟩
      simp [hone, endsTogether_iff_inStep, InStep]
  | cons r requests =>
      constructor
      · simp only [reduceCtorEq, iff_false]
        intro hall
        obtain ⟨out, hout, hmap, -⟩ := hall fun _ => none
        rw [eq_nil_of_serve hout] at hmap
        cases hmap
      · have hiff := (pending_init conn (hrequests r (by simp)).ne_nil).serve_iff
          hrequests hgroups hbytes (by simp) hserve
        rw [List.flatten_nil, List.length_nil] at hiff
        rw [endsTogether_iff_inStep, ← hiff]
        constructor
        · rintro ⟨out', hout', hone⟩
          obtain rfl := Option.some.inj (hserve.symm.trans hout')
          exact hone
        · exact fun hone => ⟨out, hserve, hone⟩

/-- A request for `/` that keeps the connection. -/
def rootRequest : Bytes :=
  ascii "GET / HTTP/1.1\r\nConnection: keep-alive\r\n\r\n"

theorem isKeepAliveRequest_rootRequest : IsKeepAliveRequest rootRequest :=
  ⟨⟨some (ascii "/"), 4, none, true, 0⟩, by decide +kernel, by decide, rfl⟩

/-- An empty document root. -/
def emptySite : FileSystem := fun _ => none

theorem onePerRequest_two_reads :
    OnePerRequest .returns emptySite HttpConn.blank [rootRequest, rootRequest]
        [rootRequest, rootRequest] ∧
      ¬ ∀ f, OnePerRequest f emptySite HttpConn.blank [rootRequest, rootRequest]
        [rootRequest, rootRequest] := by
  have hsome : (HttpConn.blank.init.serve .returns emptySite
      [rootRequest, rootRequest]).isSome = true := by
    decide +kernel
  obtain ⟨out, hserve⟩ := Option.isSome_iff_exists.mp hsome
  have hrequests : ∀ r ∈ [rootRequest, rootRequest],
      IsKeepAliveRequest r := by
    simp [isKeepAliveRequest_rootRequest]
  obtain ⟨hnever, hreturns⟩ := onePerRequest_iff HttpConn.blank hrequests
    (fun r hr => (hrequests r hr).ne_nil) rfl hserve
  refine ⟨hreturns.mpr ⟨fun front hfront => ⟨front, hfront, rfl⟩, ?_⟩, ?_⟩
  · intro r _ file hfile
    cases hfile
  · rw [hnever]
    exact List.cons_ne_nil _ _

/-- Two requests in one read: even where control comes back from `add_headers`, the
first is answered and the second is lost. -/
theorem second_request_lost :
    IsKeepAliveRequest rootRequest ∧
      (∃ out, HttpConn.blank.init.serve .returns emptySite
          [rootRequest ++ rootRequest] = some out ∧ out.map Prod.snd = [rootRequest]) ∧
      ¬ OnePerRequest .returns emptySite HttpConn.blank [rootRequest, rootRequest]
        [rootRequest ++ rootRequest] := by
  have hrun : (HttpConn.blank.init.serve .returns emptySite
      [rootRequest ++ rootRequest]).map (List.map Prod.snd) =
        some [rootRequest] := by
    decide +kernel
  obtain ⟨out, hserve, hout⟩ := Option.map_eq_some_iff.mp hrun
  refine ⟨isKeepAliveRequest_rootRequest, ⟨out, hserve, hout⟩, ?_⟩
  rintro ⟨out', hserve', hmap, -⟩
  obtain rfl := Option.some.inj (hserve.symm.trans hserve')
  have hlen := congrArg List.length hmap
  have hlen' := congrArg List.length hout
  simp only [List.length_map, List.length_cons, List.length_nil] at hlen hlen'
  omega

end HttpConn

end BackendLab.Proactor
