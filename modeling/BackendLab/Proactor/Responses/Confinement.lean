import BackendLab.Proactor.Connection.Response
import BackendLab.Proactor.Parsing.Delivery
import BackendLab.Support.LexicalPath

/-!
# The path handed to `stat`

`do_request` joins the document root with whatever `m_url` points at, cut to
the room left in `m_real_file`.  The first part of this module computes that
path from the bytes of the request; the second says when it stays below the
document root.
-/

namespace BackendLab.Proactor

open Support

/-- The number of bytes of `m_url` that `do_request` copies. -/
def targetRoom : ℕ := filenameLen - docRoot.length - 1

namespace HttpConn

variable {c : HttpConn}

theorem zero_notMem_urlText (c : HttpConn) : (0 : UInt8) ∉ c.urlText := by
  unfold urlText
  split
  · simp
  · exact zero_notMem_lineText _

theorem length_strncpyBytes (s : Bytes) (n : ℕ) :
    (strncpyBytes s n).length = n := by
  simp only [strncpyBytes, List.length_append, List.length_take,
    List.length_replicate]
  omega

theorem toList_joinPath (h : c.realFile = Vector.replicate filenameLen 0) :
    c.joinPath.toList =
      docRoot ++ (strncpyBytes c.urlText targetRoom ++ [0]) := by
  have hroot : docRoot.length = 11 := by decide
  have hlen := length_strncpyBytes c.urlText targetRoom
  have hroom : targetRoom = 188 := by decide
  have hfirst : (store c.realFile 0 (docRoot ++ [0])).toList =
      docRoot ++ List.replicate 189 0 := by
    rw [toList_store _ (by rw [List.length_append, hroot]; decide), h]
    simp only [Vector.toList_replicate]
    decide +kernel
  unfold joinPath
  rw [← targetRoom]
  simp only
  rw [toList_store _ (by rw [hlen, hroot]; decide), hfirst, hlen,
    List.take_left, hroom, hroot, ← List.append_assoc]
  congr 1

/-- `m_real_file` holds the document root followed by as much of the target as
fits, with a terminator. -/
theorem stringAt_joinPath (h : c.realFile = Vector.replicate filenameLen 0) :
    StringAt c.joinPath.toList 0 (docRoot ++ c.urlText.take targetRoom) := by
  rw [toList_joinPath h]
  have hnul : (0 : UInt8) ∉ docRoot ++ c.urlText.take targetRoom := by
    intro hmem
    rcases List.mem_append.mp hmem with hroot | hurl
    · revert hroot
      decide
    · exact c.zero_notMem_urlText (List.mem_of_mem_take hurl)
  refine ⟨hnul, ?_⟩
  obtain ⟨k, hk⟩ : ∃ k, List.replicate (targetRoom - c.urlText.length)
      (0 : UInt8) ++ [0] = 0 :: List.replicate k 0 :=
    ⟨targetRoom - c.urlText.length, by
      rw [← List.replicate_succ', List.replicate_succ]⟩
  refine ⟨List.replicate k 0, ?_⟩
  simp only [strncpyBytes, List.drop_zero, List.append_assoc, hk]

theorem path_joinPath (h : c.realFile = Vector.replicate filenameLen 0) :
    cstr c.joinPath.toList 0 = docRoot ++ c.urlText.take targetRoom :=
  (stringAt_joinPath h).cstr_eq

theorem doRequest_path (fs : FileSystem)
    (h : c.realFile = Vector.replicate filenameLen 0) :
    (c.doRequest fs).2.path = docRoot ++ c.urlText.take targetRoom := by
  rw [← path_joinPath h]
  unfold doRequest
  simp only
  repeat' split
  all_goals rfl

end HttpConn

/-! ## The target as the request gives it -/

/-- The text that `m_url` points at when `do_request` is called for the request
at the start of `s`.  A negative length makes `parse_content` store a NUL in
front of the body, and one that lands in the target shortens it. -/
def servedTarget (s : Bytes) : Bytes :=
  match parseHead s with
  | .complete h rest =>
      let u := h.url.getD []
      let stored : ℤ := s.length - rest.length + h.contentLength
      if h.contentLength < 0 ∧ (h.urlAt : ℤ) ≤ stored then
        u.take (stored - h.urlAt).toNat
      else u
  | _ => []

theorem head?_of_resource {u path : Bytes} (h : resource u = some path) :
    path.head? = some slash := by
  unfold resource at h
  split_ifs at h with habs hhead
  · obtain ⟨p, -, rfl⟩ := Option.map_eq_some_iff.mp h
    rfl
  · obtain rfl := Option.some.inj h
    exact hhead

theorem head?_of_requestTarget {t path : Bytes}
    (h : requestTarget t = some path) : path.head? = some slash := by
  unfold requestTarget at h
  repeat' split at h
  all_goals first
    | cases h
    | exact head?_of_resource h

theorem exists_url_of_parseHead {s rest : Bytes} {h : Head}
    (hs : parseHead s = .complete h rest) :
    ∃ u, h.url = some u ∧ u.head? = some slash := by
  obtain ⟨r, u, ls, e, -, htarget, -, rfl, -⟩ :=
    parseHead_eq_complete_iff.mp hs
  exact ⟨u, by rw [Head.addHeaders_url]; rfl, head?_of_requestTarget htarget⟩

/-- When `do_request` is reached, `m_url` is the target that the request
serves. -/
theorem Parser.Reaches.servedTarget {s : Bytes} {stored : Option ℤ}
    {d : Parser} (hr : Parser.Reaches s stored d) :
    ∃ p, d.url = some p ∧ cstr d.mem p = servedTarget s := by
  obtain ⟨h, rest, hs, hcases⟩ := hr
  obtain ⟨u, hu, -⟩ := exists_url_of_parseHead hs
  have hat : ∀ e : Parser, e.Carries h →
      e.url = some h.urlAt ∧ StringAt e.mem h.urlAt u := by
    intro e he
    have hpoints := he.url
    have hurl := he.urlAt (by simp [hu])
    rw [hu] at hpoints
    obtain ⟨p, hp, hstring, -⟩ := hpoints
    obtain rfl : p = h.urlAt := Option.some.inj (hp.symm.trans hurl)
    exact ⟨hurl, hstring⟩
  unfold Proactor.servedTarget
  simp only [hs, hu, Option.getD_some]
  by_cases hneg : h.contentLength < 0
  · rcases hcases with ⟨hzero, -⟩ | ⟨hpos, -⟩ | ⟨-, e, he, hstart, -, rfl⟩
    · omega
    · omega
    · obtain ⟨hurl, hstring⟩ := hat e he
      have hstart' : (s.length : ℤ) - rest.length = e.startLine := by omega
      rw [hstart']
      by_cases hin : (0 : ℤ) ≤ e.startLine + h.contentLength
      · rw [if_pos hin]
        refine ⟨h.urlAt, hurl, ?_⟩
        rw [Parser.cut_mem, (hstring.set_zero _).cstr_eq]
        by_cases hle : (h.urlAt : ℤ) ≤ e.startLine + h.contentLength
        · rw [if_pos (by omega), if_pos ⟨hneg, hle⟩]
          congr 1
          omega
        · rw [if_neg (by omega), if_neg (fun h => hle h.2)]
      · rw [if_neg hin, if_neg (by omega)]
        exact ⟨h.urlAt, hurl, hstring.cstr_eq⟩
  · have hd : d.Carries h := by
      rcases hcases with ⟨-, -, hd⟩ | ⟨-, -, hd⟩ | ⟨hneg', -⟩
      · exact hd
      · exact hd
      · exact absurd hneg' hneg
    obtain ⟨hurl, hstring⟩ := hat d hd
    rw [if_neg (fun h => hneg h.1)]
    exact ⟨h.urlAt, hurl, hstring.cstr_eq⟩

section Reached

variable {last : Bytes} {e d : Parser} {stored : Option ℤ}
  (hreach : (e.receive last).readRequest = (.doRequest stored, d))

include hreach

theorem HttpConn.processRead_of_reach (conn : HttpConn) (fs : FileSystem) :
    (conn.init.withParser (e.receive last)).processRead fs =
      (conn.init.withParser d).doRequest fs := by
  simp only [HttpConn.processRead, HttpConn.withParser, hreach]

theorem HttpConn.urlText_of_reach (conn : HttpConn) (pieces : List Bytes)
    (hfit : (pieces.flatten ++ last).length ≤ readBufferSize)
    (he : Parser.fresh.afterReads pieces = some e) :
    (conn.init.withParser d).urlText =
      servedTarget (pieces.flatten ++ last) := by
  have hout := Parser.readRequest_callOutcome hfit he
  rw [hreach] at hout
  obtain ⟨p, hp, htext⟩ := Parser.Reaches.servedTarget hout
  simp only [HttpConn.urlText, HttpConn.withParser, hp, htext]

end Reached

section AtOnce

variable {s rest u : Bytes} {h : Head} (hfit : s.length ≤ readBufferSize)
  (hs : parseHead s = .complete h rest) (hzero : h.contentLength = 0)
  (hu : h.url = some u)

include hfit hs hzero hu

/-- The target of a request without a body that arrives at once. -/
theorem HttpConn.urlText_of_parseHead {stored : Option ℤ} {d : Parser}
    (hreach : (Parser.fresh.receive s).readRequest = (.doRequest stored, d))
    (conn : HttpConn) : (conn.init.withParser d).urlText = u := by
  have hserved : servedTarget s = u := by
    simp only [servedTarget, hs, hu, Option.getD_some]
    exact if_neg fun hneg => by omega
  rw [HttpConn.urlText_of_reach hreach conn [] hfit rfl, List.flatten_nil,
    List.nil_append, hserved]

theorem HttpConn.path_processRead (conn : HttpConn) (fs : FileSystem) :
    ((conn.init.withParser (Parser.fresh.receive s)).processRead fs).2.path =
      docRoot ++ u.take targetRoom := by
  obtain ⟨d, hreach⟩ := Parser.exists_doRequest hfit hs hzero
  rw [HttpConn.processRead_of_reach hreach, HttpConn.doRequest_path _ rfl,
    HttpConn.urlText_of_parseHead hfit hs hzero hu hreach]

end AtOnce

theorem take_eq_nil_or_head? {t : Bytes} (h : t.head? = some slash) (n : ℕ) :
    t.take n = [] ∨ (t.take n).head? = some slash := by
  cases n with
  | zero => exact Or.inl rfl
  | succ n =>
      cases t with
      | nil => simp at h
      | cons b t => exact Or.inr h

/-- The target is empty or starts with a slash. -/
theorem servedTarget_head (s : Bytes) :
    servedTarget s = [] ∨ (servedTarget s).head? = some slash := by
  unfold servedTarget
  split
  next h rest hs =>
    obtain ⟨u, hu, hhead⟩ := exists_url_of_parseHead hs
    simp only [hu, Option.getD_some]
    split_ifs
    · exact take_eq_nil_or_head? hhead _
    · exact Or.inr hhead
  · exact Or.inl rfl

/-! ## Below the document root -/

def normalize (path : Bytes) : NormalPath Bytes :=
  NormalPath.walk ⟨0, []⟩ (components path)

/-- The path, normalised component by component, is the document root or lies
below it. -/
def Confined (path : Bytes) : Prop :=
  (normalize path).IsBelow (normalize docRoot).names.reverse

/-- The components of the target, counted from inside the document root, never
climb above the working directory, and when they have left the document root
they have come back through its name. -/
def StaysInside (target : Bytes) : Prop :=
  NormalPath.staysBelow (ascii "resources") 1 true
    (components (target.take targetRoom)) = true

theorem confined_append_iff {t : Bytes}
    (ht : t = [] ∨ t.head? = some slash) :
    Confined (docRoot ++ t.take targetRoom) ↔ StaysInside t := by
  have hroot : (normalize docRoot).names.reverse = [ascii "resources"] := by
    decide
  have hwalk : normalize (docRoot ++ t.take targetRoom) =
      NormalPath.walk ⟨0, [ascii "resources"]⟩
        (components (t.take targetRoom)) := by
    have hcut : t.take targetRoom = [] ∨
        (t.take targetRoom).head? = some slash := by
      rcases ht with rfl | ht
      · exact Or.inl rfl
      · exact take_eq_nil_or_head? ht _
    have hstart : NormalPath.walk (⟨0, []⟩ : NormalPath Bytes)
        (components docRoot) = ⟨0, [ascii "resources"]⟩ := by
      decide
    rw [normalize, components_append hcut, NormalPath.walk_append, hstart]
  rw [Confined, hroot, hwalk]
  exact NormalPath.walk_isBelow_iff _ [ascii "resources"] _ true (by simp)

/-- For every request, however it is delivered: when `do_request` is reached,
the path it hands to `stat` and `open` stays below the document root exactly if
the target does. -/
theorem confined_iff_staysInside (conn : HttpConn) (fs : FileSystem)
    (pieces : List Bytes) (last : Bytes) {e d : Parser} {stored : Option ℤ}
    (hfit : (pieces.flatten ++ last).length ≤ readBufferSize)
    (he : Parser.fresh.afterReads pieces = some e)
    (hreach : (e.receive last).readRequest = (.doRequest stored, d)) :
    Confined ((conn.init.withParser (e.receive last)).processRead fs).2.path ↔
      StaysInside (servedTarget (pieces.flatten ++ last)) := by
  rw [HttpConn.processRead_of_reach hreach conn fs,
    HttpConn.doRequest_path fs rfl,
    HttpConn.urlText_of_reach hreach conn pieces hfit he]
  exact confined_append_iff (servedTarget_head _)

theorem confined_index :
    Confined ((HttpConn.blank.init.withParser (Parser.fresh.receive
      (ascii "GET /a/../index.html HTTP/1.1\r\n\r\n"))).processRead
        (fun _ => none)).2.path := by
  have hhead : parseHead (ascii "GET /a/../index.html HTTP/1.1\r\n\r\n") =
      .complete ⟨some (ascii "/a/../index.html"), 4, none, false, 0⟩ [] := by
    decide +kernel
  obtain ⟨d, hreach⟩ := Parser.exists_doRequest (by decide) hhead rfl
  refine (confined_iff_staysInside HttpConn.blank (fun _ => none) []
    (ascii "GET /a/../index.html HTTP/1.1\r\n\r\n") (by decide) rfl
    hreach).mpr ?_
  unfold StaysInside
  decide +kernel

/-- Two steps up from the document root lead out of it. -/
theorem not_confined_parent :
    (Parser.fresh.receive
        (ascii "GET /../../etc/passwd HTTP/1.1\r\n\r\n")).readRequest.1 =
        .doRequest none ∧
      ((HttpConn.blank.init.withParser (Parser.fresh.receive
        (ascii "GET /../../etc/passwd HTTP/1.1\r\n\r\n"))).processRead
          (fun _ => none)).2.path = ascii "./resources/../../etc/passwd" ∧
      ¬ Confined (ascii "./resources/../../etc/passwd") := by
  have hhead : parseHead (ascii "GET /../../etc/passwd HTTP/1.1\r\n\r\n") =
      .complete ⟨some (ascii "/../../etc/passwd"), 4, none, false, 0⟩ [] := by
    decide +kernel
  have hfit : (ascii "GET /../../etc/passwd HTTP/1.1\r\n\r\n").length ≤
      readBufferSize := by
    decide +kernel
  obtain ⟨d, hreach⟩ := Parser.exists_doRequest hfit hhead rfl
  refine ⟨by rw [hreach], ?_, ?_⟩
  · rw [HttpConn.path_processRead hfit hhead rfl rfl]
    decide
  · rintro ⟨hups, -⟩
    revert hups
    decide

end BackendLab.Proactor
