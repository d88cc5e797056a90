import BackendLab.Proactor.Responses.Confinement
import Mathlib.Data.List.TakeDrop

/-!
# The file looked up and the file requested

`m_real_file` has room for a part of the target only, and `strncpy` does not
say when it has cut one off.  This module compares the path that `do_request`
hands to `stat` with the target that stands in the request line.
-/

namespace BackendLab.Proactor

open Support

/-- The path that the request line at the start of `s` asks for. -/
def requestedTarget (s : Bytes) : Bytes :=
  match parseHead s with
  | .complete h _ => h.url.getD []
  | _ => []

/-- A negative length lets `parse_content` store its NUL inside the target. -/
def CutsTarget (s : Bytes) : Prop :=
  match parseHead s with
  | .complete h rest =>
      let stored : ℤ := s.length - rest.length + h.contentLength
      h.contentLength < 0 ∧ h.urlAt ≤ stored ∧
        stored < h.urlAt + (requestedTarget s).length
  | _ => False

/-- There is a file with this name that the server hands out. -/
def Servable (fs : FileSystem) (path : Bytes) : Prop :=
  ∃ file, fs path = some file ∧ othersMayRead file.mode = true ∧
    isDirectory file.mode = false

/-- The results of `do_request` that are answered with an error page. -/
def HttpCode.IsError : HttpCode → Prop
  | .badRequest | .noResource | .forbiddenRequest | .internalError => True
  | .noRequest | .getRequest | .fileRequest | .closedConnection => False

/-- The answer is an error, or `m_real_file` holds the document root followed by
the whole target, with its terminator. -/
def LooksUp (target : Bytes) (code : HttpCode) (c : HttpConn) : Prop :=
  code.IsError ∨ StringAt c.realFile.toList 0 (docRoot ++ target)

theorem servedTarget_isPrefix (s : Bytes) :
    servedTarget s <+: requestedTarget s := by
  unfold servedTarget requestedTarget
  cases hs : parseHead s with
  | complete h rest =>
      simp only
      split_ifs
      · exact List.take_prefix _ _
      · exact List.prefix_rfl
  | incomplete h rest => exact List.prefix_rfl
  | bad => exact List.prefix_rfl

theorem servedTarget_eq_iff (s : Bytes) :
    servedTarget s = requestedTarget s ↔ ¬ CutsTarget s := by
  unfold servedTarget CutsTarget requestedTarget
  cases hs : parseHead s with
  | complete h rest =>
      simp only
      split_ifs with hcut
      · rw [List.take_eq_self_iff]
        omega
      · exact iff_of_true rfl fun hcuts => hcut ⟨hcuts.1, hcuts.2.1⟩
  | incomplete h rest => exact iff_of_true rfl not_false
  | bad => exact iff_of_true rfl not_false

namespace HttpConn

variable {c : HttpConn}

theorem doRequest_realFile (fs : FileSystem) :
    (c.doRequest fs).2.realFile = c.joinPath := by
  unfold doRequest
  simp only
  repeat' split
  all_goals rfl

theorem doRequest_of_servable {fs : FileSystem}
    (h : c.realFile = Vector.replicate filenameLen 0)
    (hserves : Servable fs (docRoot ++ c.urlText.take targetRoom)) :
    (c.doRequest fs).1 = .fileRequest := by
  rw [← path_joinPath h] at hserves
  obtain ⟨file, hfile, hread, hdir⟩ := hserves
  simp [doRequest, path, hfile, hread, hdir]

/-- `do_request` answers with an error exactly if there is nothing to serve. -/
theorem isError_doRequest_iff (fs : FileSystem)
    (h : c.realFile = Vector.replicate filenameLen 0) :
    (c.doRequest fs).1.IsError ↔
      ¬ Servable fs (docRoot ++ c.urlText.take targetRoom) := by
  constructor
  · intro herror hserves
    rw [doRequest_of_servable h hserves] at herror
    exact herror
  · intro hnot
    rw [← path_joinPath h] at hnot
    unfold doRequest
    simp only [path]
    cases hfile : fs (cstr c.joinPath.toList 0) with
    | none => exact trivial
    | some file =>
        simp only
        split_ifs with hread hdir
        · exact trivial
        · exact absurd ⟨file, hfile, hread, by simpa using hdir⟩ hnot
        · exact trivial

end HttpConn

theorem take_servedTarget_eq_iff (s : Bytes) :
    (servedTarget s).take targetRoom = requestedTarget s ↔
      (requestedTarget s).length ≤ targetRoom ∧ ¬ CutsTarget s := by
  rw [← servedTarget_eq_iff]
  constructor
  · intro heq
    have hroom : ((servedTarget s).take targetRoom).length ≤ targetRoom :=
      List.length_take_le _ _
    rw [heq] at hroom
    have hinitial : requestedTarget s <+: servedTarget s := by
      rw [← heq]
      exact List.take_prefix _ _
    exact ⟨hroom, (servedTarget_isPrefix s).eq_of_length_le hinitial.length_le⟩
  · rintro ⟨hroom, heq⟩
    rw [heq, List.take_of_length_le hroom]

/-- For every request that reaches `do_request`, however it is delivered: the
file looked up is the one requested, or the answer is an error, exactly if the
target fits into the room left and no NUL falls into it, or the shortened path
names nothing that can be served. -/
theorem looksUp_iff (conn : HttpConn) (fs : FileSystem) (pieces : List Bytes)
    (last : Bytes) {e d : Parser} {stored : Option ℤ}
    (hfit : (pieces.flatten ++ last).length ≤ readBufferSize)
    (he : Parser.fresh.afterReads pieces = some e)
    (hreach : (e.receive last).readRequest = (.doRequest stored, d)) :
    LooksUp (requestedTarget (pieces.flatten ++ last))
        ((conn.init.withParser (e.receive last)).processRead fs).1
        ((conn.init.withParser (e.receive last)).processRead fs).2 ↔
      ((requestedTarget (pieces.flatten ++ last)).length ≤ targetRoom ∧
          ¬ CutsTarget (pieces.flatten ++ last)) ∨
        ¬ Servable fs (docRoot ++
          (servedTarget (pieces.flatten ++ last)).take targetRoom) := by
  have hread := HttpConn.processRead_of_reach hreach conn fs
  have hurl := HttpConn.urlText_of_reach hreach conn pieces hfit he
  have hstring : StringAt (conn.init.withParser d).joinPath.toList 0
      (docRoot ++ (servedTarget (pieces.flatten ++ last)).take targetRoom) := by
    rw [← hurl]
    exact HttpConn.stringAt_joinPath rfl
  have hpath : StringAt (conn.init.withParser d).joinPath.toList 0
      (docRoot ++ requestedTarget (pieces.flatten ++ last)) ↔
      (servedTarget (pieces.flatten ++ last)).take targetRoom =
        requestedTarget (pieces.flatten ++ last) := by
    constructor
    · intro hwhole
      exact List.append_cancel_left (hstring.cstr_eq.symm.trans hwhole.cstr_eq)
    · intro heq
      rwa [heq] at hstring
  rw [hread, LooksUp, HttpConn.isError_doRequest_iff fs rfl, hurl,
    HttpConn.doRequest_realFile, hpath, take_servedTarget_eq_iff, or_comm]

/-- A file system in which every path names the same small file. -/
def everyPath : FileSystem :=
  fun _ => some ⟨0o100644, ascii "x", true⟩

theorem looksUp_index :
    LooksUp (ascii "/index.html")
      ((HttpConn.blank.init.withParser (Parser.fresh.receive
        (ascii "GET /index.html HTTP/1.1\r\n\r\n"))).processRead everyPath).1
      ((HttpConn.blank.init.withParser (Parser.fresh.receive
        (ascii "GET /index.html HTTP/1.1\r\n\r\n"))).processRead
          everyPath).2 := by
  have hhead : parseHead (ascii "GET /index.html HTTP/1.1\r\n\r\n") =
      .complete ⟨some (ascii "/index.html"), 4, none, false, 0⟩ [] := by
    decide +kernel
  obtain ⟨d, hreach⟩ := Parser.exists_doRequest (by decide) hhead rfl
  have htarget : requestedTarget
      (ascii "GET /index.html HTTP/1.1\r\n\r\n") = ascii "/index.html" := by
    decide +kernel
  have hserved : servedTarget (ascii "GET /index.html HTTP/1.1\r\n\r\n") =
      requestedTarget (ascii "GET /index.html HTTP/1.1\r\n\r\n") := by
    decide +kernel
  have hiff := looksUp_iff HttpConn.blank everyPath []
    (ascii "GET /index.html HTTP/1.1\r\n\r\n") (by decide) rfl hreach
  rw [List.flatten_nil, List.nil_append, htarget] at hiff
  exact hiff.mpr (Or.inl ⟨by decide, (servedTarget_eq_iff _).mp hserved⟩)

/-- A target one byte longer than the room. -/
def longTarget : Bytes :=
  slash :: List.replicate targetRoom 97

def longRequest : Bytes :=
  ascii "GET " ++ longTarget ++ ascii " HTTP/1.1\r\n\r\n"

/-- A file system with one file, whose name is one byte shorter. -/
def shorterName : FileSystem :=
  fun path =>
    if path = docRoot ++ longTarget.take targetRoom then
      some ⟨0o100644, ascii "x", true⟩
    else none

/-- The target is cut by one byte, and the file of that shorter name is
served. -/
theorem not_looksUp_longTarget :
    (Parser.fresh.receive longRequest).readRequest.1 = .doRequest none ∧
      requestedTarget longRequest = longTarget ∧
      ((HttpConn.blank.init.withParser (Parser.fresh.receive
        longRequest)).processRead shorterName).1 = .fileRequest ∧
      ((HttpConn.blank.init.withParser (Parser.fresh.receive
        longRequest)).processRead shorterName).2.path =
          docRoot ++ longTarget.take targetRoom ∧
      ¬ LooksUp longTarget
        ((HttpConn.blank.init.withParser (Parser.fresh.receive
          longRequest)).processRead shorterName).1
        ((HttpConn.blank.init.withParser (Parser.fresh.receive
          longRequest)).processRead shorterName).2 := by
  have hhead : parseHead longRequest =
      .complete ⟨some longTarget, 4, none, false, 0⟩ [] := by
    decide +kernel
  have hfit : longRequest.length ≤ readBufferSize := by decide +kernel
  obtain ⟨d, hreach⟩ := Parser.exists_doRequest hfit hhead (by decide)
  have htarget : requestedTarget longRequest = longTarget := by
    simp only [requestedTarget, hhead, Option.getD_some]
  have hurl := HttpConn.urlText_of_parseHead hfit hhead rfl rfl hreach
    HttpConn.blank
  have hpath : ((HttpConn.blank.init.withParser (Parser.fresh.receive
      longRequest)).processRead shorterName).2.path =
        docRoot ++ longTarget.take targetRoom := by
    rw [HttpConn.processRead_of_reach hreach, HttpConn.doRequest_path _ rfl,
      hurl]
  have hcode : ((HttpConn.blank.init.withParser (Parser.fresh.receive
      longRequest)).processRead shorterName).1 = .fileRequest := by
    rw [HttpConn.processRead_of_reach hreach]
    apply HttpConn.doRequest_of_servable rfl
    rw [hurl]
    exact ⟨_, if_pos rfl, by decide, by decide⟩
  refine ⟨by rw [hreach], htarget, hcode, hpath, ?_⟩
  rw [hcode]
  rintro (herror | hstring)
  · exact herror
  · have heq := List.append_cancel_left
      (hstring.cstr_eq.symm.trans hpath)
    have hlength := congrArg List.length heq
    revert hlength
    decide +kernel

end BackendLab.Proactor
