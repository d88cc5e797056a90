import BackendLab.Proactor.Responses.Text

/-!
# Sending a response

`write()` offers the whole response to every `writev` it makes, also after a
part of it has been accepted, and it counts only the bytes of the write buffer
as outstanding.  So a response reaches the client intact exactly if every
`writev` accepts nothing or everything.
-/

namespace BackendLab.Proactor

open Support

namespace HttpConn

/-! ## Repeated prefixes -/

section Prefixes

variable {α : Type*} (whole : List α)

/-- A nonempty row of prefixes of `whole` starts as `whole` does. -/
theorem head?_flatten_of_parts {parts : List (List α)}
    (hparts : ∀ x ∈ parts, x <+: whole) (hne : parts.flatten ≠ []) :
    parts.flatten.head? = whole.head? := by
  induction parts with
  | nil => exact absurd rfl hne
  | cons x parts ih =>
      cases x with
      | nil =>
          exact ih (fun y hy => hparts y (List.mem_cons_of_mem _ hy)) hne
      | cons a x =>
          obtain ⟨t, rfl⟩ := hparts (a :: x) (by simp)
          rfl

/-- If the first element of `whole` does not come back among its first `w`, no
shorter prefix of it can be followed by further prefixes to give `whole`. -/
theorem eq_of_prefixes {w : ℕ} {parts : List (List α)} {last : List α}
    (hwhole : ∀ i, 0 < i → i < w → whole[i]? ≠ whole.head?)
    (hparts : ∀ x ∈ parts, x <+: whole ∧ x.length < w)
    (hlast : last <+: whole) (hne : last ≠ [])
    (h : parts.flatten ++ last = whole) :
    (∀ x ∈ parts, x = []) ∧ last = whole := by
  induction parts with
  | nil => exact ⟨by simp, h⟩
  | cons x parts ih =>
      have hrest : ∀ y ∈ parts, y <+: whole ∧ y.length < w :=
        fun y hy => hparts y (List.mem_cons_of_mem _ hy)
      by_cases hx : x = []
      · subst hx
        obtain ⟨hall, heq⟩ := ih hrest h
        refine ⟨fun y hy => ?_, heq⟩
        rcases List.mem_cons.mp hy with rfl | hy
        · rfl
        · exact hall y hy
      · exfalso
        have hall : ∀ y ∈ parts ++ [last], y <+: whole := by
          intro y hy
          rcases List.mem_append.mp hy with hy | hy
          · exact (hrest y hy).1
          · rw [List.mem_singleton.mp hy]
            exact hlast
        have hhead := head?_flatten_of_parts whole hall (by simp [hne])
        rw [List.flatten_append, List.flatten_singleton] at hhead
        rw [List.flatten_cons, List.append_assoc] at h
        refine hwhole x.length (List.length_pos_iff.mpr hx)
          (hparts x (by simp)).2 ?_
        rw [← hhead, ← h, List.getElem?_append_right le_rfl, Nat.sub_self,
          List.head?_eq_getElem?]

end Prefixes

/-! ## One call of `write()` -/

/-- The bytes taken by the `writev` calls of one `write()`. -/
def chunks (c : HttpConn) (outcomes : List WritevOutcome) : List Bytes :=
  outcomes.filterMap fun
    | .accepted n => some (c.taken n)
    | _ => none

variable {c : HttpConn}

theorem chunks_cons_accepted (n : ℕ) (rest : List WritevOutcome) :
    c.chunks (.accepted n :: rest) = c.taken n :: c.chunks rest := rfl

theorem chunks_append (outcomes rest : List WritevOutcome) :
    c.chunks (outcomes ++ rest) = c.chunks outcomes ++ c.chunks rest :=
  List.filterMap_append

/-- How the loop of `write()` is left, with `bytesHaveSend` below
`bytesToSend` at the start. -/
theorem writeLoop_cases {outcomes : List WritevOutcome} {r : WriteResult}
    {bytesToSend bytesHaveSend : ℤ}
    (h : c.writeLoop bytesToSend bytesHaveSend outcomes = some r)
    (hlt : bytesHaveSend < bytesToSend) :
    (r.exit = .again ∧ r.conn = c ∧ r.sent = (c.chunks outcomes).flatten ∧
        ∀ x ∈ c.chunks outcomes,
          2 * (x.length : ℤ) < bytesToSend - bytesHaveSend) ∨
      (r.exit = .failed ∧ r.conn = c.unmap) ∨
      (r.exit = .completed ∧ r.conn = c.finish ∧ ∃ parts last,
        c.chunks outcomes = parts ++ [last] ∧
        r.sent = parts.flatten ++ last ∧ last ≠ [] ∧
        ∀ x ∈ parts, 2 * (x.length : ℤ) < bytesToSend - bytesHaveSend) := by
  induction outcomes generalizing bytesToSend bytesHaveSend r with
  | nil => simp [writeLoop] at h
  | cons o rest ih =>
      cases o with
      | eagain =>
          cases rest with
          | nil =>
              simp only [writeLoop, Option.some.injEq] at h
              subst h
              exact Or.inl ⟨rfl, rfl, rfl, by simp [chunks]⟩
          | cons _ _ => simp [writeLoop] at h
      | error =>
          cases rest with
          | nil =>
              simp only [writeLoop, Option.some.injEq] at h
              subst h
              exact Or.inr (Or.inl ⟨rfl, rfl⟩)
          | cons _ _ => simp [writeLoop] at h
      | accepted n =>
          simp only [writeLoop] at h
          by_cases hdone : bytesToSend - (c.taken n).length ≤
              bytesHaveSend + (c.taken n).length
          · rw [if_pos hdone] at h
            split_ifs at h with hrest
            simp only [Option.some.injEq] at h
            subst h hrest
            refine Or.inr (Or.inr ⟨rfl, rfl, [], c.taken n, rfl, rfl, ?_,
              by simp⟩)
            intro hnil
            rw [hnil] at hdone
            simp only [List.length_nil] at hdone
            omega
          · rw [if_neg hdone, Option.map_eq_some_iff] at h
            obtain ⟨r', hr', rfl⟩ := h
            rw [chunks_cons_accepted]
            rcases ih hr' (by omega) with ⟨hexit, hconn, hsent, hall⟩ |
              ⟨hexit, hconn⟩ | ⟨hexit, hconn, parts, last, hchunks, hsent, hne,
                hall⟩
            · refine Or.inl ⟨hexit, hconn, by simp [hsent], fun x hx => ?_⟩
              rcases List.mem_cons.mp hx with rfl | hx
              · omega
              · have := hall x hx
                omega
            · exact Or.inr (Or.inl ⟨hexit, hconn⟩)
            · refine Or.inr (Or.inr ⟨hexit, hconn, c.taken n :: parts, last,
                by simp [hchunks], by simp [hsent], hne, fun x hx => ?_⟩)
              rcases List.mem_cons.mp hx with rfl | hx
              · omega
              · have := hall x hx
                omega

/-! ## A whole response -/

/-- The calls of `write()` for one response, given what their `writev` calls
report: each but the last returns at `EAGAIN` and is made again at the next
`EPOLLOUT`, and the last takes the completion branch.  The result is what each
call has put on the socket. -/
def sendAll (c : HttpConn) : List (List WritevOutcome) → Option (List Bytes)
  | [] => none
  | outcomes :: calls =>
      match c.write outcomes with
      | some ⟨.again, c', sent⟩ => (c'.sendAll calls).map (sent :: ·)
      | some ⟨.completed, _, sent⟩ => if calls = [] then some [sent] else none
      | _ => none

/-- No call sends again what an earlier one has sent.  Every `writev` starts
with the first byte of the response, so two calls that both send something
both send that byte. -/
def NoResend (sent : List Bytes) : Prop :=
  sent.Pairwise fun a b => a = [] ∨ b = []

/-- The response that `write()` offers: `header` from the write buffer, and
`file` behind it. -/
structure Prepared (c : HttpConn) (header file : Bytes) : Prop where
  writeIdx : c.writeIdx = header.length
  offered : c.offered = header ++ file
  header : ∃ tail, header = capitalH :: tail ∧ capitalH ∉ tail

theorem write_cases {outcomes : List WritevOutcome} {r : WriteResult}
    (h : c.write outcomes = some r) (hpos : 0 < c.writeIdx) :
    (r.exit = .again ∧ r.conn = c ∧ r.sent = (c.chunks outcomes).flatten ∧
        ∀ x ∈ c.chunks outcomes, 2 * x.length < c.writeIdx) ∨
      (r.exit = .failed ∧ r.conn = c.unmap) ∨
      (r.exit = .completed ∧ r.conn = c.finish ∧ ∃ parts last,
        c.chunks outcomes = parts ++ [last] ∧
        r.sent = parts.flatten ++ last ∧ last ≠ [] ∧
        ∀ x ∈ parts, 2 * x.length < c.writeIdx) := by
  have hloop := writeLoop_of_write h hpos.ne'
  rcases writeLoop_cases hloop (by omega) with ⟨hexit, hconn, hsent, hall⟩ |
    hfailed | ⟨hexit, hconn, parts, last, hchunks, hsent, hne, hall⟩
  · refine Or.inl ⟨hexit, hconn, hsent, fun x hx => ?_⟩
    have := hall x hx
    omega
  · exact Or.inr (Or.inl hfailed)
  · refine Or.inr (Or.inr ⟨hexit, hconn, parts, last, hchunks, hsent, hne,
      fun x hx => ?_⟩)
    have := hall x hx
    omega

theorem sendAll_cons {outcomes : List WritevOutcome}
    {calls : List (List WritevOutcome)} {sent : List Bytes}
    (h : c.sendAll (outcomes :: calls) = some sent) (hpos : 0 < c.writeIdx) :
    (∃ sent', c.sendAll calls = some sent' ∧
        sent = (c.chunks outcomes).flatten :: sent' ∧
        ∀ x ∈ c.chunks outcomes, 2 * x.length < c.writeIdx) ∨
      (calls = [] ∧ ∃ parts last, c.chunks outcomes = parts ++ [last] ∧
        sent = [parts.flatten ++ last] ∧ last ≠ [] ∧
        ∀ x ∈ parts, 2 * x.length < c.writeIdx) := by
  rw [sendAll] at h
  split at h
  next c' s hwrite =>
    obtain ⟨sent', hsent', rfl⟩ := Option.map_eq_some_iff.mp h
    rcases write_cases hwrite hpos with ⟨-, hconn, hs, hall⟩ | ⟨hexit, -⟩ |
      ⟨hexit, -⟩
    · simp only at hconn hs
      subst hconn hs
      exact Or.inl ⟨sent', hsent', rfl, hall⟩
    · cases hexit
    · cases hexit
  next c' s hwrite =>
    split_ifs at h with hcalls
    rcases write_cases hwrite hpos with ⟨hexit, -⟩ | ⟨hexit, -⟩ |
      ⟨-, -, parts, last, hchunks, hs, hne, hall⟩
    · cases hexit
    · cases hexit
    · simp only at hs
      subst hs
      exact Or.inr ⟨hcalls, parts, last, hchunks, (Option.some.inj h).symm,
        hne, hall⟩
  · cases h

/-- Where something is offered, no `writev` fails for its memory. -/
theorem faults_of_offered (h : c.offered ≠ []) : c.faults = false := by
  by_contra hfaults
  rw [Bool.not_eq_false] at hfaults
  exact h (by rw [offered, if_pos hfaults])

/-- A response whose file could not be mapped is never completed. -/
theorem sendAll_of_faults (hpos : 0 < c.writeIdx) (hfaults : c.faults = true)
    (calls : List (List WritevOutcome)) : c.sendAll calls = none := by
  cases calls with
  | nil => rfl
  | cons outcomes calls =>
      rw [sendAll]
      split
      next hwrite => cases (write_of_faults hpos.ne' hfaults hwrite).2
      next hwrite => cases (write_of_faults hpos.ne' hfaults hwrite).2
      next => rfl

theorem sendAll_eagain (hpos : 0 < c.writeIdx) (hfaults : c.faults = false)
    (calls : List (List WritevOutcome)) :
    c.sendAll ([.eagain] :: calls) = (c.sendAll calls).map ([] :: ·) := by
  simp only [sendAll, write_eq_writeLoop hpos.ne' hfaults, writeLoop]

/-- `write()` completes as soon as half of the write buffer has been accepted:
it counts an accepted byte twice. -/
theorem sendAll_accepted {n : ℕ} (hpos : 0 < c.writeIdx)
    (hn : c.writeIdx ≤ 2 * (c.taken n).length) :
    c.sendAll [[.accepted n]] = some [c.taken n] := by
  have hdone : (c.writeIdx : ℤ) - (c.taken n).length ≤
      0 + (c.taken n).length := by
    omega
  have hfaults : c.faults = false := by
    apply faults_of_offered
    intro hnil
    rw [taken, hnil, List.take_nil, List.length_nil] at hn
    omega
  simp only [sendAll, write_eq_writeLoop hpos.ne' hfaults, writeLoop, if_pos hdone,
    if_true]

/-- What all calls together have sent, `writev` by `writev`. -/
theorem sendAll_flatten {calls : List (List WritevOutcome)}
    {sent : List Bytes} (h : c.sendAll calls = some sent)
    (hpos : 0 < c.writeIdx) :
    ∃ parts last, c.chunks calls.flatten = parts ++ [last] ∧
      sent.flatten = parts.flatten ++ last ∧ last ≠ [] ∧
      ∀ x ∈ parts, 2 * x.length < c.writeIdx := by
  induction calls generalizing sent with
  | nil => simp [sendAll] at h
  | cons outcomes calls ih =>
      rw [List.flatten_cons, chunks_append]
      rcases sendAll_cons h hpos with ⟨sent', hsent', rfl, hall⟩ |
        ⟨rfl, parts, last, hchunks, rfl, hne, hall⟩
      · obtain ⟨parts, last, hchunks, hflat, hne, hparts⟩ := ih hsent'
        refine ⟨c.chunks outcomes ++ parts, last, ?_, ?_, hne, fun x hx => ?_⟩
        · rw [hchunks, List.append_assoc]
        · rw [List.flatten_cons, hflat, List.flatten_append, List.append_assoc]
        · rcases List.mem_append.mp hx with hx | hx
          · exact hall x hx
          · exact hparts x hx
      · refine ⟨parts, last, ?_, by simp, hne, hall⟩
        rw [hchunks]
        simp [chunks]

/-- If every `writev` accepts nothing or everything, only the last call sends,
and it sends the response. -/
theorem sendAll_of_allOrNothing {whole : Bytes}
    {calls : List (List WritevOutcome)} {sent : List Bytes}
    (hall : ∀ x ∈ c.chunks calls.flatten, x = [] ∨ x = whole)
    (hwhole : c.writeIdx ≤ whole.length) (h : c.sendAll calls = some sent)
    (hpos : 0 < c.writeIdx) :
    ∃ k, sent = List.replicate k [] ++ [whole] := by
  have hshort : ∀ {parts : List Bytes},
      (∀ x ∈ parts, x = [] ∨ x = whole) →
      (∀ x ∈ parts, 2 * x.length < c.writeIdx) → parts.flatten = [] := by
    intro parts hor hlt
    rw [List.flatten_eq_nil_iff]
    intro x hx
    rcases hor x hx with hnil | rfl
    · exact hnil
    · have := hlt _ hx
      omega
  induction calls generalizing sent with
  | nil => simp [sendAll] at h
  | cons outcomes calls ih =>
      rw [List.flatten_cons, chunks_append] at hall
      rcases sendAll_cons h hpos with ⟨sent', hsent', rfl, hlt⟩ |
        ⟨rfl, parts, last, hchunks, rfl, hne, hlt⟩
      · obtain ⟨k, rfl⟩ := ih
          (fun x hx => hall x (List.mem_append_right _ hx)) hsent'
        refine ⟨k + 1, ?_⟩
        rw [hshort (fun x hx => hall x (List.mem_append_left _ hx)) hlt]
        rfl
      · refine ⟨0, ?_⟩
        rw [hchunks] at hall
        have hlast : last = whole :=
          (hall last (by simp)).resolve_left hne
        rw [hshort (fun x hx => hall x (by simp [hx])) hlt, hlast]
        rfl

theorem Prepared.writeIdx_pos {header file : Bytes}
    (hp : c.Prepared header file) : 0 < c.writeIdx := by
  obtain ⟨tail, hheader, -⟩ := hp.header
  rw [hp.writeIdx, hheader, List.length_cons]
  omega

theorem Prepared.faults {header file : Bytes} (hp : c.Prepared header file) :
    c.faults = false := by
  obtain ⟨tail, hheader, -⟩ := hp.header
  apply faults_of_offered
  rw [hp.offered, hheader]
  exact List.cons_ne_nil _ _

/-- A prepared response arrives intact exactly if every `writev` accepts
nothing or everything. -/
theorem Prepared.intact_iff {header file : Bytes}
    (hp : c.Prepared header file) {calls : List (List WritevOutcome)}
    {sent : List Bytes} (h : c.sendAll calls = some sent) :
    (sent.flatten = header ++ file ∧ NoResend sent) ↔
      ∀ x ∈ c.chunks calls.flatten, x = [] ∨ x = header ++ file := by
  obtain ⟨tail, hheader, htail⟩ := hp.header
  have hpos := hp.writeIdx_pos
  constructor
  · rintro ⟨hflat, -⟩
    obtain ⟨parts, last, hchunks, hsent, hne, hlt⟩ := sendAll_flatten h hpos
    have hpart : ∀ x ∈ c.chunks calls.flatten, x <+: header ++ file := by
      intro x hx
      obtain ⟨o, -, ho⟩ := List.mem_filterMap.mp hx
      cases o with
      | accepted n =>
          obtain rfl := Option.some.inj ho
          rw [← hp.offered]
          exact List.take_prefix _ _
      | eagain => cases ho
      | error => cases ho
    rw [hchunks] at hpart ⊢
    have hfirst : ∀ i, 0 < i → i < c.writeIdx →
        (header ++ file)[i]? ≠ (header ++ file).head? := by
      intro i hi hlt'
      rw [hp.writeIdx] at hlt'
      rw [List.getElem?_append_left hlt', hheader]
      obtain ⟨j, rfl⟩ : ∃ j, i = j + 1 := ⟨i - 1, by omega⟩
      intro heq
      exact htail (List.mem_of_getElem? heq)
    obtain ⟨hnil, hlast⟩ := eq_of_prefixes (header ++ file) hfirst
      (fun x hx => ⟨hpart x (by simp [hx]), by have := hlt x hx; omega⟩)
      (hpart last (by simp)) hne (hsent.symm.trans hflat)
    intro x hx
    rcases List.mem_append.mp hx with hx | hx
    · exact Or.inl (hnil x hx)
    · exact Or.inr (by rw [List.mem_singleton.mp hx, hlast])
  · intro hall
    obtain ⟨k, rfl⟩ := sendAll_of_allOrNothing hall
      (by rw [hp.writeIdx, List.length_append]; omega) h hpos
    refine ⟨by simp, ?_⟩
    rw [NoResend, List.pairwise_append]
    refine ⟨?_, by simp, ?_⟩
    · exact List.pairwise_replicate.mpr (Or.inr (Or.inl rfl))
    · intro a ha b _
      exact Or.inl (List.eq_of_mem_replicate ha)

/-- What `process_write` prepares from an empty write buffer. -/
theorem processWrite_prepared {ret : HttpCode} (hidx : c.writeIdx = 0)
    (hok : (c.processWrite ret).1 = true)
    (hfile : ret = .fileRequest → c.fileBytes.length = c.fileStat.size)
    (hmapped : ret = .fileRequest → c.fileAddress ≠ .failed) :
    (c.processWrite ret).2.Prepared
      ((c.processWrite ret).2.writeBuf.toList.take
        (c.processWrite ret).2.writeIdx)
      (if ret = .fileRequest then c.fileBytes else []) := by
  cases ht : responseText c.parser.linger c.fileStat.size ret with
  | none =>
      cases ret <;> simp [responseText] at ht <;> simp [processWrite] at hok
  | some t =>
      obtain ⟨c', hw, heq⟩ := processWrite_eq hidx ht
      rw [heq]
      simp only [hw.writeIdx_eq, hw.text]
      refine ⟨rfl, ?_, responseText_eq_cons ht⟩
      by_cases hret : ret = .fileRequest
      · have hlen := hfile hret
        have hnot := hmapped hret
        simp only [offered, faults, iovecBytes, if_pos hret, if_true, hw.text]
        unfold fileBytes at hlen ⊢
        cases haddr : c.fileAddress with
        | mapped content =>
            simp only [haddr] at hlen
            simp [← hlen]
        | null =>
            simp only [haddr, List.length_nil] at hlen
            simp [← hlen]
        | failed => exact absurd haddr hnot
      · simp [offered, faults, iovecBytes, hret, hw.text]

/-- With a file that could not be mapped nothing is ever sent. -/
theorem processWrite_faults (hidx : c.writeIdx = 0) (h : c.fileAddress = .failed) :
    0 < (c.processWrite .fileRequest).2.writeIdx ∧
      (c.processWrite .fileRequest).2.faults = true := by
  have ht : responseText c.parser.linger c.fileStat.size .fileRequest =
      some (statusText 200 ok200Title ++
        headerText (toInt32 c.fileStat.size) c.parser.linger) := rfl
  have htitle : capitalH ∉ ok200Title := by decide
  obtain ⟨c', hw, heq⟩ := processWrite_eq hidx ht
  rw [heq]
  refine ⟨?_, ?_⟩
  · simp only [hw.writeIdx_eq]
    obtain ⟨tail, htail, -⟩ := statusText_eq_cons 200 htitle
    simp [htail]
  · simp [faults, h]

/-- Let `process_write` have prepared a response, and let `write()` complete it
over any number of calls.  The socket has received the header and the file,
every byte once and in order and none again in a later call, exactly if every
`writev` accepted nothing or all of what it was offered. -/
theorem response_intact_iff {ret : HttpCode} (hidx : c.writeIdx = 0)
    (hok : (c.processWrite ret).1 = true)
    (hfile : ret = .fileRequest → c.fileBytes.length = c.fileStat.size)
    {calls : List (List WritevOutcome)} {sent : List Bytes}
    (hrun : (c.processWrite ret).2.sendAll calls = some sent) :
    (sent.flatten = (c.processWrite ret).2.writeBuf.toList.take
          (c.processWrite ret).2.writeIdx ++
        (if ret = .fileRequest then c.fileBytes else []) ∧ NoResend sent) ↔
      ∀ outcomes ∈ calls, ∀ n, .accepted n ∈ outcomes →
        (c.processWrite ret).2.taken n = [] ∨
          (c.processWrite ret).2.taken n = (c.processWrite ret).2.offered := by
  have hmapped : ret = .fileRequest → c.fileAddress ≠ .failed := by
    rintro rfl hfailed
    obtain ⟨hpos, hfaults⟩ := processWrite_faults hidx hfailed
    rw [sendAll_of_faults hpos hfaults] at hrun
    cases hrun
  have hp := processWrite_prepared hidx hok hfile hmapped
  rw [hp.intact_iff hrun, ← hp.offered]
  constructor
  · intro hall outcomes houtcomes n hn
    refine hall _ (List.mem_filterMap.mpr ⟨.accepted n, ?_, rfl⟩)
    exact List.mem_flatten.mpr ⟨outcomes, houtcomes, hn⟩
  · intro hall x hx
    obtain ⟨o, ho, hox⟩ := List.mem_filterMap.mp hx
    obtain ⟨outcomes, houtcomes, hmem⟩ := List.mem_flatten.mp ho
    cases o with
    | accepted n =>
        obtain rfl := Option.some.inj hox
        exact hall outcomes houtcomes n hmem
    | eagain => cases hox
    | error => cases hox

/-- A connection that is to answer with a file of three bytes. -/
def threeByteFile : HttpConn :=
  { HttpConn.blank with
    fileAddress := .mapped (ascii "abc")
    fileStat := ⟨0o100644, 3⟩ }

theorem prepared_threeByteFile :
    (threeByteFile.processWrite .fileRequest).1 = true ∧
    (threeByteFile.processWrite .fileRequest).2.writeIdx = 81 ∧
    (threeByteFile.processWrite .fileRequest).2.Prepared
      ((threeByteFile.processWrite .fileRequest).2.writeBuf.toList.take
        (threeByteFile.processWrite .fileRequest).2.writeIdx) (ascii "abc") := by
  have htext : responseText threeByteFile.parser.linger
      threeByteFile.fileStat.size .fileRequest =
        some (statusText 200 ok200Title ++
          headerText (toInt32 (3 : ℕ)) false) := rfl
  obtain ⟨c', hw, heq⟩ := processWrite_eq (c := threeByteFile) rfl htext
  refine ⟨congrArg Prod.fst heq, ?_, processWrite_prepared (c := threeByteFile) rfl
    (congrArg Prod.fst heq) (fun _ => rfl) (fun _ => by simp [threeByteFile])⟩
  rw [heq]
  exact hw.writeIdx_eq.trans (by decide +kernel)

/-- The socket is full at first, and then takes the header and the file. -/
theorem response_intact_threeByteFile :
    ∃ sent, (threeByteFile.processWrite .fileRequest).2.sendAll
        [[.eagain], [.accepted 1000]] = some sent ∧
      sent.flatten =
        (threeByteFile.processWrite .fileRequest).2.writeBuf.toList.take
          (threeByteFile.processWrite .fileRequest).2.writeIdx ++ ascii "abc" ∧
      NoResend sent := by
  obtain ⟨hok, hidx, hp⟩ := prepared_threeByteFile
  have hoffered : (threeByteFile.processWrite .fileRequest).2.offered.length = 84 := by
    rw [hp.offered, List.length_append, ← hp.writeIdx, hidx]
    rfl
  have hall : (threeByteFile.processWrite .fileRequest).2.taken 1000 =
      (threeByteFile.processWrite .fileRequest).2.offered := by
    refine List.take_of_length_le ?_
    rw [hoffered]
    decide
  have hrun : (threeByteFile.processWrite .fileRequest).2.sendAll
      [[.eagain], [.accepted 1000]] =
        some [[], (threeByteFile.processWrite .fileRequest).2.taken 1000] := by
    rw [sendAll_eagain hp.writeIdx_pos hp.faults, sendAll_accepted hp.writeIdx_pos (by
      rw [hall, hoffered, hidx]
      omega)]
    rfl
  have hfile : HttpCode.fileRequest = .fileRequest →
      threeByteFile.fileBytes.length = threeByteFile.fileStat.size := fun _ => rfl
  refine ⟨_, hrun, (response_intact_iff rfl hok hfile hrun).mpr ?_⟩
  intro outcomes houtcomes n hn
  rcases List.mem_cons.mp houtcomes with rfl | houtcomes
  · simp at hn
  · rw [List.mem_singleton] at houtcomes
    subst houtcomes
    obtain rfl : n = 1000 := by simpa using hn
    exact Or.inr hall

/-- A `writev` that accepts the header and not the file ends the response. -/
theorem file_not_sent :
    ∃ sent, (threeByteFile.processWrite .fileRequest).2.sendAll
        [[.accepted 81]] = some sent ∧
      sent.flatten ≠ (threeByteFile.processWrite .fileRequest).2.writeBuf.toList.take
          (threeByteFile.processWrite .fileRequest).2.writeIdx ++
        threeByteFile.fileBytes := by
  obtain ⟨-, hidx, hp⟩ := prepared_threeByteFile
  have htaken : (threeByteFile.processWrite .fileRequest).2.taken 81 =
      (threeByteFile.processWrite .fileRequest).2.writeBuf.toList.take
        (threeByteFile.processWrite .fileRequest).2.writeIdx := by
    rw [taken, hp.offered]
    exact List.take_left' (hp.writeIdx.symm.trans hidx)
  have hsent := sendAll_accepted hp.writeIdx_pos (n := 81) (by
    rw [htaken, ← hp.writeIdx]
    omega)
  rw [htaken] at hsent
  refine ⟨_, hsent, fun heq => ?_⟩
  have hlen := congrArg List.length heq
  rw [List.flatten_singleton, List.length_append] at hlen
  have habc : threeByteFile.fileBytes.length = 3 := rfl
  omega

end HttpConn

end BackendLab.Proactor
