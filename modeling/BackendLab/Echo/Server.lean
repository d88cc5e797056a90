import BackendLab.Echo.Closing
import BackendLab.Echo.Law
import BackendLab.Support.Sessions

/-!
# The echo server

Any number of sessions on one `io_context`, which one thread runs.  Their handlers
run in any order, reads and writes may fail at any time, and a session may be sent
more than its queue takes.
-/

namespace BackendLab.Echo

open Support Relation

/-- The handlers of a session, and whether they call `ClearSession`. -/
inductive Handle : Connection → Bool → Connection → Prop
  | read {c : Connection} {n : ℕ} (h : c.session.request = some n)
      (hn : n ≤ c.unread.length) :
      Handle c
        (decide ((c.session.complete
          (.transferred (c.unread.take n))).reading = .cleared))
        ⟨c.session.complete (.transferred (c.unread.take n)), c.unread.drop n⟩
  | readFails {c : Connection} {n : ℕ} (h : c.session.request = some n) :
      Handle c true ⟨c.session.complete .failed, c.unread⟩
  | write {c : Connection} {node : MsgNode}
      (h : node ∈ c.session.sendQue.outstanding) :
      Handle c false ⟨c.session.handleWrite node, c.unread⟩
  | writeFails {c : Connection} {node : MsgNode}
      (h : node ∈ c.session.sendQue.outstanding) :
      Handle c true ⟨c.session.handleWriteFails node, c.unread⟩

/-- The server: the map `_sessions`, and each session with the input that no read
has been given. -/
abbrev Server (ι : Type*) := Sessions ι Connection

variable {ι : Type*} [DecidableEq ι]

/-- The states of the server whose clients send `input`. -/
def ServerReachable (input : ι → Bytes) (s : Server ι) : Prop :=
  Sessions.Reachable Handle (fun i => ⟨.start, input i⟩) s

/-! ## What a session has been given -/

/-- The session has been given the frames of `ms` and then `behind`. -/
structure Given (input : Bytes) (c : Connection) (ms : List (Unit × Bytes))
    (behind : Bytes) : Prop where
  input : input = ms.flatMap echoFraming.frame ++ (behind ++ c.unread)
  valid : ∀ m ∈ ms, echoFraming.Valid m
  behind : Behind c.session.reading behind

theorem Session.complete_failed {s : Session} {n : ℕ}
    (h : s.request = some n) : s.complete .failed = { s with reading := .failed } := by
  rw [request] at h
  rw [complete]
  cases hs : s.reading with
  | head => rfl
  | body node => rfl
  | cleared => simp [hs] at h
  | failed => simp [hs] at h

section Given

variable {input behind : Bytes} {c : Connection} {ms : List (Unit × Bytes)} {n : ℕ}

theorem Given.readHead (h : Given input c ms behind)
    (hs : c.session.reading = .head) (hn : headSize ≤ c.unread.length) :
    Given input
      ⟨c.session.handleReadHead (.transferred (c.unread.take headSize)),
        c.unread.drop headSize⟩ ms (c.unread.take headSize) := by
  have hnil : behind = [] := (hs ▸ h.behind).eq_nil
  have hlen : (c.unread.take headSize).length = headSize :=
    List.length_take_of_le hn
  have hinput : input = ms.flatMap echoFraming.frame ++
      (c.unread.take headSize ++ c.unread.drop headSize) := by
    rw [List.take_append_drop, h.input, hnil, List.nil_append]
  cases hparse : echoFraming.parse (c.unread.take headSize) with
  | none =>
      rw [Session.handleReadHead_of_refused hparse]
      exact ⟨hinput, h.valid, .cleared hlen hparse⟩
  | some am =>
      obtain ⟨⟨⟩, n⟩ := am
      rw [Session.handleReadHead_of_parse hlen hparse]
      exact ⟨hinput, h.valid, .body hlen hparse⟩

/-- A body that has been read makes a frame with the header before it. -/
theorem Given.frame_body {node : MsgNode} (h : Given input c ms behind)
    (hs : c.session.reading = .body node) (hn : node.totalLen ≤ c.unread.length) :
    ∃ body, body = c.unread.take node.totalLen ∧ body.length ≤ maxLength ∧
      echoFraming.Valid ((), body) ∧
      c.session.handleReadBody node (.transferred body) =
        { c.session.send (body ++ [0]) body.length with reading := .head } ∧
      input = (ms ++ [((), body)]).flatMap echoFraming.frame ++
        ([] ++ c.unread.drop node.totalLen) := by
  obtain ⟨n, rfl, hhead, hparse⟩ := (hs ▸ h.behind).parse_eq
  have hlen : (c.unread.take n).length = n := List.length_take_of_le hn
  have hle := (parse_echoFraming_eq_some hparse).2.1
  rw [← hlen] at hparse hle
  obtain ⟨hvalid, hframe⟩ := echoFraming.valid_of_parse hhead hparse
  refine ⟨c.unread.take n, rfl, hle, hvalid, Session.handleReadBody_eq hlen, ?_⟩
  rw [h.input, List.flatMap_append, List.flatMap_singleton, hframe,
    List.append_assoc, List.append_assoc, List.nil_append]
  simp only [MsgNode.forReceiving, List.take_append_drop]

theorem Given.readFails (h : Given input c ms behind)
    (hrequest : c.session.request = some n) :
    Given input ⟨{ c.session with reading := .failed }, c.unread⟩ ms behind := by
  rw [Session.request] at hrequest
  cases hs : c.session.reading with
  | head =>
      have hnil : behind = [] := (hs ▸ h.behind).eq_nil
      subst hnil
      exact ⟨h.input, h.valid, .failedHead⟩
  | body node =>
      obtain ⟨n, -, hlen, hparse⟩ := (hs ▸ h.behind).parse_eq
      exact ⟨h.input, h.valid, .failedBody hlen hparse⟩
  | cleared => simp [hs] at hrequest
  | failed => simp [hs] at hrequest

end Given

/-! ## What a session sends back -/

/-- The session has been given the frames of `ms`.  What has been put into its
queue are some of them, in order, and at most the front is being written.  As long
as it has not called `ClearSession` a read is outstanding; if one still is when it
has, then a write has failed and nothing will be written any more. -/
structure Echoed (input : Bytes) (cleared : Bool) (c : Connection)
    (ms : List (Unit × Bytes)) (behind : Bytes) : Prop where
  given : Given input c ms behind
  frontOnly : c.session.sendQue.FrontOnly
  content : (c.session.sendQue.content.map MsgNode.bytes).Sublist
    (ms.map echoFraming.frame)
  bounded : c.session.sendQue.queue.length ≤ maxSendQueueSize + 1
  reads : cleared = false → c.session.request ≠ none
  ended : cleared = true → c.session.request = none ∨
    c.session.sendQue.outstanding = [] ∧ c.session.sendQue.queue ≠ []

/-- A session that has been cleared by a failed write starts no other one. -/
theorem Session.send_of_muted {s : Session} {msg : Bytes} {maxLen : ℕ}
    (hout : s.sendQue.outstanding = []) (hqueue : s.sendQue.queue ≠ []) :
    (s.send msg maxLen).sendQue.outstanding = [] ∧
      (s.send msg maxLen).sendQue.queue ≠ [] := by
  rw [send]
  split
  · exact ⟨hout, hqueue⟩
  · simp only [WriteQueue.push_of_ne_nil hqueue]
    exact ⟨hout, List.append_ne_nil_of_left_ne_nil hqueue _⟩

section Echoed

variable {input behind : Bytes} {b : Bool} {c : Connection}
  {ms : List (Unit × Bytes)} {n : ℕ}

theorem echoed_start (input : Bytes) :
    Echoed input false ⟨.start, input⟩ [] [] where
  given := ⟨rfl, by simp, .head⟩
  frontOnly := .inl WriteQueue.orderly_empty
  content := List.Sublist.refl []
  bounded := Nat.zero_le _
  reads := fun _ => by simp [Session.start, Session.request]
  ended := fun h => by cases h

theorem Echoed.readHead (h : Echoed input b c ms behind)
    (hs : c.session.reading = .head) (hn : headSize ≤ c.unread.length) :
    Echoed input
      (b || decide ((c.session.handleReadHead
        (.transferred (c.unread.take headSize))).reading = .cleared))
      ⟨c.session.handleReadHead (.transferred (c.unread.take headSize)),
        c.unread.drop headSize⟩ ms (c.unread.take headSize) := by
  have hgiven := h.given.readHead hs hn
  have hlen : (c.unread.take headSize).length = headSize :=
    List.length_take_of_le hn
  cases hparse : echoFraming.parse (c.unread.take headSize) with
  | none =>
      rw [Session.handleReadHead_of_refused hparse] at hgiven ⊢
      exact ⟨hgiven, h.frontOnly, h.content, h.bounded, by simp,
        fun _ => .inl rfl⟩
  | some am =>
      obtain ⟨⟨⟩, n⟩ := am
      rw [Session.handleReadHead_of_parse hlen hparse] at hgiven ⊢
      refine ⟨hgiven, h.frontOnly, h.content, h.bounded, ?_, ?_⟩
      · intro _
        simp [Session.request]
      · intro hcleared
        have hb : b = true := by simpa using hcleared
        refine .inr ((h.ended hb).resolve_left ?_)
        simp [Session.request, hs]

/-- A message that finds room is queued, and any other is dropped. -/
theorem Echoed.readBody {node : MsgNode} (h : Echoed input b c ms behind)
    (hs : c.session.reading = .body node) (hn : node.totalLen ≤ c.unread.length) :
    ∃ body, Echoed input
      (b || decide ((c.session.handleReadBody node
        (.transferred (c.unread.take node.totalLen))).reading = .cleared))
      ⟨c.session.handleReadBody node
        (.transferred (c.unread.take node.totalLen)),
        c.unread.drop node.totalLen⟩ (ms ++ [((), body)]) [] := by
  obtain ⟨body, hbody, hle, hvalid, hread, hinput⟩ := h.given.frame_body hs hn
  rw [← hbody, hread]
  refine ⟨body, ⟨hinput, ?_, .head⟩, ?_, ?_, ?_, ?_, ?_⟩
  · intro m hm
    rcases List.mem_append.mp hm with hm | hm
    · exact h.given.valid m hm
    · rw [List.mem_singleton.mp hm]
      exact hvalid
  · simp only [Session.send]
    split
    · exact h.frontOnly
    · exact h.frontOnly.push _
  · rw [List.map_append, List.map_singleton]
    simp only [Session.send]
    split
    · exact h.content.trans (List.sublist_append_left _ _)
    · simp only [WriteQueue.content_push, List.map_append, List.map_singleton,
        MsgNode.bytes_forSending hle]
      exact h.content.append_right _
  · simp only [Session.send]
    split
    · exact h.bounded
    · next hroom =>
        rw [WriteQueue.length_queue_push]
        exact Nat.succ_le_succ (Nat.not_lt.mp hroom)
  · intro _
    simp [Session.request]
  · intro hcleared
    have hb : b = true := by simpa using hcleared
    obtain ⟨hout, hqueue⟩ := (h.ended hb).resolve_left (by simp [Session.request, hs])
    exact .inr (Session.send_of_muted hout hqueue)

theorem Echoed.readFails (h : Echoed input b c ms behind)
    (hrequest : c.session.request = some n) :
    Echoed input (b || true) ⟨c.session.complete .failed, c.unread⟩ ms behind := by
  rw [Session.complete_failed hrequest]
  exact ⟨h.given.readFails hrequest, h.frontOnly, h.content, h.bounded, by simp,
    fun _ => .inl rfl⟩

theorem Echoed.write {node : MsgNode} (h : Echoed input b c ms behind)
    (hnode : node ∈ c.session.sendQue.outstanding) :
    Echoed input (b || false) ⟨c.session.handleWrite node, c.unread⟩ ms behind where
  given := ⟨h.given.input, h.given.valid, h.given.behind⟩
  frontOnly := h.frontOnly.complete hnode
  content := by
    rw [Session.handleWrite, (h.frontOnly.orderly hnode).content_complete hnode]
    exact h.content
  bounded := (WriteQueue.length_queue_complete_le _ _).trans h.bounded
  reads := by
    rw [Bool.or_false]
    exact h.reads
  ended := by
    rw [Bool.or_false]
    intro hb
    refine .inl ((h.ended hb).resolve_right ?_)
    rintro ⟨hout, -⟩
    rw [hout] at hnode
    cases hnode

theorem Echoed.writeFails {node : MsgNode} (h : Echoed input b c ms behind)
    (hnode : node ∈ c.session.sendQue.outstanding) :
    Echoed input (b || true) ⟨c.session.handleWriteFails node, c.unread⟩ ms
      behind where
  given := ⟨h.given.input, h.given.valid, h.given.behind⟩
  frontOnly := .inr (h.frontOnly.abort hnode)
  content := h.content
  bounded := h.bounded
  reads := by simp
  ended := by
    intro _
    refine .inr ⟨h.frontOnly.abort hnode, ?_⟩
    have hqueue := (h.frontOnly.orderly hnode).queue_eq hnode
    exact fun hnil => List.cons_ne_nil _ _ (hqueue.symm.trans hnil)

theorem Echoed.handle {clears : Bool} {d : Connection}
    (h : Echoed input b c ms behind) (hhandle : Handle c clears d) :
    ∃ ms behind, Echoed input (b || clears) d ms behind := by
  cases hhandle with
  | read hrequest hn =>
      rw [Session.request] at hrequest
      cases hs : c.session.reading with
      | head =>
          rw [hs] at hrequest
          cases hrequest
          simp only [Session.complete, hs]
          exact ⟨_, _, h.readHead hs hn⟩
      | body node =>
          rw [hs] at hrequest
          cases hrequest
          simp only [Session.complete, hs]
          obtain ⟨body, hbody⟩ := h.readBody hs hn
          exact ⟨_, _, hbody⟩
      | cleared => simp [hs] at hrequest
      | failed => simp [hs] at hrequest
  | readFails hrequest => exact ⟨_, _, h.readFails hrequest⟩
  | write hnode => exact ⟨_, _, h.write hnode⟩
  | writeFails hnode => exact ⟨_, _, h.writeFails hnode⟩

end Echoed

/-- The operations that a session has outstanding. -/
def Connection.pending (c : Connection) : ℕ :=
  (if c.session.request = none then 0 else 1) +
    c.session.sendQue.outstanding.length

theorem Echoed.exists_handle {input behind : Bytes} {b : Bool} {c : Connection}
    {ms : List (Unit × Bytes)} (h : Echoed input b c ms behind)
    (hpending : c.pending ≠ 0) :
    ∃ clears d, Handle c clears d ∧ d.pending < c.pending := by
  cases hrequest : c.session.request with
  | some n =>
      refine ⟨true, _, .readFails hrequest, ?_⟩
      have hnone : (c.session.complete .failed).request = none := by
        rw [Session.complete_failed hrequest]
        rfl
      have hque : (c.session.complete .failed).sendQue = c.session.sendQue := by
        rw [Session.complete_failed hrequest]
      simp [Connection.pending, hrequest, hnone, hque]
  | none =>
      cases hout : c.session.sendQue.outstanding with
      | nil => simp [Connection.pending, hrequest, hout] at hpending
      | cons node others =>
          have hnode : node ∈ c.session.sendQue.outstanding := by simp [hout]
          refine ⟨true, _, .writeFails hnode, ?_⟩
          have hnil : (c.session.handleWriteFails node).sendQue.outstanding = [] :=
            h.frontOnly.abort hnode
          have hnone : (c.session.handleWriteFails node).request = none := hrequest
          simp [Connection.pending, hrequest, hnone, hnil, hout]

/-- A session that has not called `ClearSession` is reading. -/
theorem Echoed.pending_ne_zero {input behind : Bytes} {c : Connection}
    {ms : List (Unit × Bytes)} (h : Echoed input false c ms behind) :
    c.pending ≠ 0 := by
  simp [Connection.pending, h.reads rfl]

/-! ## The server -/

omit [DecidableEq ι] in
theorem keeps_echoed (input : ι → Bytes) :
    Sessions.Keeps Handle (fun i => ⟨.start, input i⟩)
      (fun i b c => ∃ ms behind, Echoed (input i) b c ms behind) where
  first := fun i => ⟨[], [], echoed_start (input i)⟩
  handle := by
    rintro i b c clears d ⟨ms, behind, h⟩ hhandle
    exact h.handle hhandle

/-- A read with which the session goes on. -/
theorem Handle.read_on {c : Connection} {n : ℕ} {d : Session}
    (h : c.session.request = some n) (hn : n ≤ c.unread.length)
    (hd : c.session.complete (.transferred (c.unread.take n)) = d)
    (hreading : d.reading ≠ .cleared) : Handle c false ⟨d, c.unread.drop n⟩ := by
  have hread := Handle.read h hn
  rwa [hd, decide_eq_false hreading] at hread

/-- The message `hi`, as it is queued. -/
def hiNode : MsgNode := ⟨4, 0, [0, 2, 104, 105, 0]⟩

/-- The session that writes it back. -/
def hiWriting : Connection := ⟨⟨.head, ⟨[hiNode], [hiNode], []⟩⟩, []⟩

/-- A client has sent `hi`, which has been read and is being written back. -/
theorem serverReachable_hi :
    ∃ s : Server ℕ, ServerReachable (fun _ => [0, 2, 104, 105]) s ∧
      s.accepted = {0} ∧ s.registered = {0} ∧
      s.session 0 = hiWriting := by
  let first : ℕ → Connection := fun _ => ⟨.start, [0, 2, 104, 105]⟩
  let s₁ : Server ℕ := Sessions.accept (.empty first) 0
  let s₂ := s₁.handle 0 false ⟨⟨.body (.forReceiving 2), .empty⟩, [104, 105]⟩
  let s₃ := s₂.handle 0 false hiWriting
  have h₁ : Sessions.Step Handle (.empty first) s₁ := .accept (by simp [Sessions.empty])
  have h₂ : Sessions.Step Handle s₁ s₂ :=
    .runs (.handle (by decide) (@Handle.read_on (first 0) 2 _ rfl (by decide)
      (by decide) (by decide)))
  have h₃ : Sessions.Step Handle s₂ s₃ :=
    .runs (.handle (by decide) (@Handle.read_on (s₂.session 0) 2 _ rfl (by decide)
      (by decide) (by decide)))
  exact ⟨s₃, ((ReflTransGen.single h₁).tail h₂).tail h₃, rfl, rfl, rfl⟩

section Runs

variable {input : ι → Bytes} {s t : Server ι} {i : ι}

theorem ServerReachable.inv (h : ServerReachable input s) :
    Sessions.Inv (fun i => ⟨.start, input i⟩)
      (fun i b c => ∃ ms behind, Echoed (input i) b c ms behind) s :=
  Sessions.Reachable.inv (keeps_echoed input) h

/-- In every state of the server the map holds exactly the sessions that have been
accepted and have not called `ClearSession`, and each of them is reading.  A
session that is still reading when it is not in the map any more has nothing to
write.  A session has at most one write outstanding, and it is released, by all
that hold it, as soon as it has neither a read nor a write outstanding. -/
theorem ServerReachable.map_holds_readers (h : ServerReachable input s)
    (hi : i ∈ s.accepted) :
    (i ∈ s.registered ↔ i ∉ s.cleared) ∧
      (i ∈ s.registered → (s.session i).session.request ≠ none) ∧
      (i ∉ s.registered → (s.session i).session.request ≠ none →
        (s.session i).session.sendQue.outstanding = []) ∧
      (s.session i).session.sendQue.outstanding.length ≤ 1 ∧
      (s.owners Connection.pending i = 0 ↔ (s.session i).session.request = none ∧
        (s.session i).session.sendQue.outstanding = []) := by
  have hinv := h.inv
  have hiff := hinv.mem_registered_iff hi
  obtain ⟨ms, behind, hechoed⟩ := hinv.kept i hi
  refine ⟨hiff, ?_, ?_, ?_, ?_⟩
  · intro hmem
    exact hechoed.reads (decide_eq_false (hiff.mp hmem))
  · intro hmem hread
    have hcleared : i ∈ s.cleared := by
      by_contra hnot
      exact hmem (hiff.mpr hnot)
    exact ((hechoed.ended (decide_eq_true hcleared)).resolve_left hread).1
  · rcases hechoed.frontOnly with horderly | hnil
    · exact horderly.length_outstanding_le_one
    · rw [hnil]
      exact Nat.zero_le _
  · rw [hinv.owners_eq_zero_iff (fun _ _ ⟨_, _, h⟩ => h.pending_ne_zero) hi,
      Connection.pending, Nat.add_eq_zero_iff, List.length_eq_zero_iff]
    simp

/-- The write of `hi` has failed: the session is out of the map, and still reads. -/
theorem map_holds_readers_failed :
    ∃ s : Server ℕ, 0 ∈ s.accepted ∧ 0 ∉ s.registered ∧
      (s.session 0).session.request ≠ none ∧
      (s.session 0).session.sendQue.outstanding = [] := by
  obtain ⟨s, hreach, haccepted, hregistered, hsession⟩ := serverReachable_hi
  have hmem : 0 ∈ s.accepted := by simp [haccepted]
  have hfails : Handle (s.session 0) true ⟨⟨.head, ⟨[hiNode], [], []⟩⟩, []⟩ := by
    rw [hsession]
    exact @Handle.writeFails hiWriting hiNode (List.mem_singleton_self hiNode)
  let t := s.handle 0 true ⟨⟨.head, ⟨[hiNode], [], []⟩⟩, []⟩
  have ht : ServerReachable (fun _ => [0, 2, 104, 105]) t :=
    hreach.tail (.runs (.handle hmem hfails))
  have hnot : 0 ∉ t.registered := by simp [t, Sessions.handle]
  have hreads : (t.session 0).session.request ≠ none := by
    simp [t, Session.request]
  exact ⟨t, hmem, hnot, hreads,
    (ht.map_holds_readers (i := 0) hmem).2.2.1 hnot hreads⟩

/-- What has been written on a session, whatever has failed or has been dropped on
it and whatever happens to the others: whole messages, each of which the client has
sent before, in their order; so are those that wait, of which there are at most
`MAX_SENDQUEUE_SIZE + 1`.  A write that ends is the one of the front. -/
theorem ServerReachable.returns_own_messages (h : ServerReachable input s)
    (hi : i ∈ s.accepted) :
    ∃ (ms sent waiting : List (Unit × Bytes)) (behind : Bytes),
      input i = ms.flatMap echoFraming.frame ++
        (behind ++ (s.session i).unread) ∧
      (∀ m ∈ ms, echoFraming.Valid m) ∧
      Behind (s.session i).session.reading behind ∧
      (sent ++ waiting).Sublist ms ∧
      (s.session i).session.sendQue.completed.flatMap MsgNode.bytes =
        sent.flatMap echoFraming.frame ∧
      (s.session i).session.sendQue.queue.map MsgNode.bytes =
        waiting.map echoFraming.frame ∧
      waiting.length ≤ maxSendQueueSize + 1 ∧
      ∀ node ∈ (s.session i).session.sendQue.outstanding,
        (s.session i).session.sendQue.queue.head? = some node := by
  obtain ⟨ms, behind, hechoed⟩ := h.inv.kept i hi
  obtain ⟨those, hthose, hmap⟩ := List.sublist_map_iff.mp hechoed.content
  rw [WriteQueue.content, List.map_append] at hmap
  obtain ⟨sent, waiting, rfl, hsent, hwaiting⟩ := List.map_eq_append_iff.mp hmap.symm
  refine ⟨ms, sent, waiting, behind, hechoed.given.input, hechoed.given.valid,
    hechoed.given.behind, hthose, ?_, hwaiting.symm, ?_, ?_⟩
  · rw [List.flatMap_def, List.flatMap_def, hsent]
  · have hlength := congrArg List.length hwaiting
    rw [List.length_map, List.length_map] at hlength
    rw [hlength]
    exact hechoed.bounded
  · intro node hnode
    rw [(hechoed.frontOnly.orderly hnode).queue_eq hnode]
    rfl

/-- The message `hi` has been written back. -/
theorem returns_own_messages_hi :
    ∃ s : Server ℕ, 0 ∈ s.accepted ∧
      (s.session 0).session.sendQue.completed.flatMap MsgNode.bytes =
        [0, 2, 104, 105] ∧
      ∃ (ms sent waiting : List (Unit × Bytes)), (sent ++ waiting).Sublist ms ∧
        sent.flatMap echoFraming.frame = [0, 2, 104, 105] := by
  obtain ⟨s, hreach, haccepted, -, hsession⟩ := serverReachable_hi
  have hmem : 0 ∈ s.accepted := by simp [haccepted]
  have hwrite : Handle (s.session 0) false ⟨⟨.head, ⟨[], [], [hiNode]⟩⟩, []⟩ := by
    rw [hsession]
    exact @Handle.write hiWriting hiNode (List.mem_singleton_self hiNode)
  let t := s.handle 0 false ⟨⟨.head, ⟨[], [], [hiNode]⟩⟩, []⟩
  have ht : ServerReachable (fun _ => [0, 2, 104, 105]) t :=
    hreach.tail (.runs (.handle hmem hwrite))
  have hbytes : (t.session 0).session.sendQue.completed.flatMap MsgNode.bytes =
      [0, 2, 104, 105] := by
    simp only [t, Sessions.session_handle_self]
    decide
  obtain ⟨ms, sent, waiting, -, -, -, -, hsub, hsent, -⟩ :=
    ht.returns_own_messages (i := 0) hmem
  exact ⟨t, hmem, hbytes, ms, sent, waiting, hsub, hsent.symm.trans hbytes⟩

/-! ### Sessions that nobody needs -/

/-- From every state of the server its handlers alone lead to one in which the map
is empty and nothing holds any session. -/
theorem ServerReachable.can_release_all (h : ServerReachable input s) :
    ∃ t, ReflTransGen (Sessions.Runs Handle) s t ∧ t.accepted = s.accepted ∧
      t.registered = ∅ ∧ ∀ i ∈ t.accepted, t.owners Connection.pending i = 0 := by
  apply h.inv.exists_run_to_release (keeps_echoed input)
  · rintro i c ⟨ms, behind, hechoed⟩
    exact hechoed.pending_ne_zero
  · rintro i b c ⟨ms, behind, hechoed⟩ hpending
    exact hechoed.exists_handle hpending

/-- The message `hi` is being written, and the client goes away. -/
theorem can_release_all_hi :
    ∃ s t : Server ℕ, s.registered = {0} ∧
      ReflTransGen (Sessions.Runs Handle) s t ∧ t.registered = ∅ := by
  obtain ⟨s, hreach, -, hregistered, -⟩ := serverReachable_hi
  obtain ⟨t, hrun, -, hempty, -⟩ := hreach.can_release_all
  exact ⟨s, t, hregistered, hrun, hempty⟩

end Runs

end BackendLab.Echo
