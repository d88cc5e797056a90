import BackendLab.ServicePool.Conversation

/-!
# One request at a time

What holds at every moment of a conversation whose replies are not too long for
the client.  The client has been told the replies to the first of the lines that
it has asked, and perhaps waits for the reply to one more.  The session has put
one reply into its send queue for each message it has handled: since at most one
request is without its reply, the queue never holds more than two entries.
-/

namespace BackendLab.ServicePool

open Support Relation

variable {ι σ : Type*} {ν : Type} {P : ReadingHalf σ} {j : JsonCpp ν}

/-! ## The send queue of the session -/

/-- What has been written and the front of the queue. -/
def Peer.front (p : Peer σ) : List SendNode :=
  p.sender.sendQue.completed ++ p.sender.sendQue.queue.take 1

theorem PeerInvariant.transmitted_isPrefix {p : Peer σ} (hp : PeerInvariant P j p) :
    p.transmitted <+: p.front.flatMap SendNode.bytes := by
  rw [Peer.transmitted, Peer.front, List.flatMap_append, List.flatMap_append]
  rcases hp.front with horderly | hnil
  · have hfront : p.sender.sendQue.outstanding = p.sender.sendQue.queue.take 1 :=
      horderly
    rw [hfront]
  · rw [hnil, List.flatMap_nil, List.append_nil]
    exact List.prefix_append _ _

/-- A step of a session takes nothing away from what has been or is being
written. -/
theorem PeerStep.front_isPrefix {p q : Peer σ} (hp : PeerInvariant P j p)
    (h : PeerStep P j p q) :
    p.front <+: q.front ∧
      p.sender.sendQue.completed.length ≤
        q.sender.sendQue.completed.length := by
  cases h with
  | socket h =>
      cases h with
      | arrive bytes | read h hposted | readFails h | handleWriteFails h =>
          exact ⟨List.prefix_rfl, le_rfl⟩
      | @handleWrite node h =>
          have hqueue := (hp.front.orderly h).queue_eq h
          constructor
          · have hfront : p.front = p.sender.sendQue.completed ++ [node] := by
              rw [Peer.front, hqueue]
              rfl
            rw [hfront]
            exact List.prefix_append _ _
          · simp [Peer.handleWrite, SendSession.handleWrite, WriteQueue.complete,
              WriteQueue.startFront]
  | post h hposted => exact ⟨List.prefix_rfl, le_rfl⟩
  | handle hnext h =>
      rcases handle_cases h with ⟨rfl, -⟩ | ⟨call, node, -, -, rfl⟩
      · exact ⟨List.prefix_rfl, le_rfl⟩
      · simp only [Peer.front, Peer.answered]
        by_cases hqueue : p.sender.sendQue.queue = []
        · rw [WriteQueue.push_of_nil hqueue, hqueue, List.take_nil,
            List.append_nil]
          exact ⟨List.prefix_append _ _, le_rfl⟩
        · rw [WriteQueue.push_of_ne_nil hqueue,
            List.take_append_of_le_length (List.length_pos_iff.mpr hqueue)]
          exact ⟨List.prefix_rfl, le_rfl⟩

/-! ## The turn of the client -/

/-- Where the client stands when it has been told the replies to the lines
`told`: at the prompt it has asked no more; while it reads it has asked one line
more; and when it has ended it may have. -/
inductive Turn (j : JsonCpp ν) (told : List Bytes) (c : JsonClient ν) : Prop
  | prompting (hstage : c.stage = .prompting) (hasked : c.asked = told)
      (hreceived : c.received =
        told.flatMap (fun line => (replyTo j line).encoding) ++ c.inbox)
  | head {line : Bytes} (hstage : c.stage = .head)
      (hasked : c.asked = told ++ [line])
      (hreceived : c.received =
        told.flatMap (fun line => (replyTo j line).encoding) ++ c.inbox)
  | body {line : Bytes}
      (hstage : c.stage = .body (toUInt16 msgHelloWorld)
        (j.toStyledString (replyObject j line)).length)
      (hasked : c.asked = told ++ [line])
      (hreceived : c.received =
        told.flatMap (fun line => (replyTo j line).encoding) ++
          (replyHead j line ++ c.inbox))
  | ended {rest : List Bytes} (hstage : c.stage = .ended)
      (hasked : c.asked = told ++ rest) (hrest : rest.length ≤ 1)

theorem Turn.exists_asked {told : List Bytes} {c : JsonClient ν}
    (h : Turn j told c) : ∃ rest, c.asked = told ++ rest ∧ rest.length ≤ 1 := by
  cases h with
  | prompting hstage hasked hreceived =>
      exact ⟨[], by rw [hasked, List.append_nil], by simp⟩
  | head hstage hasked hreceived | body hstage hasked hreceived =>
      exact ⟨_, hasked, by simp⟩
  | ended hstage hasked hrest => exact ⟨_, hasked, hrest⟩

/-- The client may leave its loop at any time. -/
theorem Turn.leave {told : List Bytes} {c d : JsonClient ν} (h : Turn j told c)
    (hstage : d.stage = .ended) (hasked : d.asked = c.asked) : Turn j told d := by
  obtain ⟨rest, hrest, hlen⟩ := h.exists_asked
  exact .ended hstage (hasked.trans hrest) hlen

/-! ## What holds during a conversation -/

variable [DecidableEq ι]

/-- Every line of the input for which a request is sent leaves room for the
reply. -/
def LeavesRoom (j : JsonCpp ν) (input : List Bytes) : Prop :=
  ∀ line ∈ input, (JsonClient.request j line).isSome → Answerable j line

/-- The lines of some input for which a request is sent. -/
def asks (j : JsonCpp ν) (input : List Bytes) : List Bytes :=
  input.filter fun line => (JsonClient.request j line).isSome

structure InStep (P : ReadingHalf σ) (j : JsonCpp ν) (i : ι) (input : List Bytes)
    (told : List Bytes) (x : Conversation ι σ ν) : Prop where
  server : ServerReachable P j x.server
  asked : ∃ consumed, input = consumed ++ x.client.lines ∧
    x.client.asked = asks j consumed ∧
    (x.client.stage ≠ .ended → ascii "quit" ∉ consumed)
  sent : x.client.sent <+: (x.client.asked.map (requestFor j)).flatMap encode
  sent_eq : x.client.stage ≠ .ended →
    x.client.sent = (x.client.asked.map (requestFor j)).flatMap encode
  arrived : (x.server.peer i).arrived <+: x.client.sent
  accepted : (x.server.peer i).sender.accepted =
    replies j (x.server.peer i).handled
  received : x.client.received <+:
    (x.server.peer i).front.flatMap SendNode.bytes
  shown : x.client.shown = told.map (shownFor j)
  turn : Turn j told x.client
  behind : told.length ≤ (x.server.peer i).sender.sendQue.completed.length + 1

theorem inStep_start (P : ReadingHalf σ) (j : JsonCpp ν) (i : ι)
    (input : List Bytes) : InStep P j i input [] (.start P input) where
  server := .refl
  asked := ⟨[], rfl, rfl, by simp⟩
  sent := List.prefix_rfl
  sent_eq := fun _ => rfl
  arrived := List.prefix_rfl
  accepted := rfl
  received := List.nil_prefix
  shown := rfl
  turn := .prompting rfl rfl rfl
  behind := Nat.zero_le _

/-- What is assumed of the reading of the session, of jsoncpp and of the input. -/
structure Compatible (P : ReadingHalf σ) (j : JsonCpp ν) (overhead : ℕ)
    (escaped : Bytes → ℕ) (input : List Bytes) : Prop where
  restores : P.Restores
  documented : j.Documented overhead escaped
  overhead_pos : 0 < overhead
  room : LeavesRoom j input

namespace InStep

variable {overhead : ℕ} {escaped : Bytes → ℕ} {i : ι} {input told : List Bytes}
  {x : Conversation ι σ ν}

theorem answerable (hx : InStep P j i input told x)
    (hc : Compatible P j overhead escaped input) :
    ∀ line ∈ x.client.asked, Answerable j line := by
  intro line hline
  obtain ⟨consumed, hinput, hasked, -⟩ := hx.asked
  rw [hasked, asks, List.mem_filter] at hline
  apply hc.room line _ hline.2
  rw [hinput]
  exact List.mem_append_left _ hline.1

/-- The session has read the first of the requests. -/
theorem posted_isPrefix (hx : InStep P j i input told x)
    (hc : Compatible P j overhead escaped input) :
    P.posted (x.server.peer i).reader <+:
      x.client.asked.map (requestFor j) := by
  have hinv := (hx.server.peer_alone i).invariant
  have hmessages : P.messages ((x.client.asked.map (requestFor j)).flatMap encode) =
      x.client.asked.map (requestFor j) := by
    apply hc.restores
    intro m hm
    obtain ⟨line, hline, rfl⟩ := List.mem_map.mp hm
    exact (hx.answerable hc line hline).sendable hc.documented hc.overhead_pos
  rw [← hmessages]
  exact hinv.posted_isPrefix.trans
    (P.messages_isPrefix (hx.arrived.trans hx.sent))

/-- The replies that the session has accepted are those to the first of the lines
that have been asked. -/
theorem accepted_isPrefix (hx : InStep P j i input told x)
    (hc : Compatible P j overhead escaped input) :
    ∃ lines, lines <+: x.client.asked ∧
      (x.server.peer i).handled = lines.map (requestFor j) ∧
      (x.server.peer i).sender.accepted = lines.map (replyTo j) := by
  have hinv := (hx.server.peer_alone i).invariant
  obtain ⟨lines, hlines, hhandled⟩ :=
    List.prefix_map_iff.mp (hinv.handled.trans (hx.posted_isPrefix hc))
  refine ⟨lines, hlines, hhandled, ?_⟩
  rw [hx.accepted, hhandled, replies_requestFor hc.documented]
  intro line hline
  exact hx.answerable hc line (hlines.subset hline)

/-- The nodes that are or have been written are those of the first of the lines
that have been asked. -/
theorem front_eq (hx : InStep P j i input told x)
    (hc : Compatible P j overhead escaped input) :
    ∃ lines, lines <+: x.client.asked ∧
      lines.length ≤
        (x.server.peer i).sender.sendQue.completed.length + 1 ∧
      (x.server.peer i).front.flatMap SendNode.bytes =
        lines.flatMap fun line => (replyTo j line).encoding := by
  have hinv := (hx.server.peer_alone i).invariant
  obtain ⟨lines, hlines, -, haccepted⟩ := hx.accepted_isPrefix hc
  have hfront : (x.server.peer i).front <+:
      (x.server.peer i).sender.sendQue.content :=
    List.prefix_append_right_inj _ |>.mpr (List.take_prefix _ _)
  have hnodes := hfront.map (Except.ok (ε := NodeError))
  rw [← hinv.nodes] at hnodes
  obtain ⟨calls, hcalls, hmap⟩ := List.prefix_map_iff.mp hnodes
  rw [haccepted] at hcalls
  obtain ⟨first, hfirst, rfl⟩ := List.prefix_map_iff.mp hcalls
  refine ⟨first, hfirst.trans hlines, ?_, ?_⟩
  · have hlen := congrArg List.length hmap
    rw [List.length_map, List.length_map, List.length_map, Peer.front,
      List.length_append, List.length_take] at hlen
    omega
  · rw [flatMap_bytes_eq hmap.symm, List.flatMap_map]

theorem received_isPrefix (hx : InStep P j i input told x)
    (hc : Compatible P j overhead escaped input) :
    x.client.received <+:
      x.client.asked.flatMap fun line => (replyTo j line).encoding := by
  obtain ⟨lines, ⟨more, hmore⟩, -, hfront⟩ := hx.front_eq hc
  have hreceived := hx.received
  rw [hfront] at hreceived
  rw [← hmore, List.flatMap_append]
  exact hreceived.trans (List.prefix_append _ _)

/-- Whenever a message is handled, there is room in the send queue. -/
theorem queue_short (hx : InStep P j i input told x)
    (hc : Compatible P j overhead escaped input) {m : ℤ × Bytes}
    (hnext : (x.server.peer i).handled ++ [m] <+:
      P.posted (x.server.peer i).reader) :
    (x.server.peer i).sender.sendQue.queue.length ≤ 1 := by
  have hinv := (hx.server.peer_alone i).invariant
  obtain ⟨lines, hlines, hhandled, haccepted⟩ := hx.accepted_isPrefix hc
  obtain ⟨rest, hasked, hrest⟩ := hx.turn.exists_asked
  have hone := (hnext.trans (hx.posted_isPrefix hc)).length_le
  have hnodes := congrArg List.length hinv.nodes
  have hbehind := hx.behind
  simp only [hhandled, haccepted, hasked, List.length_append, List.length_map,
    List.length_singleton, WriteQueue.content] at hone hnodes
  omega

theorem server_step (hx : InStep P j i input told x)
    (hc : Compatible P j overhead escaped input) {t : Server ι σ}
    (h : ServerStep P j x.server t)
    (harrived : (t.peer i).arrived = (x.server.peer i).arrived) :
    InStep P j i input told { x with server := t } := by
  have hlogic := hx.server.logicReachable.invariant
  have hrouted := hx.server.routed i
  have hreach : ServerReachable P j t := hx.server.tail h
  have hpeer : (x.server.peer i).front <+: (t.peer i).front ∧
      (x.server.peer i).sender.sendQue.completed.length ≤
        (t.peer i).sender.sendQue.completed.length ∧
      (t.peer i).sender.accepted = replies j (t.peer i).handled := by
    rcases h.peerStep hlogic hrouted with hsame | hstep
    · rw [hsame]
      exact ⟨List.prefix_rfl, le_rfl, hx.accepted⟩
    · obtain ⟨hfront, hlen⟩ :=
        hstep.front_isPrefix (hx.server.peer_alone i).invariant
      refine ⟨hfront, hlen, hstep.accepted_eq hx.accepted ?_⟩
      intro m hnext
      exact (hx.queue_short hc hnext).trans (by decide)
  obtain ⟨⟨more, hmore⟩, hlen, haccepted⟩ := hpeer
  refine ⟨hreach, hx.asked, hx.sent, hx.sent_eq, ?_, haccepted, ?_, hx.shown,
    hx.turn, hx.behind.trans (Nat.add_le_add_right hlen 1)⟩
  · simp only [harrived]
    exact hx.arrived
  · simp only [← hmore, List.flatMap_append]
    exact hx.received.trans (List.prefix_append _ _)

theorem carry (hx : InStep P j i input told x) {bytes : Bytes}
    (h : (x.server.peer i).arrived ++ bytes <+: x.client.sent)
    (hopen : (x.server.peer i).closed = false) :
    InStep P j i input told
      { x with server := x.server.setPeer i ((x.server.peer i).arrive bytes) } := by
  refine ⟨hx.server.tail (.socket (.arrive bytes hopen)), hx.asked, hx.sent, hx.sent_eq,
    ?_, ?_, ?_, hx.shown, hx.turn, ?_⟩
  · simp only [Server.peer_setPeer_self]
    exact h
  · simp only [Server.peer_setPeer_self]
    exact hx.accepted
  · simp only [Server.peer_setPeer_self]
    exact hx.received
  · simp only [Server.peer_setPeer_self]
    exact hx.behind

theorem giveBack (hx : InStep P j i input told x) {bytes : Bytes}
    (h : x.client.received ++ bytes <+: (x.server.peer i).transmitted) :
    InStep P j i input told { x with client := x.client.receive bytes } := by
  have hinv := (hx.server.peer_alone i).invariant
  have hturn : Turn j told (x.client.receive bytes) := by
    cases hx.turn with
    | prompting hstage hasked hreceived =>
        refine .prompting hstage hasked ?_
        simp only [JsonClient.receive, hreceived, List.append_assoc]
    | head hstage hasked hreceived =>
        refine .head hstage hasked ?_
        simp only [JsonClient.receive, hreceived, List.append_assoc]
    | body hstage hasked hreceived =>
        refine .body hstage hasked ?_
        simp only [JsonClient.receive, hreceived, List.append_assoc]
    | ended hstage hasked hrest => exact .ended hstage hasked hrest
  exact ⟨hx.server, hx.asked, hx.sent, hx.sent_eq, hx.arrived, hx.accepted,
    h.trans hinv.transmitted_isPrefix, hx.shown, hturn, hx.behind⟩

/-- The bytes that the client reads are those of the reply to the line that it has
asked last. -/
theorem inbox_isPrefix (hx : InStep P j i input told x)
    (hc : Compatible P j overhead escaped input) {line : Bytes} (part : Bytes)
    (hasked : x.client.asked = told ++ [line])
    (hreceived : x.client.received =
      told.flatMap (fun line => (replyTo j line).encoding) ++
        (part ++ x.client.inbox)) :
    part ++ x.client.inbox <+:
      replyHead j line ++ j.toStyledString (replyObject j line) := by
  have hline : Answerable j line := hx.answerable hc line (by rw [hasked]; simp)
  have hall := hx.received_isPrefix hc
  rw [hreceived, hasked, List.flatMap_append, List.prefix_append_right_inj,
    List.flatMap_singleton, hline.encoding_eq hc.documented] at hall
  exact hall

theorem asked_of_running (hx : InStep P j i input told x)
    (hstage : x.client.stage ≠ .ended) {stage : JsonClient.Stage} :
    ∃ consumed, input = consumed ++ x.client.lines ∧
      x.client.asked = asks j consumed ∧
      (stage ≠ .ended → ascii "quit" ∉ consumed) := by
  obtain ⟨consumed, hinput, hasked, hquit⟩ := hx.asked
  exact ⟨consumed, hinput, hasked, fun _ => hquit hstage⟩

theorem readHead (hx : InStep P j i input told x)
    (hc : Compatible P j overhead escaped input) (h : x.client.stage = .head)
    (harrived : headTotalLen ≤ x.client.inbox.length) :
    InStep P j i input told { x with client := x.client.readHead } := by
  cases hx.turn with
  | @head line hstage hasked hreceived =>
      have hline : Answerable j line := hx.answerable hc line (by rw [hasked]; simp)
      have hinitial := hx.inbox_isPrefix hc [] hasked
        (by rw [hreceived, List.nil_append])
      rw [List.nil_append] at hinitial
      obtain ⟨rest, hinbox⟩ : replyHead j line <+: x.client.inbox :=
        List.prefix_of_prefix_length_le (List.prefix_append _ _) hinitial harrived
      have hread := readHead_replyHead hline hc.documented hinbox.symm
      have hended : x.client.stage ≠ .ended := by simp [h]
      rw [hread]
      refine ⟨hx.server, hx.asked_of_running hended, hx.sent,
        fun _ => hx.sent_eq hended, hx.arrived, hx.accepted, hx.received, hx.shown,
        .body rfl hasked ?_, hx.behind⟩
      simp only [hreceived, ← hinbox]
  | prompting hstage | body hstage | ended hstage =>
      rw [h] at hstage
      cases hstage

theorem readBody (hx : InStep P j i input told x)
    (hc : Compatible P j overhead escaped input) {respMsgid msglen : ℕ}
    (h : x.client.stage = .body respMsgid msglen)
    (harrived : msglen ≤ x.client.inbox.length) :
    ∃ told', InStep P j i input told'
      { x with client := x.client.readBody j respMsgid msglen } := by
  cases hx.turn with
  | @body line hstage hasked hreceived =>
      have hline : Answerable j line := hx.answerable hc line (by rw [hasked]; simp)
      obtain ⟨rfl, rfl⟩ : respMsgid = toUInt16 msgHelloWorld ∧
          msglen = (j.toStyledString (replyObject j line)).length := by
        rw [h, JsonClient.Stage.body.injEq] at hstage
        exact hstage
      have hinitial := hx.inbox_isPrefix hc _ hasked hreceived
      rw [List.prefix_append_right_inj] at hinitial
      have hinbox : x.client.inbox = j.toStyledString (replyObject j line) :=
        hinitial.eq_of_length (Nat.le_antisymm hinitial.length_le harrived)
      have hread := readBody_reply hc.documented hinbox
      have hended : x.client.stage ≠ .ended := by simp [h]
      have hreceived' : x.client.received =
          (told ++ [line]).flatMap (fun line => (replyTo j line).encoding) ++
            [] := by
        rw [hreceived, hinbox, List.flatMap_append, List.flatMap_singleton,
          hline.encoding_eq hc.documented, List.append_nil]
      refine ⟨told ++ [line], ?_⟩
      rw [hread]
      refine ⟨hx.server, hx.asked_of_running hended, hx.sent,
        fun _ => hx.sent_eq hended, hx.arrived, hx.accepted, hx.received, ?_,
        .prompting rfl hasked hreceived', ?_⟩
      · simp only [hx.shown, List.map_append, List.map_singleton]
      -- All the frames that the client has read lie in what is being written.
      · obtain ⟨lines, hlines, hlen, hfront⟩ := hx.front_eq hc
        have hreceived := hx.received
        rw [hfront, hreceived', List.append_nil] at hreceived
        refine (length_le_of_flatMap_isPrefix ?_ hlines ?_ hreceived).trans hlen
        · rw [hasked]
        · intro line hline
          exact (hx.answerable hc line hline).encoding_ne_nil hc.documented
  | prompting hstage | head hstage | ended hstage =>
      rw [h] at hstage
      cases hstage

/-- The client leaves its loop, having sent at most what it had asked. -/
theorem leave (hx : InStep P j i input told x) {c : JsonClient ν}
    (hstage : c.stage = .ended) (hasked : c.asked = x.client.asked)
    (hsent : c.sent = x.client.sent) (hreceived : c.received = x.client.received)
    (hshown : c.shown = x.client.shown)
    (hlines : ∃ skipped, x.client.lines = skipped ++ c.lines ∧
      asks j skipped = []) :
    InStep P j i input told { x with client := c } := by
  obtain ⟨consumed, hinput, hconsumed, -⟩ := hx.asked
  obtain ⟨skipped, hskipped, hnone⟩ := hlines
  refine ⟨hx.server, ⟨consumed ++ skipped, ?_, ?_, absurd hstage⟩, ?_, ?_, ?_, hx.accepted,
    ?_, ?_, hx.turn.leave hstage hasked, hx.behind⟩
  · rw [hinput, hskipped, List.append_assoc]
  · rw [asks, List.filter_append, ← asks, ← asks, hnone, List.append_nil]
    exact hasked.trans hconsumed
  · simp only [hsent, hasked]
    exact hx.sent
  · exact fun hne => absurd hstage hne
  · simp only [hsent]
    exact hx.arrived
  · simp only [hreceived]
    exact hx.received
  · simp only [hshown]
    exact hx.shown

/-- A line is asked: the bytes of its request, or some of them, are sent. -/
theorem ask (hx : InStep P j i input told x)
    (hc : Compatible P j overhead escaped input)
    (hstage : x.client.stage = .prompting) {line request bytes : Bytes}
    {lines : List Bytes} (hline : x.client.lines = line :: lines)
    (hrequest : JsonClient.request j line = some request)
    {stage : JsonClient.Stage}
    (hbytes : bytes <+: JsonClient.frame request ∧ stage = .ended ∨
      bytes = JsonClient.frame request ∧ stage = .head) :
    InStep P j i input told
      { x with
        client := { x.client with
          stage := stage, lines := lines, asked := x.client.asked ++ [line],
          sent := x.client.sent ++ bytes } } := by
  obtain ⟨consumed, hinput, hconsumed, hquit⟩ := hx.asked
  have hsome : (JsonClient.request j line).isSome := by simp [hrequest]
  have hanswerable : Answerable j line :=
    hc.room line (by rw [hinput, hline]; simp) hsome
  have hframe : JsonClient.frame request = encode (requestFor j line) := by
    rw [← hanswerable.frame_eq]
    congr 1
    exact Option.some.inj (hrequest.symm.trans hanswerable.request_eq)
  have hsent := hx.sent_eq (by simp [hstage])
  have hstream : ((x.client.asked ++ [line]).map (requestFor j)).flatMap encode =
      x.client.sent ++ JsonClient.frame request := by
    rw [List.map_append, List.flatMap_append, ← hsent, hframe, List.map_singleton,
      List.flatMap_singleton]
  have hasked : ∃ consumed', input = consumed' ++ lines ∧
      x.client.asked ++ [line] = asks j consumed' ∧
      (stage ≠ .ended → ascii "quit" ∉ consumed') := by
    refine ⟨consumed ++ [line], ?_, ?_, ?_⟩
    · rw [hinput, hline, List.append_assoc, List.singleton_append]
    · rw [asks, List.filter_append, ← asks, ← hconsumed]
      simp [hsome]
    · intro _ hmem
      rcases List.mem_append.mp hmem with hmem | hmem
      · exact hquit (by simp [hstage]) hmem
      · rw [← List.mem_singleton.mp hmem, JsonClient.request,
          if_pos (.inl rfl)] at hsome
        cases hsome
  have htold : x.client.asked = told ∧ x.client.received =
      told.flatMap (fun line => (replyTo j line).encoding) ++ x.client.inbox := by
    cases hx.turn with
    | prompting _ hasked hreceived => exact ⟨hasked, hreceived⟩
    | head hother | body hother | ended hother =>
        rw [hstage] at hother
        cases hother
  have harrived : (x.server.peer i).arrived <+: x.client.sent ++ bytes :=
    hx.arrived.trans (List.prefix_append _ _)
  rcases hbytes with ⟨hinitial, rfl⟩ | ⟨rfl, rfl⟩
  · refine ⟨hx.server, hasked, ?_, fun hne => absurd rfl hne, harrived,
      hx.accepted, hx.received, hx.shown,
      .ended rfl (congrArg (· ++ [line]) htold.1) (by simp), hx.behind⟩
    simp only [hstream, List.prefix_append_right_inj]
    exact hinitial
  · refine ⟨hx.server, hasked, ?_, fun _ => hstream.symm, harrived, hx.accepted,
      hx.received, hx.shown,
      .head rfl (congrArg (· ++ [line]) htold.1) htold.2, hx.behind⟩
    simp only [hstream]
    exact List.prefix_rfl

theorem prompt (hx : InStep P j i input told x)
    (hc : Compatible P j overhead escaped input)
    (hstage : x.client.stage = .prompting) :
    InStep P j i input told { x with client := x.client.prompt j } := by
  cases hlines : x.client.lines with
  | nil =>
      rw [JsonClient.prompt, hlines]
      exact hx.leave rfl rfl rfl rfl rfl ⟨[], hlines, rfl⟩
  | cons line lines =>
      rw [JsonClient.prompt, hlines]
      by_cases hquit : line = ascii "quit"
      · simp only [if_pos hquit]
        refine hx.leave rfl rfl rfl rfl rfl ⟨[line], hlines, ?_⟩
        simp [asks, JsonClient.request, hquit]
      · simp only [if_neg hquit]
        cases hrequest : JsonClient.request j line with
        | some request => exact hx.ask hc hstage hlines hrequest (.inr ⟨rfl, rfl⟩)
        | none =>
            obtain ⟨consumed, hinput, hconsumed, hnever⟩ := hx.asked
            refine ⟨hx.server, ⟨consumed ++ [line], ?_, ?_, ?_⟩, hx.sent,
              hx.sent_eq, hx.arrived, hx.accepted, hx.received, hx.shown, ?_,
              hx.behind⟩
            · rw [hinput, hlines, List.append_assoc, List.singleton_append]
            · rw [asks, List.filter_append, ← asks, ← hconsumed]
              simp [hrequest]
            · intro hended hmem
              rcases List.mem_append.mp hmem with hmem | hmem
              · exact hnever hended hmem
              · exact hquit (List.mem_singleton.mp hmem).symm
            · cases hx.turn with
              | prompting _ hasked hreceived =>
                  exact .prompting hstage hasked hreceived
              | head hother | body hother | ended hother =>
                  rw [hstage] at hother
                  cases hother

theorem client_step (hx : InStep P j i input told x)
    (hc : Compatible P j overhead escaped input) {c : JsonClient ν}
    (h : ClientStep j x.client c) :
    ∃ told', InStep P j i input told' { x with client := c } := by
  cases h with
  | prompt h => exact ⟨told, hx.prompt hc h⟩
  | writeFails h hline hrequest hbytes =>
      exact ⟨told, hx.ask hc h hline hrequest (.inl ⟨hbytes, rfl⟩)⟩
  | readHead h harrived => exact ⟨told, hx.readHead hc h harrived⟩
  | readBody h harrived => exact hx.readBody hc h harrived
  | readFails h => exact ⟨told, hx.leave rfl rfl rfl rfl rfl ⟨[], rfl, rfl⟩⟩

theorem step (hx : InStep P j i input told x)
    (hc : Compatible P j overhead escaped input) {y : Conversation ι σ ν}
    (h : ConversationStep P j i x y) : ∃ told', InStep P j i input told' y := by
  cases h with
  | server h harrived => exact ⟨told, hx.server_step hc h harrived⟩
  | carry h hopen => exact ⟨told, hx.carry h hopen⟩
  | giveBack h => exact ⟨told, hx.giveBack h⟩
  | client h => exact hx.client_step hc h

theorem of_run (hx : InStep P j i input told x)
    (hc : Compatible P j overhead escaped input) {y : Conversation ι σ ν}
    (h : ReflTransGen (ConversationStep P j i) x y) :
    ∃ told', InStep P j i input told' y := by
  induction h with
  | refl => exact ⟨told, hx⟩
  | tail _ hstep ih =>
      obtain ⟨told', hy⟩ := ih
      exact hy.step hc hstep

end InStep

theorem ConversationReachable.exists_inStep {overhead : ℕ} {escaped : Bytes → ℕ}
    {i : ι} {input : List Bytes} {x : Conversation ι σ ν}
    (h : ConversationReachable P j i input x)
    (hc : Compatible P j overhead escaped input) :
    ∃ told, InStep P j i input told x :=
  (inStep_start P j i input).of_run hc h

/-- In every state of a conversation, whatever the other sessions do, however the
bytes are cut into pieces and whatever fails: the client has asked the lines of
its input for which a request is sent, in order; what it has been shown are the
replies to the first of them, each to its own line; at most one request is without
its reply; and the send queue of the session holds at most two entries, so that no
reply is ever dropped. -/
theorem ConversationReachable.replies_in_turn {overhead : ℕ} {escaped : Bytes → ℕ}
    {i : ι} {input : List Bytes} {x : Conversation ι σ ν}
    (h : ConversationReachable P j i input x)
    (hc : Compatible P j overhead escaped input) :
    (∃ consumed, input = consumed ++ x.client.lines ∧
        x.client.asked = asks j consumed) ∧
      x.client.shown <+: x.client.asked.map (shownFor j) ∧
      x.client.asked.length ≤ x.client.shown.length + 1 ∧
      (x.server.peer i).sender.sendQue.queue.length ≤ 2 ∧
      (x.server.peer i).sender.accepted =
        replies j (x.server.peer i).handled := by
  obtain ⟨told, hx⟩ := h.exists_inStep hc
  have hinv := (hx.server.peer_alone i).invariant
  obtain ⟨rest, hasked, hrest⟩ := hx.turn.exists_asked
  obtain ⟨lines, hlines, -, haccepted⟩ := hx.accepted_isPrefix hc
  obtain ⟨consumed, hinput, hconsumed, -⟩ := hx.asked
  refine ⟨⟨consumed, hinput, hconsumed⟩, ?_, ?_, ?_, hx.accepted⟩
  · rw [hx.shown, hasked, List.map_append]
    exact List.prefix_append _ _
  · rw [hx.shown, hasked, List.length_append, List.length_map]
    omega
  · have hlen := hlines.length_le
    have hnodes := congrArg List.length hinv.nodes
    have hbehind := hx.behind
    simp only [haccepted, hasked, List.length_append, List.length_map,
      WriteQueue.content] at hlen hnodes
    omega

end BackendLab.ServicePool
