import BackendLab.ServicePool.Exchange

/-!
# A client and its session

`JsonClient` sends the request for a line of input and then waits for the reply
before it asks for the next line.  The bytes of both directions are carried in
pieces, and meanwhile the other sessions of the server, its threads and its worker
go on.

If the replies are not too long for the client, they come back in the order of the
requests, each as the reply to its own line, and there is never more than one
request without its reply, so that the send queue of the session stays short
however long the conversation is.
-/

namespace BackendLab.ServicePool

open Support Relation

variable {ι σ : Type*} {ν : Type}

/-! ## The client -/

/-- Where `main` of the client stands: at the prompt, in the read of the head or of
the body of a reply, or behind the loop. -/
inductive JsonClient.Stage where
  | prompting
  | head
  | body (respMsgid msglen : ℕ)
  | ended
  deriving DecidableEq, Repr

/-- The client with the lines of its input that are left, those for which it has
sent a request, the bytes that it has sent and received, and those of the latter
that it has not read.  `shown` is what it has put out for each reply: its
identifier and the object, or nothing if the reply could not be parsed. -/
structure JsonClient (ν : Type) where
  stage : JsonClient.Stage
  lines : List Bytes
  asked : List Bytes
  sent : Bytes
  received : Bytes
  inbox : Bytes
  shown : List (Option (ℕ × ν))

namespace JsonClient

def start (input : List Bytes) : JsonClient ν :=
  ⟨.prompting, input, [], [], [], [], []⟩

/-- The bytes of `send_data`. -/
def frame (request : Bytes) : Bytes :=
  wordBytes (swapBytes (toUInt16 msgHelloWorld)) ++
    (wordBytes (swapBytes (toUInt16 request.length)) ++ request)

/-- A round of the loop up to the end of `write`. -/
def prompt (j : JsonCpp ν) (c : JsonClient ν) : JsonClient ν :=
  match c.lines with
  | [] => { c with stage := .ended }
  | line :: lines =>
      if line = ascii "quit" then { c with stage := .ended, lines := lines }
      else
        match JsonClient.request j line with
        | none => { c with lines := lines }
        | some request =>
            { c with
              stage := .head, lines := lines, asked := c.asked ++ [line],
              sent := c.sent ++ frame request }

/-- Bytes arrive at the socket of the client. -/
def receive (c : JsonClient ν) (bytes : Bytes) : JsonClient ν :=
  { c with received := c.received ++ bytes, inbox := c.inbox ++ bytes }

def readHead (c : JsonClient ν) : JsonClient ν :=
  let head := c.inbox.take headTotalLen
  { c with
    inbox := c.inbox.drop headTotalLen,
    stage :=
      if JsonClient.accepts head then
        .body (swapBytes (wordOf head)) (JsonClient.msglen head)
      else .ended }

def readBody (j : JsonCpp ν) (c : JsonClient ν) (respMsgid msglen : ℕ) :
    JsonClient ν :=
  let c' := { c with inbox := c.inbox.drop msglen, stage := .prompting }
  match j.parse (c.inbox.take msglen) with
  | none => { c' with shown := c.shown ++ [none] }
  | some root =>
      match j.access root dataKey with
      | none => { c' with stage := .ended }
      | some _ => { c' with shown := c.shown ++ [some (respMsgid, root)] }

end JsonClient

/-- A step of the client.  Where a read or a write throws, the loop is left; of the
frame that was being written some bytes may have been sent. -/
inductive ClientStep (j : JsonCpp ν) : JsonClient ν → JsonClient ν → Prop
  | prompt {c : JsonClient ν} (h : c.stage = .prompting) :
      ClientStep j c (c.prompt j)
  | writeFails {c : JsonClient ν} {line request bytes : Bytes}
      {lines : List Bytes} (h : c.stage = .prompting)
      (hline : c.lines = line :: lines)
      (hrequest : JsonClient.request j line = some request)
      (hbytes : bytes <+: JsonClient.frame request) :
      ClientStep j c
        { c with
          stage := .ended, lines := lines, asked := c.asked ++ [line],
          sent := c.sent ++ bytes }
  | readHead {c : JsonClient ν} (h : c.stage = .head)
      (harrived : headTotalLen ≤ c.inbox.length) : ClientStep j c c.readHead
  | readBody {c : JsonClient ν} {respMsgid msglen : ℕ}
      (h : c.stage = .body respMsgid msglen)
      (harrived : msglen ≤ c.inbox.length) :
      ClientStep j c (c.readBody j respMsgid msglen)
  | readFails {c : JsonClient ν} (h : c.stage ≠ .prompting) :
      ClientStep j c { c with stage := .ended }

/-! ## The client and the server -/

/-- The bytes that have been passed to the socket of a session: those of the
writes that have ended and, perhaps not all yet, of those that have not. -/
def Peer.transmitted (p : Peer σ) : Bytes :=
  (p.sender.sendQue.completed ++ p.sender.sendQue.outstanding).flatMap
    SendNode.bytes

structure Conversation (ι σ : Type*) (ν : Type) where
  server : Server ι σ
  client : JsonClient ν

variable [DecidableEq ι]

/-- A step of the server, of the client, or of the network between the client and
the session `i`, to which it brings bytes while the socket is open.  At the other
sessions anything can arrive. -/
inductive ConversationStep (P : ReadingHalf σ) (j : JsonCpp ν) (i : ι) :
    Conversation ι σ ν → Conversation ι σ ν → Prop
  | server {x : Conversation ι σ ν} {t : Server ι σ}
      (h : ServerStep P j x.server t)
      (harrived : (t.peer i).arrived = (x.server.peer i).arrived) :
      ConversationStep P j i x { x with server := t }
  | carry {x : Conversation ι σ ν} {bytes : Bytes}
      (h : (x.server.peer i).arrived ++ bytes <+: x.client.sent)
      (hopen : (x.server.peer i).closed = false) :
      ConversationStep P j i x
        { x with
          server := x.server.setPeer i ((x.server.peer i).arrive bytes) }
  | giveBack {x : Conversation ι σ ν} {bytes : Bytes}
      (h : x.client.received ++ bytes <+: (x.server.peer i).transmitted) :
      ConversationStep P j i x { x with client := x.client.receive bytes }
  | client {x : Conversation ι σ ν} {c : JsonClient ν}
      (h : ClientStep j x.client c) :
      ConversationStep P j i x { x with client := c }

def Conversation.start (P : ReadingHalf σ) (input : List Bytes) :
    Conversation ι σ ν :=
  ⟨.start P, .start input⟩

def ConversationReachable (P : ReadingHalf σ) (j : JsonCpp ν) (i : ι)
    (input : List Bytes) (x : Conversation ι σ ν) : Prop :=
  ReflTransGen (ConversationStep P j i) (.start P input) x

/-! ## Requests and replies -/

/-- The message of the request for a line, and the reply to it. -/
def requestFor (j : JsonCpp ν) (line : Bytes) : ℤ × Bytes :=
  (msgHelloWorld, j.toStyledString (j.message msgHelloWorld line))

def replyObject (j : JsonCpp ν) (line : Bytes) : ν :=
  j.message msgHelloWorld (replyText ++ line)

def replyTo (j : JsonCpp ν) (line : Bytes) : SendCall :=
  .text (j.toStyledString (replyObject j line)) msgHelloWorld

/-- What the client puts out for the reply. -/
def shownFor (j : JsonCpp ν) (line : Bytes) : Option (ℕ × ν) :=
  some (toUInt16 msgHelloWorld, replyObject j line)

/-- A request is sent for the line, and it leaves room for the text that is put
in front of the data of the reply. -/
structure Answerable (j : JsonCpp ν) (line : Bytes) : Prop where
  asked : (JsonClient.request j line).isSome
  fits : ((requestFor j line).2.length + replyText.length : ℤ) ≤ maxLength

/-- The frames that `SendNode` makes of messages are read back as the messages. -/
def ReadingHalf.Restores (P : ReadingHalf σ) : Prop :=
  ∀ ms : List (ℤ × Bytes), (∀ m ∈ ms, Sendable m) →
    P.messages (ms.flatMap encode) = ms

section Frames

variable {j : JsonCpp ν} {overhead : ℕ} {escaped : Bytes → ℕ} {line : Bytes}

theorem length_replyText : replyText.length = 37 := by decide

namespace Answerable

theorem request_eq (h : Answerable j line) :
    JsonClient.request j line = some (requestFor j line).2 := by
  obtain ⟨request, hrequest⟩ := Option.isSome_iff_exists.mp h.asked
  rw [hrequest, (JsonClient.request_eq_some hrequest).1, requestFor]

theorem length_lt (h : Answerable j line) :
    (requestFor j line).2.length + 37 < 2 ^ 15 := by
  have hfits := h.fits
  rw [length_replyText] at hfits
  simp only [maxLength] at hfits
  omega

theorem frame_eq (h : Answerable j line) :
    JsonClient.frame (requestFor j line).2 = encode (requestFor j line) := by
  have hlt := h.length_lt
  have hlen : toUInt16 (((requestFor j line).2.length : ℕ) : ℤ) =
      (requestFor j line).2.length := toUInt16_natCast (by omega)
  rw [encode_eq (by omega), JsonClient.frame,
    wordBytes_swapBytes (toUInt16_lt _), hlen,
    wordBytes_swapBytes (by omega)]
  rfl

theorem length_pos (hj : j.Documented overhead escaped) (hoverhead : 0 < overhead)
    (line : Bytes) : 0 < (requestFor j line).2.length := by
  rw [requestFor, hj.length_styled]
  omega

theorem sendable (h : Answerable j line) (hj : j.Documented overhead escaped)
    (hoverhead : 0 < overhead) : Sendable (requestFor j line) := by
  have hfits := h.fits
  have hpos := length_pos hj hoverhead line
  rw [length_replyText] at hfits
  exact ⟨show 1 ≤ msgHelloWorld by decide,
    show msgHelloWorld ≤ maxLength by decide, hpos, by omega⟩

theorem answer_eq (hj : j.Documented overhead escaped) (line : Bytes) :
    answer j (requestFor j line) = some (replyTo j line) := by
  have hcallback := hj.helloWordCallBack_eq msgHelloWorld line
  simp only [answer, funCallbacks, requestFor, if_true, Option.bind_eq_bind,
    Option.bind_some, hcallback]
  rfl

/-- The text of a reply. -/
theorem length_replyTo (hj : j.Documented overhead escaped) (line : Bytes) :
    (j.toStyledString (replyObject j line)).length =
      (requestFor j line).2.length + 37 := by
  rw [replyObject, hj.length_reply, length_replyText, requestFor]

theorem encoding_replyTo (h : Answerable j line)
    (hj : j.Documented overhead escaped) :
    (replyTo j line).encoding =
      bigEndian (toUInt16 msgHelloWorld) ++
        (bigEndian (j.toStyledString (replyObject j line)).length ++
          j.toStyledString (replyObject j line)) := by
  have hlt := h.length_lt
  have hfits := h.fits
  rw [length_replyText] at hfits
  simp only [maxLength] at hfits
  apply encoding_text
  rw [length_replyTo hj]
  omega

theorem isOk_replyTo (h : Answerable j line) (hj : j.Documented overhead escaped) :
    (replyTo j line).makeNode.isOk = true := by
  have hfits := h.fits
  rw [length_replyText] at hfits
  simp only [maxLength] at hfits
  have hlt : (j.toStyledString (replyObject j line)).length + 4 < 2 ^ 15 := by
    rw [length_replyTo hj]
    omega
  obtain ⟨node, hnode, -⟩ := makeNode_of_lt msgHelloWorld hlt
  rw [replyTo, hnode]
  rfl

end Answerable

/-- The replies to the requests for some lines are the replies to the lines. -/
theorem replies_requestFor (hj : j.Documented overhead escaped)
    {lines : List Bytes} (h : ∀ line ∈ lines, Answerable j line) :
    replies j (lines.map (requestFor j)) = lines.map (replyTo j) := by
  have hanswers : (lines.map (requestFor j)).filterMap (answer j) =
      lines.map (replyTo j) := by
    rw [List.filterMap_map, ← List.filterMap_eq_map]
    congr 1
    funext line
    exact Answerable.answer_eq hj line
  rw [replies, hanswers, List.filter_eq_self]
  intro call hcall
  obtain ⟨line, hline, rfl⟩ := List.mem_map.mp hcall
  exact (h line hline).isOk_replyTo hj

/-! ## Reading a reply -/

/-- The head of the reply to a line. -/
def replyHead (j : JsonCpp ν) (line : Bytes) : Bytes :=
  bigEndian (toUInt16 msgHelloWorld) ++
    bigEndian (j.toStyledString (replyObject j line)).length

theorem length_replyHead (j : JsonCpp ν) (line : Bytes) :
    (replyHead j line).length = headTotalLen := rfl

theorem Answerable.encoding_eq (h : Answerable j line)
    (hj : j.Documented overhead escaped) :
    (replyTo j line).encoding =
      replyHead j line ++ j.toStyledString (replyObject j line) := by
  rw [h.encoding_replyTo hj, replyHead, List.append_assoc]

theorem Answerable.encoding_ne_nil (h : Answerable j line)
    (hj : j.Documented overhead escaped) : (replyTo j line).encoding ≠ [] := by
  rw [h.encoding_eq hj]
  exact fun hnil => by cases hnil

/-- The client reads the identifier and the length out of the head, and goes on to
the body. -/
theorem readHead_replyHead (h : Answerable j line)
    (hj : j.Documented overhead escaped) {c : JsonClient ν} {rest : Bytes}
    (hinbox : c.inbox = replyHead j line ++ rest) :
    c.readHead = { c with
      inbox := rest,
      stage := .body (toUInt16 msgHelloWorld)
        (j.toStyledString (replyObject j line)).length } := by
  have hfits := h.fits
  rw [length_replyText] at hfits
  have hlength := Answerable.length_replyTo hj line
  have hsmall : (j.toStyledString (replyObject j line)).length < 2 ^ 16 := by
    simp only [maxLength] at hfits
    omega
  have htake : c.inbox.take headTotalLen = replyHead j line := by
    rw [hinbox, ← length_replyHead j line, List.take_left]
  have hdrop : c.inbox.drop headTotalLen = rest := by
    rw [hinbox, ← length_replyHead j line, List.drop_left]
  have hmsglen : JsonClient.msglen (replyHead j line) =
      (j.toStyledString (replyObject j line)).length := by
    have hfield : (replyHead j line).drop headIdLen =
        bigEndian (j.toStyledString (replyObject j line)).length := by
      rw [replyHead, headIdLen,
        ← length_bigEndian (toUInt16 msgHelloWorld), List.drop_left]
    have hread := ofBigEndian_bigEndian hsmall []
    rw [List.append_nil] at hread
    rw [JsonClient.msglen, hfield, swapBytes_wordOf, hread]
  have hid : swapBytes (wordOf (replyHead j line)) = toUInt16 msgHelloWorld := by
    rw [swapBytes_wordOf, replyHead, ofBigEndian_bigEndian (toUInt16_lt _)]
  have haccepts : JsonClient.accepts (replyHead j line) = true := by
    simp only [JsonClient.accepts, hmsglen, decide_eq_true_eq]
    omega
  simp only [JsonClient.readHead, htake, hdrop, haccepts, if_true, hid, hmsglen]

theorem readBody_reply (hj : j.Documented overhead escaped) {c : JsonClient ν}
    (hinbox : c.inbox = j.toStyledString (replyObject j line)) :
    c.readBody j (toUInt16 msgHelloWorld)
        (j.toStyledString (replyObject j line)).length =
      { c with
        inbox := [], stage := .prompting,
        shown := c.shown ++ [shownFor j line] } := by
  have hparse : j.parse (j.toStyledString (replyObject j line)) =
      some (replyObject j line) := hj.parse_styled _
  have haccess : j.access (replyObject j line) dataKey =
      some (replyObject j line) := hj.access_data _
  simp only [JsonClient.readBody, hinbox, List.take_length, List.drop_length,
    hparse, haccess, shownFor]

end Frames

end BackendLab.ServicePool
