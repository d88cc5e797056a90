import BackendLab.ServicePool.Encoding
import BackendLab.ServicePool.Json

/-!
# The reply to the client

`HelloWordCallBack` puts a text in front of the data of a request and sends the
object back.  The client refuses to send a request that would not fit into its
buffer, but nobody looks at the length of the reply.
-/

namespace BackendLab.ServicePool

open Support

variable {ν : Type}

/-! ## The client -/

/-- The request that `JsonClient` sends for a line of input, if any. -/
def JsonClient.request (j : JsonCpp ν) (userInput : Bytes) : Option Bytes :=
  if userInput = ascii "quit" ∨ userInput = [] then none
  else
    let request := j.toStyledString (j.message msgHelloWorld userInput)
    if maxLength - headTotalLen < request.length then none else some request

/-- The `uint16_t` length that `JsonClient` reads in the head of a reply. -/
def JsonClient.msglen (frame : Bytes) : ℕ :=
  swapBytes (wordOf (frame.drop headIdLen))

/-- The check of the length of a reply. -/
def JsonClient.accepts (frame : Bytes) : Bool :=
  ¬ (JsonClient.msglen frame = 0 ∨ maxLength < JsonClient.msglen frame)

/-! ## The callback -/

def replyText : Bytes := ascii "server has received msg, msg data is "

/-- `HelloWordCallBack`, up to the call of `Send`; `none` if jsoncpp throws. -/
def helloWordCallBack (j : JsonCpp ν) (msgId : ℤ) (msgData : Bytes) :
    Option SendCall :=
  match j.parse msgData with
  | none =>
      some (.text (j.toStyledString
        (j.message msgId (ascii "invalid json payload"))) msgId)
  | some root => do
      let root ← j.access root idKey
      let _ ← j.asInt root idKey
      let root ← j.access root dataKey
      let data ← j.asString root dataKey
      let root := j.setString root dataKey (replyText ++ data)
      let root ← j.access root idKey
      let id ← j.asInt root idKey
      return .text (j.toStyledString root) id

/-- The frame is one that the client accepts, and whose length is within the
limits of `HandleReadHead`. -/
structure FitsClient (frame : Bytes) : Prop where
  accepted : JsonClient.accepts frame
  length_pos : 1 ≤ headerLength frame
  length_le : headerLength frame ≤ maxLength

/-! ## The frame of a text -/

theorem encoding_text {msg : Bytes} (msgid : ℤ) (h : msg.length + 4 < 2 ^ 15) :
    (SendCall.text msg msgid).encoding =
      bigEndian (toUInt16 msgid) ++ (bigEndian msg.length ++ msg) := by
  obtain ⟨node, hnode, -, hbytes⟩ := makeNode_of_lt msgid h
  rw [SendCall.encoding, hnode, sentBytes, hbytes]

theorem drop_encoding_text {msg : Bytes} (msgid : ℤ)
    (h : msg.length + 4 < 2 ^ 15) :
    (SendCall.text msg msgid).encoding.drop headIdLen =
      bigEndian msg.length ++ msg := by
  rw [encoding_text msgid h, headIdLen, ← length_bigEndian (toUInt16 msgid),
    List.drop_left]

/-- Client and server read the same length. -/
theorem msglen_text {msg : Bytes} (msgid : ℤ) (h : msg.length + 4 < 2 ^ 15) :
    JsonClient.msglen (SendCall.text msg msgid).encoding = msg.length := by
  rw [JsonClient.msglen, drop_encoding_text msgid h, swapBytes_wordOf,
    ofBigEndian_bigEndian (by omega)]

theorem headerLength_text {msg : Bytes} (msgid : ℤ)
    (h : msg.length + 4 < 2 ^ 15) :
    headerLength (SendCall.text msg msgid).encoding = msg.length := by
  rw [headerLength, drop_encoding_text msgid h, hostShort_eq,
    ofBigEndian_bigEndian (by omega)]
  exact toInt16_eq_self (by omega) (by omega)

theorem accepts_text_iff {msg : Bytes} (msgid : ℤ)
    (h : msg.length + 4 < 2 ^ 15) :
    JsonClient.accepts (SendCall.text msg msgid).encoding ↔
      1 ≤ msg.length ∧ (msg.length : ℤ) ≤ maxLength := by
  simp only [JsonClient.accepts, msglen_text msgid h, decide_eq_true_eq]
  omega

/-- A text that is not too long fits exactly if it is not empty and not longer
than the limit. -/
theorem fitsClient_text_iff {msg : Bytes} (msgid : ℤ)
    (h : msg.length + 4 < 2 ^ 15) :
    FitsClient (SendCall.text msg msgid).encoding ↔
      1 ≤ msg.length ∧ (msg.length : ℤ) ≤ maxLength := by
  have hserver := headerLength_text msgid h
  constructor
  · rintro ⟨haccepts, -, -⟩
    exact (accepts_text_iff msgid h).mp haccepts
  · rintro ⟨hpos, hle⟩
    exact ⟨(accepts_text_iff msgid h).mpr ⟨hpos, hle⟩, by rw [hserver]; omega,
      by rwa [hserver]⟩

/-! ## The reply -/

variable {j : JsonCpp ν} {overhead : ℕ} {escaped : Bytes → ℕ}

namespace JsonCpp.Documented

/-- The object is sent back with the text in front of its data. -/
theorem helloWordCallBack_eq (h : j.Documented overhead escaped) (msgId : ℤ)
    (data : Bytes) :
    helloWordCallBack j msgId
        (j.toStyledString (j.message msgHelloWorld data)) =
      some (.text (j.toStyledString
        (j.message msgHelloWorld (replyText ++ data))) msgHelloWorld) := by
  simp only [helloWordCallBack, h.parse_styled, h.access_id, h.asInt_id,
    h.access_data, h.asString_data, h.setString_data, Option.bind_eq_bind,
    Option.bind_some, Option.pure_def]

theorem length_reply (h : j.Documented overhead escaped) (data : Bytes) :
    (j.toStyledString (j.message msgHelloWorld (replyText ++ data))).length =
      (j.toStyledString (j.message msgHelloWorld data)).length +
        replyText.length := by
  have hplain : ∀ b ∈ replyText, Plain b := by decide +kernel
  rw [h.length_styled, h.length_styled, h.escaped_append hplain, Nat.add_assoc]

end JsonCpp.Documented

theorem JsonClient.request_eq_some {userInput request : Bytes}
    (h : JsonClient.request j userInput = some request) :
    request = j.toStyledString (j.message msgHelloWorld userInput) ∧
      (request.length : ℤ) ≤ maxLength - headTotalLen := by
  simp only [JsonClient.request] at h
  split at h
  · cases h
  · split at h
    · cases h
    · next hfits =>
        obtain rfl := Option.some.inj h
        exact ⟨rfl, Int.not_lt.mp hfits⟩

/-- The reply to a request of the client fits exactly if the request leaves room
for the text that is put in front of its data. -/
theorem reply_fits_iff (h : j.Documented overhead escaped) (msgId : ℤ)
    {userInput request : Bytes}
    (hrequest : JsonClient.request j userInput = some request) :
    (∃ call, helloWordCallBack j msgId request = some call ∧
        FitsClient call.encoding) ↔
      (request.length + replyText.length : ℤ) ≤ maxLength := by
  obtain ⟨rfl, hle⟩ := JsonClient.request_eq_some hrequest
  have hlength := h.length_reply userInput
  have htext : replyText.length = 37 := by decide
  have hshort : (j.toStyledString
      (j.message msgHelloWorld (replyText ++ userInput))).length + 4 < 2 ^ 15 := by
    simp only [maxLength] at hle
    omega
  rw [h.helloWordCallBack_eq]
  simp only [Option.some.injEq, exists_eq_left', fitsClient_text_iff _ hshort,
    hlength]
  push_cast
  omega

/-- The client sends `hi`. -/
theorem reply_fits_hi :
    ∃ request call, JsonClient.request styled (ascii "hi") = some request ∧
      helloWordCallBack styled msgHelloWorld request = some call ∧
      FitsClient call.encoding := by
  have hrequest : JsonClient.request styled (ascii "hi") =
      some (styled.toStyledString (styled.message msgHelloWorld (ascii "hi"))) := by
    decide
  obtain ⟨call, hcall, hfits⟩ :=
    (reply_fits_iff documented_styled msgHelloWorld hrequest).mpr (by decide)
  exact ⟨_, call, hrequest, hcall, hfits⟩

/-- A line of 2000 letters. -/
def longLine : Bytes := List.replicate 2000 97

/-- The request has 2031 bytes and is sent; the reply has 2068, and the client
refuses it. -/
theorem reply_refused :
    ∃ request call, JsonClient.request styled longLine = some request ∧
      helloWordCallBack styled msgHelloWorld request = some call ∧
      headerLength call.encoding = 2068 ∧
      JsonClient.accepts call.encoding = false ∧
      ¬ FitsClient call.encoding := by
  have hplain : ∀ b ∈ longLine, Plain b := by
    intro b hb
    rw [List.eq_of_mem_replicate hb]
    decide
  have hrequest : (styled.toStyledString
      (styled.message msgHelloWorld longLine)).length = 2031 := by
    have hescaped := documented_styled.escaped_append hplain []
    rw [List.append_nil, longLine, List.length_replicate, ← longLine] at hescaped
    rw [documented_styled.length_styled, hescaped]
    rfl
  have hreply := documented_styled.length_reply longLine
  have htext : replyText.length = 37 := by decide
  have hshort : (styled.toStyledString (styled.message msgHelloWorld
      (replyText ++ longLine))).length + 4 < 2 ^ 15 := by
    omega
  have haccepts := accepts_text_iff msgHelloWorld hshort
  have hlong : ¬ ((2068 : ℕ) : ℤ) ≤ maxLength := by decide
  rw [hreply, hrequest, htext] at haccepts
  have hrefused : ¬ JsonClient.accepts (SendCall.text (styled.toStyledString
      (styled.message msgHelloWorld (replyText ++ longLine)))
        msgHelloWorld).encoding :=
    fun h => hlong (haccepts.mp h).2
  refine ⟨_, _, ?_, documented_styled.helloWordCallBack_eq _ longLine, ?_, ?_, ?_⟩
  · have hsent : ¬ (longLine = ascii "quit" ∨ longLine = []) := by decide
    rw [JsonClient.request, if_neg hsent, if_neg]
    rw [hrequest]
    decide
  · rw [headerLength_text _ hshort, hreply, hrequest, htext]
    rfl
  · exact Bool.not_eq_true _ ▸ hrefused
  · exact fun h => hrefused h.accepted

end BackendLab.ServicePool
