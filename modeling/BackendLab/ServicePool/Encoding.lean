import BackendLab.ServicePool.Sending

/-!
# The length of a message to be sent

`Send(std::string, short)` hands the length of its text to a `short` parameter,
and the constructor of `SendNode` narrows it again after adding the length of the
header.  Depending on the length of the text, `new` throws, a `memcpy` leaves its
memory, or a node is made that holds a part of the text.
-/

namespace BackendLab.ServicePool

open Support

variable {msg : Bytes} {msgid : ℤ} {s : SendSession}

/-- `Send` comes to make the node of a call and is not stopped by an exception. -/
structure Enqueues (s : SendSession) (call : SendCall) : Prop where
  room : s.sendQue.queue.length ≤ maxSendQue
  noThrow : call.makeNode ≠ .error .badArrayNewLength

/-- `Send` enqueues a node with the whole text: the constructor copies only inside
its memory, and the node holds the identifier, the length and the text. -/
def EncodesWhole (s : SendSession) (msg : Bytes) (msgid : ℤ) : Prop :=
  ∃ node t, (SendCall.text msg msgid).makeNode = .ok node ∧
    s.send (.text msg msgid) = .ok t ∧ t.sendQue = s.sendQue.push node ∧
    node.totalLen = msg.length + headTotalLen ∧
    node.bytes = bigEndian (toUInt16 msgid) ++ (bigEndian msg.length ++ msg)

/-- The length of a node is a `short`. -/
theorem MsgNode.totalLen_lt {maxLen : ℤ} {node : MsgNode}
    (h : MsgNode.make maxLen = .ok node) : node.totalLen < 2 ^ 15 := by
  simp only [MsgNode.make] at h
  split_ifs at h
  rw [← Except.ok.inj h]
  exact (toInt16_range maxLen).2

theorem SendNode.totalLen_lt {maxLen : ℤ} {node : SendNode}
    (h : SendNode.make msg maxLen msgid = .ok node) :
    node.totalLen < 2 ^ 15 := by
  obtain ⟨base, hbase, h⟩ := exists_of_bind_eq_ok h
  obtain ⟨_, -, h⟩ := exists_of_bind_eq_ok h
  obtain ⟨_, -, h⟩ := exists_of_bind_eq_ok h
  obtain ⟨_, -, h⟩ := exists_of_bind_eq_ok h
  obtain ⟨_, -, h⟩ := exists_of_bind_eq_ok h
  have hlt := MsgNode.totalLen_lt hbase
  rw [← Except.ok.inj h]
  exact hlt

theorem not_encodesWhole_of_le (h : 2 ^ 15 ≤ msg.length + 4) :
    ¬ EncodesWhole s msg msgid := by
  rintro ⟨node, t, hnode, -, -, htotal, -⟩
  have hlt := SendNode.totalLen_lt hnode
  simp only [htotal, headTotalLen] at hlt
  omega

theorem makeNode_of_lt (msgid : ℤ) (h : msg.length + 4 < 2 ^ 15) :
    ∃ node, (SendCall.text msg msgid).makeNode = .ok node ∧
      node.totalLen = msg.length + 4 ∧
      node.bytes = bigEndian (toUInt16 msgid) ++
        (bigEndian msg.length ++ msg) := by
  have hlen : toInt16 (msg.length : ℤ) = msg.length :=
    toInt16_eq_self (by omega) (by omega)
  obtain ⟨node, hnode, htotal, hbytes⟩ :=
    SendNode.make_eq_ok msg (toInt16 msgid) h
  refine ⟨node, ?_, htotal, ?_⟩
  · rw [SendCall.makeNode, hlen, SendNode.make_append, hnode]
  · rw [hbytes, toUInt16_toInt16]

/-- A call of `Send` that comes to make a node enqueues the whole text exactly if
the text and the header together are shorter than `2 ^ 15` bytes. -/
theorem encodesWhole_iff (h : Enqueues s (.text msg msgid)) :
    EncodesWhole s msg msgid ↔ msg.length + headTotalLen < 2 ^ 15 := by
  constructor
  · intro hwhole
    by_contra hle
    exact not_encodesWhole_of_le (not_lt.mp hle) hwhole
  · intro hlt
    obtain ⟨node, hnode, htotal, hbytes⟩ := makeNode_of_lt msgid hlt
    refine ⟨node, ⟨s.sendQue.push node, s.accepted ++ [.text msg msgid]⟩, hnode,
      ?_, rfl, htotal, hbytes⟩
    rw [SendSession.send, if_neg (not_lt.mpr h.room), hnode]
    rfl

theorem encodesWhole_hi : EncodesWhole .start [104, 105] 1001 :=
  (encodesWhole_iff ⟨by decide, by decide⟩).mpr (by decide)

/-- Of a text of `2 ^ 16` bytes nothing is sent but a header with length zero. -/
theorem whole_not_encoded :
    Enqueues .start (.text (List.replicate (2 ^ 16) 97) 1001) ∧
      ¬ EncodesWhole .start (List.replicate (2 ^ 16) 97) 1001 := by
  refine ⟨⟨by decide, ?_⟩, not_encodesWhole_of_le (by
    rw [List.length_replicate]
    decide)⟩
  have hlen : toInt16 (List.replicate (2 ^ 16) (97 : UInt8)).length = 0 := by
    rw [List.length_replicate]
    decide
  have hnode := SendNode.make_append []
    (List.replicate (2 ^ 16) 97 ++ [0]) (toInt16 1001)
  rw [List.nil_append] at hnode
  rw [SendCall.makeNode, hlen]
  exact fun herror => absurd (hnode.symm.trans herror) (by decide)

end BackendLab.ServicePool
