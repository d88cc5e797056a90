import BackendLab.Support.ByteOrder
import BackendLab.Support.Framing
import Mathlib.Tactic.Common

/-!
# Messages of the servers with a service pool

The classes `MsgNode`, `RecvNode` and `SendNode`, which the server with an
`io_context` pool and the coroutine server share.  A node owns an allocation of
one byte more than its `_total_len`.  All lengths are of type `short`, so that a
constructor may be asked for a negative number of bytes: `new` then throws, and
an allocation of no bytes at all does not hold the terminator.
-/

namespace BackendLab.ServicePool

open Support

/-- `MAX_LENGTH`. -/
def maxLength : ℤ := 1024 * 2

theorem maxLength_pos : 0 < maxLength := by decide

theorem lt_of_le_maxLength {n : ℤ} (h : n ≤ maxLength) : n < 2 ^ 15 :=
  h.trans_lt (by decide)

def headTotalLen : ℕ := 4
def headIdLen : ℕ := 2
def headDataLen : ℕ := 2

/-- How a constructor can fail to make its node: `new char[n]` throws for a
negative `n`, and a store outside the allocation is undefined. -/
inductive NodeError where
  | badArrayNewLength
  | outOfBounds
  deriving DecidableEq, Repr

structure MsgNode where
  totalLen : ℤ
  curLen : ℤ
  data : Bytes
  deriving DecidableEq, Repr

/-- The constructor of `MsgNode`: its parameter is a `short`. -/
def MsgNode.make (maxLen : ℤ) : Except NodeError MsgNode :=
  let totalLen := toInt16 maxLen
  if totalLen + 1 < 0 then .error .badArrayNewLength
  else if totalLen < 0 then .error .outOfBounds
  else .ok ⟨totalLen, 0, List.replicate (totalLen.toNat + 1) 0⟩

structure RecvNode extends MsgNode where
  msgId : ℤ
  deriving DecidableEq, Repr

def RecvNode.make (maxLen msgId : ℤ) : Except NodeError RecvNode := do
  let node ← MsgNode.make maxLen
  return { node with msgId := msgId }

structure SendNode extends MsgNode where
  msgId : ℤ
  deriving DecidableEq, Repr

/-- `memcpy` to a place inside an allocation. -/
def copyTo (data : Bytes) (pos : ℕ) (bs : Bytes) : Except NodeError Bytes :=
  if pos + bs.length ≤ data.length then
    .ok (data.take pos ++ bs ++ data.drop (pos + bs.length))
  else .error .outOfBounds

/-- The first `n` bytes behind a pointer, `n` being converted to `size_t`. -/
def source (msg : Bytes) (n : ℤ) : Except NodeError Bytes :=
  if 0 ≤ n ∧ n ≤ msg.length then .ok (msg.take n.toNat)
  else .error .outOfBounds

/-- The bytes in memory of a `short` in network order. -/
def networkShort (v : ℤ) : Bytes :=
  wordBytes (toUInt16 (toInt16 (swapBytes (toUInt16 v))))

def SendNode.make (msg : Bytes) (maxLen msgId : ℤ) :
    Except NodeError SendNode := do
  let node ← MsgNode.make (maxLen + headTotalLen)
  let data ← copyTo node.data 0 (networkShort msgId)
  let data ← copyTo data headIdLen (networkShort maxLen)
  let payload ← source msg maxLen
  let data ← copyTo data (headIdLen + headDataLen) payload
  return { node with data := data, msgId := msgId }

/-- The bytes that `async_write` is given for a node. -/
def SendNode.bytes (node : SendNode) : Bytes :=
  node.data.take node.totalLen.toNat

/-- What is sent when the constructor has made a node. -/
def sentBytes : Except NodeError SendNode → Bytes
  | .ok node => node.bytes
  | .error _ => []

/-- The frame that a `SendNode` makes of a message. -/
def encode (m : ℤ × Bytes) : Bytes :=
  sentBytes (SendNode.make m.2 m.2.length m.1)

/-! ## The frame of a node -/

theorem networkShort_eq (v : ℤ) : networkShort v = bigEndian (toUInt16 v) := by
  have hlt := toUInt16_lt v
  have hswap : swapBytes (toUInt16 v) < 2 ^ 16 := by
    unfold swapBytes
    omega
  have hsame : toUInt16 (swapBytes (toUInt16 v) : ℕ) =
      swapBytes (toUInt16 v) := toUInt16_natCast hswap
  rw [networkShort, toUInt16_toInt16, hsame, wordBytes_swapBytes hlt]

theorem MsgNode.make_eq_ok {maxLen : ℤ} (h : 0 ≤ maxLen)
    (h' : maxLen < 2 ^ 15) :
    MsgNode.make maxLen =
      .ok ⟨maxLen, 0, List.replicate (maxLen.toNat + 1) 0⟩ := by
  have hself : toInt16 maxLen = maxLen := toInt16_eq_self (by omega) h'
  rw [make, hself, if_neg (by omega), if_neg (by omega)]

/-- Copying over a part of the same length. -/
theorem copyTo_eq {data x old y bs : Bytes} {pos : ℕ}
    (hdata : data = x ++ (old ++ y)) (hpos : x.length = pos)
    (hlen : bs.length = old.length) :
    copyTo data pos bs = .ok (x ++ (bs ++ y)) := by
  subst hdata hpos
  have hle : x.length + bs.length ≤ (x ++ (old ++ y)).length := by
    simp only [List.length_append]
    omega
  rw [copyTo, if_pos hle, List.take_left, hlen, ← List.drop_drop,
    List.drop_left, List.drop_left, List.append_assoc]

theorem copyTo_zero {old y bs : Bytes} (hlen : bs.length = old.length) :
    copyTo (old ++ y) 0 bs = .ok (bs ++ y) := by
  have hcopy := copyTo_eq (List.nil_append (old ++ y)).symm rfl hlen
  rwa [List.nil_append] at hcopy

/-- The allocation of a node for `n` bytes behind the header. -/
theorem allocation_eq (n : ℕ) :
    List.replicate (((n : ℤ) + 4).toNat + 1) (0 : UInt8) =
      List.replicate 2 0 ++
        (List.replicate 2 0 ++ (List.replicate n 0 ++ [0])) := by
  have hnat : ((n : ℤ) + 4).toNat + 1 = 2 + (2 + (n + 1)) := by omega
  rw [hnat, ← List.replicate_one]
  simp only [List.replicate_append_replicate]

theorem ok_bind {ε α β : Type} (x : α) (f : α → Except ε β) :
    (Except.ok x >>= f) = f x := rfl

theorem exists_of_bind_eq_ok {ε α β : Type} {x : Except ε α}
    {f : α → Except ε β} {b : β} (h : (x >>= f) = .ok b) :
    ∃ a, x = .ok a ∧ f a = .ok b := by
  cases x with
  | error e => cases h
  | ok a => exact ⟨a, rfl, h⟩

/-- A `SendNode` with the length of its message holds the identifier, the
length and the message. -/
theorem SendNode.make_eq_ok (msg : Bytes) (msgId : ℤ)
    (h : msg.length + 4 < 2 ^ 15) :
    ∃ node, SendNode.make msg msg.length msgId = .ok node ∧
      node.totalLen = msg.length + 4 ∧
      node.bytes = bigEndian (toUInt16 msgId) ++
        (bigEndian msg.length ++ msg) := by
  have hlen : toUInt16 (msg.length : ℤ) = msg.length :=
    toUInt16_natCast (by omega)
  have hnode : MsgNode.make ((msg.length : ℤ) + headTotalLen) =
      .ok ⟨msg.length + 4, 0, List.replicate 2 0 ++
        (List.replicate 2 0 ++ (List.replicate msg.length 0 ++ [0]))⟩ := by
    rw [← allocation_eq]
    exact MsgNode.make_eq_ok (by omega) (by simp only [headTotalLen]; omega)
  have hid : copyTo (List.replicate 2 0 ++
        (List.replicate 2 0 ++ (List.replicate msg.length 0 ++ [0]))) 0
        (networkShort msgId) =
      .ok (networkShort msgId ++
        (List.replicate 2 0 ++ (List.replicate msg.length 0 ++ [0]))) :=
    copyTo_zero (by simp [networkShort_eq])
  have hfield : copyTo (networkShort msgId ++
        (List.replicate 2 0 ++ (List.replicate msg.length 0 ++ [0]))) headIdLen
        (networkShort msg.length) =
      .ok (networkShort msgId ++
        (networkShort msg.length ++ (List.replicate msg.length 0 ++ [0]))) :=
    copyTo_eq rfl (by simp [networkShort_eq, headIdLen])
      (by simp [networkShort_eq])
  have hbody : copyTo (networkShort msgId ++
        (networkShort msg.length ++ (List.replicate msg.length 0 ++ [0])))
        (headIdLen + headDataLen) msg =
      .ok (networkShort msgId ++ networkShort msg.length ++ (msg ++ [0])) :=
    copyTo_eq (List.append_assoc _ _ _).symm
      (by simp [networkShort_eq, headIdLen, headDataLen]) (by simp)
  have hsource : source msg msg.length = .ok msg := by
    simp [source]
  refine ⟨⟨⟨msg.length + 4, 0, networkShort msgId ++
    networkShort msg.length ++ (msg ++ [0])⟩, msgId⟩, ?_, rfl, ?_⟩
  · simp only [make, hnode, ok_bind, hid, hfield, hsource, hbody, pure,
      Except.pure]
  · have htake : ((msg.length : ℤ) + 4).toNat =
        (networkShort msgId ++ networkShort msg.length ++ msg).length := by
      simp only [networkShort_eq, List.length_append, length_bigEndian]
      omega
    rw [bytes, htake, ← List.append_assoc, List.take_left, networkShort_eq,
      networkShort_eq, hlen, List.append_assoc]

/-- The terminator behind the text is not copied. -/
theorem SendNode.make_append (msg tail : Bytes) (msgId : ℤ) :
    SendNode.make (msg ++ tail) msg.length msgId =
      SendNode.make msg msg.length msgId := by
  have hle : (msg.length : ℤ) ≤ (msg ++ tail).length := by
    rw [List.length_append]
    omega
  have hsource : source (msg ++ tail) msg.length = source msg msg.length := by
    rw [source, if_pos ⟨by omega, hle⟩, source, if_pos ⟨by omega, le_refl _⟩]
    simp
  simp only [SendNode.make, hsource]

/-- A message that the servers accept. -/
structure Sendable (m : ℤ × Bytes) : Prop where
  id_pos : 1 ≤ m.1
  id_le : m.1 ≤ maxLength
  length_pos : 1 ≤ m.2.length
  length_le : (m.2.length : ℤ) ≤ maxLength

theorem encode_eq {m : ℤ × Bytes} (h : m.2.length + 4 < 2 ^ 15) :
    encode m = bigEndian (toUInt16 m.1) ++ (bigEndian m.2.length ++ m.2) := by
  obtain ⟨node, hnode, -, hbytes⟩ := SendNode.make_eq_ok m.2 m.1 h
  rw [encode, hnode]
  exact hbytes

/-! ## Headers -/

/-- The `short` that `network_to_host_short` makes of two bytes. -/
def hostShort (bs : Bytes) : ℤ :=
  toInt16 (swapBytes (wordOf bs))

/-- The identifier and the length in a header. -/
def headerId (bs : Bytes) : ℤ :=
  hostShort bs

def headerLength (bs : Bytes) : ℤ :=
  hostShort (bs.drop headIdLen)

theorem hostShort_eq (bs : Bytes) : hostShort bs = toInt16 (ofBigEndian bs) := by
  rw [hostShort, swapBytes_wordOf]

theorem hostShort_bigEndian (v : ℤ) (bs : Bytes) :
    hostShort (bigEndian (toUInt16 v) ++ bs) = toInt16 v := by
  rw [hostShort_eq, ofBigEndian_bigEndian (toUInt16_lt v), toInt16_toUInt16]

theorem bigEndian_hostShort (hi lo : UInt8) (bs : Bytes) :
    bigEndian (toUInt16 (hostShort (hi :: lo :: bs))) = [hi, lo] := by
  have hlt := ofBigEndian_lt (hi :: lo :: bs)
  have hsame : toUInt16 (ofBigEndian (hi :: lo :: bs) : ℕ) =
      ofBigEndian (hi :: lo :: bs) := toUInt16_natCast hlt
  rw [hostShort_eq, toUInt16_toInt16, hsame, bigEndian_ofBigEndian]

theorem toNat_of_hostShort {bs : Bytes} (h : 1 ≤ hostShort bs) :
    (hostShort bs).toNat = toUInt16 (hostShort bs) := by
  have hrange := toInt16_range (swapBytes (wordOf bs))
  rw [hostShort] at h ⊢
  unfold toUInt16
  omega

theorem exists_of_length_four {bs : Bytes} (h : bs.length = 4) :
    ∃ b0 b1 b2 b3, bs = [b0, b1, b2, b3] := by
  match bs, h with
  | [b0, b1, b2, b3], _ => exact ⟨b0, b1, b2, b3, rfl⟩

/-- The frames whose identifier meets `p` and whose length is admitted. -/
def shortFraming (p : ℤ → Prop) [DecidablePred p] : Framing ℤ where
  headLen := headTotalLen
  parse := fun bs =>
    if p (headerId bs) ∧ 1 ≤ headerLength bs ∧ headerLength bs ≤ maxLength then
      some (headerId bs, (headerLength bs).toNat)
    else none
  header := fun a n => bigEndian (toUInt16 a) ++ bigEndian n
  headLen_pos := by decide
  header_of_parse := by
    intro bs a n hlen h
    split at h
    · next hok =>
        obtain ⟨rfl, rfl⟩ := Prod.mk.inj (Option.some.inj h)
        obtain ⟨b0, b1, b2, b3, rfl⟩ := exists_of_length_four hlen
        have hlength : headerLength [b0, b1, b2, b3] = hostShort [b2, b3] := rfl
        have hn : (headerLength [b0, b1, b2, b3]).toNat =
            toUInt16 (hostShort [b2, b3]) := by
          rw [hlength] at hok ⊢
          exact toNat_of_hostShort hok.2.1
        rw [hn, headerId, bigEndian_hostShort, bigEndian_hostShort]
        rfl
    · cases h

variable {p : ℤ → Prop} [DecidablePred p]

theorem parse_shortFraming_eq_some {bs : Bytes} {a : ℤ} {n : ℕ}
    (h : (shortFraming p).parse bs = some (a, n)) :
    p (headerId bs) ∧ 1 ≤ headerLength bs ∧ headerLength bs ≤ maxLength ∧
      headerId bs = a ∧ headerLength bs = n := by
  simp only [shortFraming] at h
  split at h
  · next hok =>
      obtain ⟨hid, hlen⟩ := Prod.mk.inj (Option.some.inj h)
      obtain ⟨hp, hpos, hle⟩ := hok
      exact ⟨hp, hpos, hle, hid, by omega⟩
  · cases h

theorem parse_shortFraming_of_range {bs : Bytes} (hp : p (headerId bs))
    (hpos : 1 ≤ headerLength bs) (hle : headerLength bs ≤ maxLength) :
    (shortFraming p).parse bs =
      some (headerId bs, (headerLength bs).toNat) := by
  simp only [shortFraming]
  exact if_pos ⟨hp, hpos, hle⟩

theorem parse_shortFraming_eq_none {bs : Bytes}
    (h : (shortFraming p).parse bs = none) :
    ¬ (p (headerId bs) ∧ 1 ≤ headerLength bs ∧
      headerLength bs ≤ maxLength) := by
  simp only [shortFraming] at h
  split at h
  · cases h
  · assumption

theorem frame_shortFraming {m : ℤ × Bytes} (h : m.2.length + 4 < 2 ^ 15) :
    (shortFraming p).frame m = encode m := by
  rw [encode_eq h, Framing.frame, shortFraming, List.append_assoc]

/-- The fields of a header as the constructor of `SendNode` writes them. -/
theorem headerId_header (a : ℤ) (n : ℕ) :
    headerId (bigEndian (toUInt16 a) ++ bigEndian n) = toInt16 a :=
  hostShort_bigEndian a _

theorem headerLength_header {n : ℕ} (a : ℤ) (h : n < 2 ^ 15) :
    headerLength (bigEndian (toUInt16 a) ++ bigEndian n) = n := by
  have hn : toUInt16 (n : ℤ) = n := toUInt16_natCast (by omega)
  have hshort := hostShort_bigEndian n []
  rw [hn, List.append_nil] at hshort
  have hdrop : (bigEndian (toUInt16 a) ++ bigEndian n).drop headIdLen =
      bigEndian n := by
    rw [headIdLen, ← length_bigEndian (toUInt16 a), List.drop_left]
  rw [headerLength, hdrop, hshort]
  exact toInt16_eq_self (by omega) (by omega)

theorem valid_shortFraming_iff {m : ℤ × Bytes} :
    (shortFraming p).Valid m ↔
      p m.1 ∧ toInt16 m.1 = m.1 ∧ 1 ≤ m.2.length ∧
        (m.2.length : ℤ) ≤ maxLength := by
  constructor
  · rintro ⟨-, hparse⟩
    obtain ⟨hp, hpos, hle, hid, hlen⟩ := parse_shortFraming_eq_some hparse
    rw [hid] at hp
    rw [hlen] at hpos hle
    refine ⟨hp, ?_, by omega, hle⟩
    exact (headerId_header m.1 m.2.length).symm.trans hid
  · rintro ⟨hp, hid, hpos, hle⟩
    have hsmall : m.2.length < 2 ^ 15 := by
      have hlt := lt_of_le_maxLength hle
      omega
    refine ⟨rfl, ?_⟩
    simp only [shortFraming, headerId_header, headerLength_header m.1 hsmall,
      hid]
    rw [if_pos ⟨hp, by omega, hle⟩, Int.toNat_natCast]

theorem length_add_four_lt {m : ℤ × Bytes}
    (h : (m.2.length : ℤ) ≤ maxLength) : m.2.length + 4 < 2 ^ 15 := by
  simp only [maxLength] at h
  omega

/-- A sequence of valid messages is framed as the `SendNode`s encode it. -/
theorem flatMap_frame {ms : List (ℤ × Bytes)}
    (h : ∀ m ∈ ms, (shortFraming p).Valid m) :
    ms.flatMap (shortFraming p).frame = ms.flatMap encode := by
  have hmap : ms.map (shortFraming p).frame = ms.map encode := by
    apply List.map_congr_left
    intro m hm
    have hvalid := valid_shortFraming_iff.mp (h m hm)
    exact frame_shortFraming (length_add_four_lt hvalid.2.2.2)
  rw [List.flatMap_def, List.flatMap_def, hmap]

end BackendLab.ServicePool
