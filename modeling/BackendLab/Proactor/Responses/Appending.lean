import BackendLab.Proactor.Connection.Response

/-!
# Appending to the write buffer

`add_response` tests the fill level, hands the rest of the buffer to `vsnprintf`
and tests the length of the text, each time with another expression for the room
that is left.  A text that does not fit is stored cut off behind the text that
has been accepted, and `m_write_idx` stays where it is.
-/

namespace BackendLab.Proactor

open Support

namespace HttpConn

variable {c : HttpConn} {accepted : List Bytes}

/-! ## One call -/

/-- The size that `add_response` gives to `vsnprintf`, as the `int` it is before
its conversion to `size_t`. -/
def vsnprintfSize (c : HttpConn) : ℤ :=
  writeBufferSize - 1 - c.writeIdx

/-- What `vsnprintf(_, n, ...)` stores of a text. -/
def vsnprintfBytes (n : ℤ) (text : Bytes) : Bytes :=
  if n = 0 then [] else text.take (n.toNat - 1) ++ [0]

theorem length_vsnprintfBytes_le {n : ℤ} (h : 0 ≤ n) (text : Bytes) :
    ((vsnprintfBytes n text).length : ℤ) ≤ n := by
  unfold vsnprintfBytes
  split
  · simpa using h
  · have htake : (text.take (n.toNat - 1)).length ≤ n.toNat - 1 :=
      List.length_take_le _ _
    rw [List.length_append, List.length_singleton]
    omega

theorem vsnprintfBytes_of_lt {n : ℤ} {text : Bytes} (h : text.length < n) :
    vsnprintfBytes n text = text ++ [0] := by
  rw [vsnprintfBytes, if_neg (by omega), List.take_of_length_le (by omega)]

/-- A call that finds room for `vsnprintf`, with the tests as the source has
them. -/
theorem addResponse_eq (hidx : c.writeIdx < writeBufferSize) (text : Bytes) :
    c.addResponse text =
      if c.vsnprintfSize ≤ text.length then
        (false, { c with
          writeBuf := store c.writeBuf c.writeIdx
            (vsnprintfBytes c.vsnprintfSize text) })
      else
        (true, { c with
          writeBuf := store c.writeBuf c.writeIdx
            (vsnprintfBytes c.vsnprintfSize text)
          writeIdx := c.writeIdx + text.length }) := by
  have hroom : c.vsnprintfSize = (writeBufferSize - 1 - c.writeIdx : ℕ) := by
    unfold vsnprintfSize
    omega
  have hbytes : vsnprintfBytes c.vsnprintfSize text =
      if writeBufferSize - 1 - c.writeIdx = 0 then []
      else text.take (writeBufferSize - 1 - c.writeIdx - 1) ++ [0] := by
    rw [vsnprintfBytes, hroom, Int.toNat_natCast]
    simp only [Int.natCast_eq_zero]
  have htest : c.vsnprintfSize ≤ text.length ↔
      writeBufferSize - 1 - c.writeIdx ≤ text.length := by
    rw [hroom]
    omega
  rw [addResponse, if_neg (not_le.mpr hidx)]
  simp only [hbytes, htest]

/-! ## The text that has been accepted -/

/-- The write buffer holds the accepted texts, one behind the other, with room
for a terminator and one byte more. -/
structure Appended (c : HttpConn) (accepted : List Bytes) : Prop where
  writeIdx_le : c.writeIdx ≤ writeBufferSize - 2
  text : c.writeBuf.toList.take c.writeIdx = accepted.flatten

theorem appended_nil (h : c.writeIdx = 0) : c.Appended [] where
  writeIdx_le := h ▸ Nat.zero_le _
  text := by rw [h]; rfl

namespace Appended

theorem lt_writeBufferSize (h : c.Appended accepted) :
    c.writeIdx < writeBufferSize :=
  lt_of_le_of_lt h.writeIdx_le (by decide)

theorem vsnprintfSize_pos (h : c.Appended accepted) : 0 < c.vsnprintfSize := by
  have hidx := h.writeIdx_le
  have hsize : writeBufferSize = 1024 := rfl
  unfold vsnprintfSize
  omega

/-- `vsnprintf` stays inside `m_write_buf`. -/
theorem stored_le (h : c.Appended accepted) (text : Bytes) :
    c.writeIdx + (vsnprintfBytes c.vsnprintfSize text).length ≤
      writeBufferSize := by
  have hidx := h.lt_writeBufferSize
  have hlength := length_vsnprintfBytes_le h.vsnprintfSize_pos.le text
  unfold vsnprintfSize at hlength
  unfold vsnprintfSize
  omega

theorem length_take_writeIdx (h : c.Appended accepted) :
    (c.writeBuf.toList.take c.writeIdx).length = c.writeIdx := by
  have hidx := h.lt_writeBufferSize
  rw [List.length_take, Vector.length_toList]
  omega

/-- The text in front of `m_write_idx` is not touched. -/
theorem take_store (h : c.Appended accepted) (text : Bytes) :
    (store c.writeBuf c.writeIdx
      (vsnprintfBytes c.vsnprintfSize text)).toList.take c.writeIdx =
        c.writeBuf.toList.take c.writeIdx := by
  rw [toList_store _ (h.stored_le text), List.append_assoc]
  exact List.take_left' h.length_take_writeIdx

/-- A text that does not fit leaves `m_write_idx` and the text in front of it. -/
theorem addResponse_of_le (h : c.Appended accepted) {text : Bytes}
    (hlong : c.vsnprintfSize ≤ text.length) :
    (c.addResponse text).1 = false ∧
      (c.addResponse text).2.writeIdx = c.writeIdx ∧
      (c.addResponse text).2.writeBuf.toList.take c.writeIdx =
        c.writeBuf.toList.take c.writeIdx := by
  rw [addResponse_eq h.lt_writeBufferSize, if_pos hlong]
  exact ⟨rfl, rfl, h.take_store text⟩

/-- A text that fits is put behind the others. -/
theorem addResponse_of_lt (h : c.Appended accepted) {text : Bytes}
    (hshort : text.length < c.vsnprintfSize) :
    (c.addResponse text).1 = true ∧
      (c.addResponse text).2.Appended (accepted ++ [text]) := by
  have hroom := h.stored_le text
  rw [addResponse_eq h.lt_writeBufferSize, if_neg (not_le.mpr hshort)]
  rw [vsnprintfBytes_of_lt hshort] at hroom ⊢
  refine ⟨rfl, ?_, ?_⟩
  · have hsize : writeBufferSize = 1024 := rfl
    unfold vsnprintfSize at hshort
    simp only
    omega
  · have hlength : (accepted.flatten ++ text).length =
        c.writeIdx + text.length := by
      rw [List.length_append, ← h.text, h.length_take_writeIdx]
    simp only [toList_store _ hroom, h.text, List.append_assoc,
      List.flatten_append, List.flatten_singleton]
    rw [← List.append_assoc, List.take_left' hlength]

theorem addResponse (h : c.Appended accepted) (text : Bytes) :
    (c.addResponse text).2.Appended
      (accepted ++ if (c.addResponse text).1 then [text] else []) := by
  rcases lt_or_ge (text.length : ℤ) c.vsnprintfSize with hshort | hlong
  · obtain ⟨htrue, happended⟩ := h.addResponse_of_lt hshort
    rwa [htrue, if_pos rfl]
  · obtain ⟨hfalse, hidx, htake⟩ := h.addResponse_of_le hlong
    rw [hfalse, if_neg (by decide), List.append_nil]
    exact ⟨hidx ▸ h.writeIdx_le, by rw [hidx, htake, h.text]⟩

end Appended

/-! ## A sequence of calls -/

/-- The results of a sequence of calls, and the connection they leave. -/
def addResponses (c : HttpConn) : List Bytes → List Bool × HttpConn
  | [] => ([], c)
  | text :: texts =>
      ((c.addResponse text).1 :: ((c.addResponse text).2.addResponses texts).1,
        ((c.addResponse text).2.addResponses texts).2)

/-- The texts of the calls that returned `true`. -/
def acceptedTexts : List Bytes → List Bool → List Bytes
  | text :: texts, ok :: oks =>
      (if ok then [text] else []) ++ acceptedTexts texts oks
  | _, _ => []

theorem Appended.addResponses (h : c.Appended accepted) (texts : List Bytes) :
    (c.addResponses texts).2.Appended
      (accepted ++ acceptedTexts texts (c.addResponses texts).1) := by
  induction texts generalizing c accepted with
  | nil => simpa [HttpConn.addResponses, acceptedTexts] using h
  | cons text texts ih =>
      have hrest := ih (h.addResponse text)
      rw [List.append_assoc] at hrest
      exact hrest

/-- After every sequence of calls on an empty write buffer, `m_write_idx` is at
most `WRITE_BUFFER_SIZE - 2`, and the buffer in front of it holds the texts of the
calls that returned `true`.  A further call, whatever its text, gives `vsnprintf`
a size that is not negative, changes the write buffer only by what `vsnprintf`
stores inside of it, and if it returns `false`, leaves `m_write_idx` and the text
in front of it as they were. -/
theorem addResponses_atomic (hidx : c.writeIdx = 0) (texts : List Bytes)
    {d : HttpConn} (hd : d = (c.addResponses texts).2) :
    d.writeIdx ≤ writeBufferSize - 2 ∧
      d.writeBuf.toList.take d.writeIdx =
        (acceptedTexts texts (c.addResponses texts).1).flatten ∧
      0 ≤ d.vsnprintfSize ∧
      ∀ text,
        (d.addResponse text).2.writeBuf =
            store d.writeBuf d.writeIdx (vsnprintfBytes d.vsnprintfSize text) ∧
          d.writeIdx + (vsnprintfBytes d.vsnprintfSize text).length ≤
            writeBufferSize ∧
          ((d.addResponse text).1 = false →
            (d.addResponse text).2.writeIdx = d.writeIdx ∧
              (d.addResponse text).2.writeBuf.toList.take d.writeIdx =
                d.writeBuf.toList.take d.writeIdx) := by
  subst hd
  have happended := (appended_nil hidx).addResponses texts
  rw [List.nil_append] at happended
  refine ⟨happended.writeIdx_le, happended.text,
    happended.vsnprintfSize_pos.le, fun text => ⟨?_, ?_, ?_⟩⟩
  · rw [addResponse_eq happended.lt_writeBufferSize]
    split <;> rfl
  · exact happended.stored_le text
  · intro hfalse
    rcases lt_or_ge (text.length : ℤ)
      (c.addResponses texts).2.vsnprintfSize with hshort | hlong
    · rw [(happended.addResponse_of_lt hshort).1] at hfalse
      cases hfalse
    · exact (happended.addResponse_of_le hlong).2

/-- A text that fills the buffer up to its last byte but two, and one that does
not fit behind it. -/
theorem addResponses_atomic_full :
    (HttpConn.blank.addResponses
        [List.replicate 1022 97, List.replicate 1 98]).2.writeIdx ≤
      writeBufferSize - 2 ∧
      (HttpConn.blank.addResponses
        [List.replicate 1022 97, List.replicate 1 98]).2.writeBuf.toList.take
          (HttpConn.blank.addResponses
            [List.replicate 1022 97, List.replicate 1 98]).2.writeIdx =
        (acceptedTexts [List.replicate 1022 97, List.replicate 1 98]
          (HttpConn.blank.addResponses
            [List.replicate 1022 97, List.replicate 1 98]).1).flatten := by
  have hfull := addResponses_atomic (c := HttpConn.blank) rfl
    [List.replicate 1022 97, List.replicate 1 98] rfl
  exact ⟨hfull.1, hfull.2.1⟩

end HttpConn

end BackendLab.Proactor
