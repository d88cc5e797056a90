import BackendLab.Coroutine.Reading

/-!
# The buffers of the coroutine

Every body read of the loop asks for as many bytes as its node has room for,
unless a header announces a body of length `0` or `-1`.
-/

namespace BackendLab.Coroutine

open Support ServicePool

/-- The read asks for an admitted number of bytes, which leaves room for the
terminator, and the terminator was stored inside the allocation. -/
structure BodyRead.Safe (r : BodyRead) : Prop where
  count_pos : 1 ≤ r.count
  count_le : (r.count : ℤ) ≤ maxLength
  count_lt : r.count < r.allocated
  terminator_nonneg : 0 ≤ r.terminator
  terminator_lt : r.terminator < r.allocated

theorem BodyRead.safe_make {n : ℕ} (hpos : 1 ≤ n) (hle : (n : ℤ) ≤ maxLength) :
    (BodyRead.make n).Safe := by
  have hsmall : n < 2 ^ 64 := by
    simp only [maxLength] at hle
    omega
  have hcount : toSizeT n = n := by
    unfold toSizeT
    omega
  have halloc : ((n : ℤ) + 1).toNat = n + 1 := by omega
  constructor <;> simp only [BodyRead.make, hcount, halloc] <;> omega

theorem BodyRead.not_safe_make_zero : ¬ (BodyRead.make 0).Safe :=
  fun h => absurd h.count_pos (by decide)

theorem BodyRead.not_safe_make_minus_one : ¬ (BodyRead.make (-1)).Safe :=
  fun h => absurd h.terminator_nonneg (by decide)

/-- The body reads that the loop has started when the bytes have arrived. -/
def bodyReads (stream : Bytes) : List BodyRead :=
  (coroutineReader.read .start stream).1.bodyReads

/-- The loop comes to no header of an admitted identifier with the length `0` or
`-1`. -/
def LengthsPositive (stream : Bytes) : Prop :=
  ∀ (ms : List (ℤ × Bytes)) (header rest : Bytes),
    stream = ms.flatMap encode ++ (header ++ rest) →
    (∀ m ∈ ms, loopFraming.Valid m) → header.length = headTotalLen →
    headerId header ≤ maxLength →
      headerLength header ≠ 0 ∧ headerLength header ≠ -1

theorem safe_of_valid {ms : List (ℤ × Bytes)}
    (h : ∀ m ∈ ms, loopFraming.Valid m) :
    ∀ r ∈ ms.map (fun m => BodyRead.make m.2.length), r.Safe := by
  intro r hr
  obtain ⟨m, hm, rfl⟩ := List.mem_map.mp hr
  obtain ⟨-, -, hpos, hle⟩ := valid_shortFraming_iff.mp (h m hm)
  exact BodyRead.safe_make hpos hle

/-- The body reads stay inside their buffers exactly when no header that the loop
comes to announces a body of length `0` or `-1`. -/
theorem safe_bodyReads_iff (stream : Bytes) :
    (∀ r ∈ bodyReads stream, r.Safe) ↔ LengthsPositive stream := by
  constructor
  · intro hsafe ms header rest hstream hvalid hlen hid
    rw [bodyReads, hstream, read_flatMap_encode hvalid] at hsafe
    constructor
    · intro hzero
      rw [read_header_of_zero rfl hlen hid hzero] at hsafe
      exact BodyRead.not_safe_make_zero (hsafe _ (by simp))
    · intro hminus
      rw [read_header_of_minus_one rfl hlen hid hminus] at hsafe
      exact BodyRead.not_safe_make_minus_one (hsafe _ (by simp))
  · intro hpos
    obtain ⟨ms, rest, hstream, hvalid, hstuck⟩ :=
      loopFraming.exists_frames stream
    rw [flatMap_frame hvalid] at hstream
    have hsafe := safe_of_valid hvalid
    rw [bodyReads, hstream, read_flatMap_encode hvalid]
    cases hstuck with
    | short hshort =>
        rw [Reader.read_of_waiting (reads_loopFraming.request_head rfl) hshort]
        exact hsafe
    | @refused header rest hlen hrefused =>
        have hbad := parse_shortFraming_eq_none hrefused
        have hended : maxLength < headerId header ∨
            maxLength < headerLength header ∨ headerLength header < -1 := by
          by_cases hid : headerId header ≤ maxLength
          · have hne := hpos ms header rest hstream hvalid hlen hid
            omega
          · omega
        obtain ⟨stage, -, hread⟩ := read_header_of_ended
          (s := ⟨.head, ms, ms.length, ms.map fun m => BodyRead.make m.2.length⟩) rfl
          hlen hended rest
        rw [hread]
        exact hsafe
    | @partly header rest a n hlen haccepted hbody =>
        obtain ⟨hid, hone, hle, ha, hn⟩ := parse_shortFraming_eq_some haccepted
        rw [read_header_of_partly rfl hlen haccepted hbody]
        intro r hr
        rcases List.mem_append.mp hr with hr | hr
        · exact hsafe r hr
        · rw [List.mem_singleton.mp hr]
          rw [hn] at hone hle
          exact BodyRead.safe_make (by omega) hle

/-- The header `00 01 FF FF` makes the loop read `2 ^ 64 - 1` bytes into an
allocation of no bytes. -/
theorem not_safe_bodyReads_minus_one :
    bodyReads [0, 1, 255, 255] = [⟨2 ^ 64 - 1, 0, -1⟩] ∧
      ¬ ∀ r ∈ bodyReads [0, 1, 255, 255], r.Safe := by
  have hloop : (coroutineReader.read .start ([0, 1, 255, 255] ++ [])).1 =
      ⟨.overrun, [], 1, [BodyRead.make (-1)]⟩ :=
    read_header_of_minus_one rfl rfl (by decide) (by decide) []
  have hread : bodyReads [0, 1, 255, 255] = [BodyRead.make (-1)] :=
    congrArg Session.bodyReads hloop
  constructor
  · rw [hread]
    decide
  · rw [hread]
    intro h
    exact BodyRead.not_safe_make_minus_one (h _ (by simp))

end BackendLab.Coroutine
