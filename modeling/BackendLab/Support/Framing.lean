import BackendLab.Support.CString
import BackendLab.Support.Loop

/-!
# Streams of frames

A frame is a header of fixed length, which gives a tag and the length of a
body, followed by the body.  A stream of bytes is, in one way only, a sequence
of frames followed by something that is not a frame: too few bytes, or a header
that is refused.

A reader asks for a number of bytes at a time, and is given them as soon as the
stream has them.
-/

namespace BackendLab.Support

/-- Headers with a tag in `α`.  A header that is accepted is the one that
belongs to its tag and its length. -/
structure Framing (α : Type*) where
  headLen : ℕ
  parse : Bytes → Option (α × ℕ)
  header : α → ℕ → Bytes
  headLen_pos : 0 < headLen
  header_of_parse : ∀ {bs a n}, bs.length = headLen → parse bs = some (a, n) →
    header a n = bs

namespace Framing

variable {α : Type*} (F : Framing α)

def frame (m : α × Bytes) : Bytes :=
  F.header m.1 m.2.length ++ m.2

/-- The message can be sent: its header has the right length and is
accepted. -/
def Valid (m : α × Bytes) : Prop :=
  (F.header m.1 m.2.length).length = F.headLen ∧
    F.parse (F.header m.1 m.2.length) = some (m.1, m.2.length)

/-- A rest of a stream that does not start with a frame: it is too short for a
header, or its header is refused, or it is too short for the body. -/
inductive Stuck : Bytes → Prop
  | short {rest : Bytes} (h : rest.length < F.headLen) : Stuck rest
  | refused {header rest : Bytes} (hlen : header.length = F.headLen)
      (h : F.parse header = none) : Stuck (header ++ rest)
  | partly {header rest : Bytes} {a : α} {n : ℕ}
      (hlen : header.length = F.headLen) (h : F.parse header = some (a, n))
      (hbody : rest.length < n) : Stuck (header ++ rest)

theorem valid_of_parse {header body : Bytes} {a : α}
    (hlen : header.length = F.headLen)
    (h : F.parse header = some (a, body.length)) :
    F.Valid (a, body) ∧ F.frame (a, body) = header ++ body := by
  have hheader := F.header_of_parse hlen h
  refine ⟨⟨?_, ?_⟩, ?_⟩
  · rw [hheader, hlen]
  · rw [hheader, h]
  · rw [frame, hheader]

/-- Every stream is a sequence of frames followed by something that is no
frame. -/
theorem exists_frames (bs : Bytes) :
    ∃ (ms : List (α × Bytes)) (rest : Bytes),
      bs = ms.flatMap F.frame ++ rest ∧ (∀ m ∈ ms, F.Valid m) ∧
        F.Stuck rest := by
  induction hn : bs.length using Nat.strongRecOn generalizing bs with
  | _ n ih =>
      by_cases hshort : bs.length < F.headLen
      · exact ⟨[], bs, by simp, by simp, .short hshort⟩
      · have hhead : (bs.take F.headLen).length = F.headLen :=
          List.length_take_of_le (Nat.le_of_not_lt hshort)
        have hsplit := List.take_append_drop F.headLen bs
        generalize bs.take F.headLen = header at hhead hsplit
        generalize bs.drop F.headLen = tail at hsplit
        subst hsplit
        cases hparse : F.parse header with
        | none =>
            exact ⟨[], header ++ tail, by simp, by simp, .refused hhead hparse⟩
        | some am =>
            obtain ⟨a, k⟩ := am
            by_cases hbody : tail.length < k
            · exact ⟨[], header ++ tail, by simp, by simp,
                .partly hhead hparse hbody⟩
            · have htake : (tail.take k).length = k :=
                List.length_take_of_le (Nat.le_of_not_lt hbody)
              rw [← htake] at hparse
              obtain ⟨hvalid, hframe⟩ := F.valid_of_parse hhead hparse
              have hpos := F.headLen_pos
              have hless : (tail.drop k).length < n := by
                rw [← hn, List.length_append, List.length_drop]
                omega
              obtain ⟨ms, rest, hrest, hall, hstuck⟩ := ih _ hless _ rfl
              refine ⟨(a, tail.take k) :: ms, rest, ?_, ?_, hstuck⟩
              · rw [List.flatMap_cons, List.append_assoc, ← hrest, hframe,
                  List.append_assoc, List.take_append_drop]
              · exact List.forall_mem_cons.mpr ⟨hvalid, hall⟩

end Framing

/-- Of two beginnings of a sequence of frames that are not empty, the one with the
shorter stream has the fewer frames. -/
theorem length_le_of_flatMap_isPrefix {α : Type*} {f : α → Bytes}
    {xs ys zs : List α} (hxs : xs <+: zs) (hys : ys <+: zs)
    (hne : ∀ z ∈ zs, f z ≠ []) (h : xs.flatMap f <+: ys.flatMap f) :
    xs.length ≤ ys.length := by
  by_contra hlt
  obtain ⟨more, rfl⟩ := List.prefix_of_prefix_length_le hys hxs (by omega)
  have hlen := h.length_le
  cases more with
  | nil => simp at hlt
  | cons z more =>
      have hz : f z ≠ [] := hne z (hxs.subset (by simp))
      have hpos : 0 < (f z).length := List.length_pos_iff.mpr hz
      simp only [List.flatMap_append, List.flatMap_cons,
        List.length_append] at hlen
      omega

/-! ## Readers -/

/-- What a read reports when it is over: an error, or the bytes. -/
inductive Completion where
  | failed
  | transferred (bytes : Bytes)
  deriving DecidableEq, Repr

/-- A reader asks for a number of bytes, or for none when it has ended.  Asking
for zero bytes lowers the weight, so that a reader cannot go on for ever. -/
structure Reader (σ : Type*) where
  request : σ → Option ℕ
  deliver : σ → Bytes → σ
  weight : σ → Bool
  weight_of_request : ∀ {s bs}, request s = some 0 →
    weight s = true ∧ weight (deliver s bs) = false

namespace Reader

variable {σ : Type*} (R : Reader σ)

/-- The completions of the reads, as long as the stream has the bytes. -/
def loop : Loop (σ × Bytes) (σ × Bytes) where
  step := fun x =>
    match R.request x.1 with
    | none => .inl x
    | some n =>
        if n ≤ x.2.length then .inr (R.deliver x.1 (x.2.take n), x.2.drop n)
        else .inl x
  rank := fun x => 2 * x.2.length + (R.weight x.1).toNat
  rank_lt := by
    rintro ⟨s, bs⟩ ⟨s', bs'⟩ h
    dsimp only at h
    split at h
    · cases h
    · next n hn =>
        split at h
        · next hle =>
            obtain ⟨rfl, rfl⟩ := Prod.mk.inj (Sum.inr.inj h)
            have hw := Bool.toNat_le (R.weight (R.deliver s (bs.take n)))
            have hlen : (bs.drop n).length = bs.length - n := List.length_drop
            simp only
            by_cases hzero : n = 0
            · subst hzero
              have hweight := @R.weight_of_request s (bs.take 0) hn
              rw [hweight.1, hweight.2, hlen]
              exact Nat.lt_succ_self _
            · omega
        · cases h

/-- The state of the reader and the bytes it has not asked for, when it waits
or has ended. -/
def read (s : σ) (bs : Bytes) : σ × Bytes :=
  R.loop.run (s, bs)

variable {R} {s : σ}

theorem read_of_ended (h : R.request s = none) (bs : Bytes) :
    R.read s bs = (s, bs) :=
  R.loop.run_of_exit (by simp [loop, h])

theorem read_of_waiting {n : ℕ} {bs : Bytes} (h : R.request s = some n)
    (hlt : bs.length < n) : R.read s bs = (s, bs) :=
  R.loop.run_of_exit (by simp [loop, h, Nat.not_le.mpr hlt])

theorem read_of_request {n : ℕ} {bs : Bytes} (h : R.request s = some n)
    (hle : n ≤ bs.length) :
    R.read s bs = R.read (R.deliver s (bs.take n)) (bs.drop n) :=
  R.loop.run_of_round (by simp [loop, h, hle])

theorem read_append (x y : Bytes) (h : R.request s = some x.length) :
    R.read s (x ++ y) = R.read (R.deliver s x) y := by
  rw [read_of_request h (by simp), List.take_left, List.drop_left]

/-- A property that every completion keeps. -/
theorem read_invariant (I : σ → Prop)
    (h : ∀ s n bs, I s → R.request s = some n → bs.length = n →
      I (R.deliver s bs)) {s : σ} (hs : I s) (bs : Bytes) :
    I (R.read s bs).1 := by
  refine R.loop.run_invariant (fun x => I x.1) (fun x => I x.1) ?_ ?_ (s, bs) hs
  · rintro ⟨s, bs⟩ x hs hstep
    simp only [loop] at hstep
    split at hstep
    · cases hstep
    · next n hn =>
        split at hstep
        · next hle =>
            rw [← Sum.inr.inj hstep]
            exact h s n _ hs hn (List.length_take_of_le hle)
        · cases hstep
  · rintro ⟨s, bs⟩ x hs hstep
    simp only [loop] at hstep
    split at hstep
    · exact Sum.inl.inj hstep ▸ hs
    · split at hstep
      · cases hstep
      · exact Sum.inl.inj hstep ▸ hs

/-! ### A stream that arrives in pieces -/

/-- Once `arrived` has come in, the reader stands at `s` and has not been given
`unread`: whatever comes in next, it goes on from there as if it were given the
whole stream at once. -/
def Follows (R : Reader σ) (start : σ) (arrived : Bytes) (s : σ)
    (unread : Bytes) : Prop :=
  ∀ more, R.read start (arrived ++ more) = R.read s (unread ++ more)

theorem follows_start (start : σ) : R.Follows start [] start [] :=
  fun _ => rfl

section Follows

variable {start : σ} {arrived unread : Bytes}

theorem Follows.arrive (h : R.Follows start arrived s unread) (bytes : Bytes) :
    R.Follows start (arrived ++ bytes) s (unread ++ bytes) := by
  intro more
  rw [List.append_assoc, List.append_assoc]
  exact h (bytes ++ more)

theorem Follows.deliver (h : R.Follows start arrived s unread) {n : ℕ}
    (hn : R.request s = some n) (hle : n ≤ unread.length) :
    R.Follows start arrived (R.deliver s (unread.take n)) (unread.drop n) := by
  intro more
  rw [h more, read_of_request hn (by rw [List.length_append]; omega),
    List.take_append_of_le_length hle, List.drop_append_of_le_length hle]

theorem Follows.read_eq (h : R.Follows start arrived s unread) :
    R.read start arrived = R.read s unread := by
  have hnow := h []
  rwa [List.append_nil, List.append_nil] at hnow

/-- A reader that waits has been given all that it could be given. -/
theorem Follows.read_of_waiting (h : R.Follows start arrived s unread)
    (hwait : ∀ n, R.request s = some n → unread.length < n) :
    R.read start arrived = (s, unread) := by
  rw [h.read_eq]
  cases hs : R.request s with
  | none => exact read_of_ended hs unread
  | some n => exact Reader.read_of_waiting hs (hwait n hs)

/-- Where the reader stands after some bytes, it goes on with the next. -/
theorem follows_read (start : σ) (arrived : Bytes) :
    R.Follows start arrived (R.read start arrived).1
      (R.read start arrived).2 := by
  refine R.loop.run_invariant (fun x => R.Follows start arrived x.1 x.2)
    (fun x => R.Follows start arrived x.1 x.2) ?_ ?_ (start, arrived)
    (fun _ => rfl)
  · rintro ⟨s, bs⟩ x hs hstep
    simp only [loop] at hstep
    split at hstep
    · cases hstep
    · next n hn =>
        split at hstep
        · next hle =>
            rw [← Sum.inr.inj hstep]
            exact hs.deliver hn hle
        · cases hstep
  · rintro ⟨s, bs⟩ x hs hstep
    simp only [loop] at hstep
    split at hstep
    · exact Sum.inl.inj hstep ▸ hs
    · split at hstep
      · cases hstep
      · exact Sum.inl.inj hstep ▸ hs

end Follows

end Reader

/-- A reader that between two frames asks for a header, and takes a frame in two
reads. -/
structure Reads {σ α : Type*} (R : Reader σ) (F : Framing α) (ready : σ → Prop)
    (take : σ → α × Bytes → σ) : Prop where
  request_head : ∀ {s}, ready s → R.request s = some F.headLen
  request_body : ∀ {s bs a n}, ready s → bs.length = F.headLen →
    F.parse bs = some (a, n) → R.request (R.deliver s bs) = some n
  deliver_body : ∀ {s bs a body}, ready s → bs.length = F.headLen →
    F.parse bs = some (a, body.length) →
      R.deliver (R.deliver s bs) body = take s (a, body)
  ready_take : ∀ {s m}, ready s → F.Valid m → ready (take s m)

namespace Reads

variable {σ α : Type*} {R : Reader σ} {F : Framing α} {ready : σ → Prop}
  {take : σ → α × Bytes → σ}

theorem read_header (h : Reads R F ready take) {s : σ} (hs : ready s)
    {header : Bytes} (hlen : header.length = F.headLen) (rest : Bytes) :
    R.read s (header ++ rest) = R.read (R.deliver s header) rest := by
  apply R.read_append
  rw [h.request_head hs, hlen]

theorem read_frame (h : Reads R F ready take) {s : σ} {m : α × Bytes}
    (hs : ready s) (hm : F.Valid m) (rest : Bytes) :
    R.read s (F.frame m ++ rest) = R.read (take s m) rest := by
  rw [Framing.frame, List.append_assoc, h.read_header hs hm.1,
    R.read_append _ _ (h.request_body hs hm.1 hm.2),
    h.deliver_body hs hm.1 hm.2]

/-- The frames at the start of a stream are taken one after the other. -/
theorem read_frames (h : Reads R F ready take) {s : σ} (hs : ready s)
    {ms : List (α × Bytes)} (hms : ∀ m ∈ ms, F.Valid m) (rest : Bytes) :
    R.read s (ms.flatMap F.frame ++ rest) = R.read (ms.foldl take s) rest := by
  induction ms generalizing s with
  | nil => rfl
  | cons m ms ih =>
      obtain ⟨hm, hms⟩ := List.forall_mem_cons.mp hms
      rw [List.flatMap_cons, List.append_assoc, h.read_frame hs hm]
      exact ih (h.ready_take hs hm) hms

end Reads

end BackendLab.Support
