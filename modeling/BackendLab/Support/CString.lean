import Mathlib.Algebra.Group.Int.Defs
import Mathlib.Algebra.Group.Nat.Defs
import Mathlib.Data.List.TakeWhile
import Mathlib.Data.Int.Order.Basic

/-!
# Byte buffers and C strings

The part of `<string.h>`, `<strings.h>` and `<stdlib.h>` that byte-level
parsers use, over a memory given as a list of bytes.  A pointer into that
memory is an index, and a null pointer is `none`.  The C locale is assumed.

`StringAt mem p s` says that the NUL-terminated string `s` stands at `p`.
Proofs about code that cuts a string in place by storing NULs are carried out
with this relation, since it survives every store outside the string and its
terminator.
-/

namespace BackendLab.Support

abbrev Bytes := List UInt8

/-- The bytes of a string literal. -/
def ascii (s : String) : Bytes :=
  s.toList.map fun c => c.toNat.toUInt8

/-- `tolower` in the C locale. -/
def toLower (b : UInt8) : UInt8 :=
  if 65 ≤ b ∧ b ≤ 90 then b + 32 else b

/-- `isspace` in the C locale. -/
def isSpace (b : UInt8) : Bool :=
  b = 32 ∨ (9 ≤ b ∧ b ≤ 13)

/-- `isdigit` in the C locale. -/
def isDigit (b : UInt8) : Bool :=
  48 ≤ b ∧ b ≤ 57

/-! ## Library functions -/

/-- The C string that starts at `p`. -/
def cstr (mem : Bytes) (p : ℕ) : Bytes :=
  (mem.drop p).takeWhile (· != 0)

/-- The position of the first byte of the string at `p` that is in `accept`. -/
def strpbrk (mem : Bytes) (p : ℕ) (accept : Bytes) : Option ℕ :=
  let k := ((cstr mem p).takeWhile (· ∉ accept)).length
  if k < (cstr mem p).length then some (p + k) else none

/-- `strchr` for a character other than NUL. -/
def strchr (mem : Bytes) (p : ℕ) (c : UInt8) : Option ℕ :=
  strpbrk mem p [c]

def strspn (mem : Bytes) (p : ℕ) (accept : Bytes) : ℕ :=
  ((cstr mem p).takeWhile (· ∈ accept)).length

/-- `s` and `t` are equal when letter case is ignored. -/
def eqIgnoreCase (s t : Bytes) : Bool :=
  s.map toLower = t.map toLower

/-- `strcasecmp(p, lit) == 0`. -/
def strcasecmpEq (mem : Bytes) (p : ℕ) (lit : Bytes) : Bool :=
  eqIgnoreCase (cstr mem p) lit

/-- `strncasecmp(p, lit, n) == 0`. -/
def strncasecmpEq (mem : Bytes) (p : ℕ) (lit : Bytes) (n : ℕ) : Bool :=
  eqIgnoreCase ((cstr mem p).take n) (lit.take n)

/-- The value of a string of decimal digits. -/
def digitsValue (s : Bytes) : ℕ :=
  s.foldl (fun acc b => acc * 10 + (b.toNat - 48)) 0

/-- The integer written at the start of `s`: white space, an optional sign,
and the longest run of decimal digits, `0` when there is no digit. -/
def writtenInt (s : Bytes) : ℤ :=
  match s.dropWhile isSpace with
  | [] => 0
  | b :: t =>
      if b = 45 then -(digitsValue (t.takeWhile isDigit) : ℤ)
      else if b = 43 then digitsValue (t.takeWhile isDigit)
      else digitsValue ((b :: t).takeWhile isDigit)

/-- The nearest value of a 64-bit `long`. -/
def clampLong (x : ℤ) : ℤ :=
  max (-2 ^ 63) (min (2 ^ 63 - 1) x)

/-- `atol`: a value that does not fit a `long` is replaced by the nearest end
of its range. -/
def atol (s : Bytes) : ℤ :=
  clampLong (writtenInt s)

/-- Conversion of an integer to a 32-bit `int`. -/
def toInt32 (x : ℤ) : ℤ :=
  (x + 2 ^ 31) % 2 ^ 32 - 2 ^ 31

theorem toInt32_eq_self {x : ℤ} (h : -2 ^ 31 ≤ x) (h' : x < 2 ^ 31) :
    toInt32 x = x := by
  unfold toInt32
  omega

theorem toInt32_range (x : ℤ) : -2 ^ 31 ≤ toInt32 x ∧ toInt32 x < 2 ^ 31 := by
  unfold toInt32
  omega

/-! ## Cutting a string at a separator -/

/-- The text before and after the first byte that is in `accept`. -/
def cutAt (accept s : Bytes) : Option (Bytes × Bytes) :=
  match s.dropWhile (· ∉ accept) with
  | [] => none
  | _ :: t => some (s.takeWhile (· ∉ accept), t)

theorem cutAt_eq_some_iff {accept s a t : Bytes} :
    cutAt accept s = some (a, t) ↔
      ∃ w ∈ accept, s = a ++ w :: t ∧ ∀ b ∈ a, b ∉ accept := by
  constructor
  · intro h
    unfold cutAt at h
    split at h
    · cases h
    next w t' hdrop =>
      simp only [Option.some.injEq, Prod.mk.injEq] at h
      obtain ⟨rfl, rfl⟩ := h
      refine ⟨w, ?_, ?_, ?_⟩
      · have hhead := List.head?_dropWhile_not (· ∉ accept) s
        rw [hdrop] at hhead
        simpa using hhead
      · rw [← hdrop, List.takeWhile_append_dropWhile]
      · intro b hb
        simpa using List.mem_takeWhile_imp hb
  · rintro ⟨w, hw, rfl, ha⟩
    have hpos : ∀ b ∈ a, (decide (b ∉ accept)) = true := by
      simpa using ha
    unfold cutAt
    rw [List.dropWhile_append_of_pos hpos, List.takeWhile_append_of_pos hpos]
    simp [hw]

theorem cutAt_eq_none_iff {accept s : Bytes} :
    cutAt accept s = none ↔ ∀ b ∈ s, b ∉ accept := by
  unfold cutAt
  constructor
  · intro h
    split at h
    next hdrop => simpa using List.dropWhile_eq_nil_iff.mp hdrop
    · cases h
  · intro h
    rw [List.dropWhile_eq_nil_iff.mpr (by simpa using h)]

/-! ## Strings in memory -/

/-- The NUL-terminated string `s` stands at `p`. -/
def StringAt (mem : Bytes) (p : ℕ) (s : Bytes) : Prop :=
  (0 : UInt8) ∉ s ∧ ∃ rest, mem.drop p = s ++ 0 :: rest

namespace StringAt

variable {mem : Bytes} {p i : ℕ} {s a t : Bytes}

theorem cstr_eq (h : StringAt mem p s) : cstr mem p = s := by
  obtain ⟨hs, rest, hrest⟩ := h
  have hpos : ∀ b ∈ s, (b != 0) = true := by
    intro b hb
    simpa using fun h0 : b = 0 => hs (h0 ▸ hb)
  rw [cstr, hrest, List.takeWhile_append_of_pos hpos]
  simp

/-- A NUL somewhere behind `p` ends the string that starts at `p`. -/
theorem of_drop {l rest : Bytes} (h : mem.drop p = l ++ 0 :: rest) :
    StringAt mem p (l.takeWhile (· != 0)) := by
  refine ⟨fun h0 => by simpa using List.mem_takeWhile_imp h0, ?_⟩
  rw [h, ← List.takeWhile_append_dropWhile (p := (· != 0)) (l := l)]
  cases hdrop : l.dropWhile (· != 0) with
  | nil =>
      refine ⟨rest, ?_⟩
      rw [List.append_nil, List.takeWhile_idem]
  | cons b t =>
      have hhead := List.head?_dropWhile_not (· != 0) l
      rw [hdrop] at hhead
      obtain rfl : b = 0 := by simpa using hhead
      refine ⟨t ++ 0 :: rest, ?_⟩
      have hpos : ∀ b ∈ l.takeWhile (· != 0), (b != 0) = true := by
        intro b hb
        exact List.mem_takeWhile_imp (p := (· != 0)) hb
      rw [List.takeWhile_append_of_pos hpos]
      simp

theorem drop (h : StringAt mem p (a ++ t)) : StringAt mem (p + a.length) t := by
  obtain ⟨hs, rest, hrest⟩ := h
  refine ⟨fun h0 => hs (List.mem_append_right a h0), rest, ?_⟩
  rw [← List.drop_drop, hrest]
  simp

/-- A store beyond the terminator, or before the string, leaves it alone. -/
theorem set_of_ne (h : StringAt mem p s) (b : UInt8)
    (hi : i < p ∨ p + s.length < i) : StringAt (mem.set i b) p s := by
  obtain ⟨hs, rest, hrest⟩ := h
  refine ⟨hs, ?_⟩
  rcases hi with hi | hi
  · exact ⟨rest, by rw [List.drop_set_of_lt hi, hrest]⟩
  · refine ⟨rest.set (i - p - s.length - 1) b, ?_⟩
    rw [List.drop_set, if_neg (by omega), hrest, List.set_append,
      if_neg (by omega)]
    obtain ⟨k, hk⟩ : ∃ k, i - p - s.length = k + 1 :=
      ⟨i - p - s.length - 1, by omega⟩
    simp [hk]

/-- Storing a NUL inside a string leaves the text before it. -/
theorem cut (h : StringAt mem p (a ++ t)) :
    StringAt (mem.set (p + a.length) 0) p a := by
  obtain ⟨hs, rest, hrest⟩ := h
  refine ⟨fun h0 => hs (List.mem_append_left t h0), ?_⟩
  rw [List.drop_set, if_neg (by omega), hrest, List.append_assoc]
  refine ⟨(t ++ 0 :: rest).tail, ?_⟩
  rw [List.set_append, if_neg (by omega)]
  cases t with
  | nil => simp
  | cons b t => simp

/-- Storing a NUL anywhere leaves the part of the string before it. -/
theorem set_zero (h : StringAt mem p s) (i : ℕ) :
    StringAt (mem.set i 0) p (if p ≤ i then s.take (i - p) else s) := by
  by_cases hi : p ≤ i
  · rw [if_pos hi]
    by_cases hend : p + s.length < i
    · rw [List.take_of_length_le (by omega)]
      exact h.set_of_ne 0 (Or.inr hend)
    · have hlen : p + (s.take (i - p)).length = i := by
        rw [List.length_take]
        omega
      have hparts : StringAt mem p (s.take (i - p) ++ s.drop (i - p)) := by
        rwa [List.take_append_drop]
      have hcut := hparts.cut
      rwa [hlen] at hcut
  · rw [if_neg hi]
    exact h.set_of_ne 0 (Or.inl (by omega))

/-- What a string cut in two holds behind the cut. -/
theorem cut_right {w : UInt8} (h : StringAt mem p (a ++ w :: t)) :
    StringAt (mem.set (p + a.length) 0) (p + a.length + 1) t := by
  have htail : StringAt mem (p + (a ++ [w]).length) t := by
    apply drop
    simpa using h
  have hidx : p + (a ++ [w]).length = p + a.length + 1 := by simp; omega
  rw [hidx] at htail
  exact htail.set_of_ne 0 (Or.inl (by omega))

theorem strpbrk_eq (h : StringAt mem p s) (accept : Bytes) :
    strpbrk mem p accept = (cutAt accept s).map fun c => p + c.1.length := by
  unfold strpbrk
  rw [h.cstr_eq]
  cases hcut : cutAt accept s with
  | none =>
      have hall := cutAt_eq_none_iff.mp hcut
      rw [List.takeWhile_eq_self_iff.mpr (by simpa using hall)]
      simp
  | some c =>
      obtain ⟨a, t⟩ := c
      obtain ⟨w, hw, rfl, ha⟩ := cutAt_eq_some_iff.mp hcut
      rw [List.takeWhile_append_of_pos (by simpa using ha)]
      simp [hw]

theorem strcasecmpEq_eq (h : StringAt mem p s) (lit : Bytes) :
    strcasecmpEq mem p lit = eqIgnoreCase s lit := by
  rw [strcasecmpEq, h.cstr_eq]

theorem strncasecmpEq_eq (h : StringAt mem p s) (lit : Bytes) (n : ℕ)
    (hn : lit.length = n) :
    strncasecmpEq mem p lit n = eqIgnoreCase (s.take n) lit := by
  rw [strncasecmpEq, h.cstr_eq, List.take_of_length_le (le_of_eq hn)]

/-- The string that remains after skipping the bytes in `accept`. -/
theorem skip (h : StringAt mem p s) (accept : Bytes) :
    StringAt mem (p + strspn mem p accept) (s.dropWhile (· ∈ accept)) := by
  unfold strspn
  rw [h.cstr_eq]
  apply drop
  rwa [List.takeWhile_append_dropWhile]

end StringAt

/-! ## Fixed-size buffers -/

/-- Store `bs` at position `pos`. -/
def store {n : ℕ} (buf : Vector UInt8 n) (pos : ℕ) : Bytes → Vector UInt8 n
  | [] => buf
  | b :: bs => store (buf.setIfInBounds pos b) (pos + 1) bs

section Store

variable {n pos : ℕ} (buf : Vector UInt8 n)

theorem toList_store {bs : Bytes} (h : pos + bs.length ≤ n) :
    (store buf pos bs).toList =
      buf.toList.take pos ++ bs ++ buf.toList.drop (pos + bs.length) := by
  induction bs generalizing buf pos with
  | nil => simp [store]
  | cons b bs ih =>
      have hpos : pos < buf.toList.length := by
        simp only [List.length_cons, Vector.length_toList] at h ⊢
        omega
      simp only [List.length_cons] at h
      rw [store, ih _ (by omega), Vector.toList_setIfInBounds,
        List.set_eq_take_append_cons_drop, if_pos hpos]
      have hlen : (buf.toList.take pos).length = pos := by
        rw [List.length_take]
        omega
      have htake : (buf.toList.take pos ++
          b :: buf.toList.drop (pos + 1)).take (pos + 1) =
          buf.toList.take pos ++ [b] := by
        rw [List.take_append, hlen, List.take_of_length_le (by omega)]
        simp
      have hdrop : (buf.toList.take pos ++
          b :: buf.toList.drop (pos + 1)).drop (pos + 1 + bs.length) =
          buf.toList.drop (pos + (bs.length + 1)) := by
        rw [List.drop_append, hlen, List.drop_eq_nil_of_le (by omega),
          show pos + 1 + bs.length - pos = bs.length + 1 by omega]
        simp only [List.drop_succ_cons, List.nil_append, List.drop_drop]
        congr 1
        omega
      rw [htake, hdrop]
      simp

theorem getElem?_store_replicate {l k : ℕ} (h : l ≤ n) :
    (store buf 0 (List.replicate l 0)).toList[k]? =
      if k < l then some 0 else buf.toList[k]? := by
  rw [toList_store _ (by simpa using h), List.take_zero, List.nil_append,
    List.length_replicate, List.getElem?_append]
  simp only [List.length_replicate, List.getElem?_replicate,
    List.getElem?_drop]
  split
  · rfl
  · congr 1
    omega

theorem store_append (xs ys : Bytes) :
    store buf pos (xs ++ ys) = store (store buf pos xs) (pos + xs.length) ys := by
  induction xs generalizing buf pos with
  | nil => rfl
  | cons b xs ih =>
      simp only [List.cons_append, store, List.length_cons]
      rw [ih, show pos + 1 + xs.length = pos + (xs.length + 1) by omega]

/-- A single store commutes with a block store behind it. -/
theorem store_setIfInBounds_of_lt {i : ℕ} (b : UInt8) (bs : Bytes)
    (h : i < pos) :
    store (buf.setIfInBounds i b) pos bs =
      (store buf pos bs).setIfInBounds i b := by
  induction bs generalizing buf pos with
  | nil => rfl
  | cons c bs ih =>
      simp only [store]
      rw [← ih _ (by omega)]
      congr 1
      apply Vector.toList_inj.mp
      simp only [Vector.toList_setIfInBounds]
      exact List.set_comm _ _ (by omega)

/-- A block store leaves a string that ends before it alone. -/
theorem StringAt.store_of_lt {p : ℕ} {s : Bytes}
    (hs : StringAt buf.toList p s) (bs : Bytes) (h : p + s.length < pos) :
    StringAt (store buf pos bs).toList p s := by
  induction bs generalizing buf pos with
  | nil => exact hs
  | cons b bs ih =>
      apply ih
      · rw [Vector.toList_setIfInBounds]
        exact hs.set_of_ne b (Or.inr h)
      · omega

end Store

end BackendLab.Support
