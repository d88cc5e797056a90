import BackendLab.Support.CString

/-!
# Sixteen-bit fields

Values of the types `short` and `uint16_t`, their bytes in the memory of a
little-endian host, and the byte swap that takes them to network order and
back.
-/

namespace BackendLab.Support

/-- Conversion of an integer to a `short`. -/
def toInt16 (x : ℤ) : ℤ :=
  (x + 2 ^ 15) % 2 ^ 16 - 2 ^ 15

/-- Conversion of an integer to a `uint16_t`. -/
def toUInt16 (x : ℤ) : ℕ :=
  (x % 2 ^ 16).toNat

theorem toInt16_eq_self {x : ℤ} (h : -2 ^ 15 ≤ x) (h' : x < 2 ^ 15) :
    toInt16 x = x := by
  unfold toInt16
  omega

theorem toInt16_range (x : ℤ) : -2 ^ 15 ≤ toInt16 x ∧ toInt16 x < 2 ^ 15 := by
  unfold toInt16
  omega

theorem toUInt16_lt (x : ℤ) : toUInt16 x < 2 ^ 16 := by
  unfold toUInt16
  omega

@[simp] theorem toUInt16_toInt16 (x : ℤ) : toUInt16 (toInt16 x) = toUInt16 x := by
  unfold toUInt16 toInt16
  omega

@[simp] theorem toInt16_toUInt16 (x : ℤ) : toInt16 (toUInt16 x) = toInt16 x := by
  unfold toUInt16 toInt16
  omega

/-- The bytes of a `uint16_t` in memory. -/
def wordBytes (v : ℕ) : Bytes :=
  [UInt8.ofNat (v % 256), UInt8.ofNat (v / 256)]

/-- The `uint16_t` that the first two bytes form in memory. -/
def wordOf : Bytes → ℕ
  | lo :: hi :: _ => lo.toNat + 256 * hi.toNat
  | _ => 0

theorem wordOf_lt (bs : Bytes) : wordOf bs < 2 ^ 16 := by
  match bs with
  | [] => simp [wordOf]
  | [_] => simp [wordOf]
  | lo :: hi :: _ =>
      have h1 := lo.toNat_lt
      have h2 := hi.toNat_lt
      simp only [wordOf]
      omega

theorem toUInt16_natCast {n : ℕ} (h : n < 2 ^ 16) : toUInt16 n = n := by
  unfold toUInt16
  omega

/-- `host_to_network_short` and `network_to_host_short`. -/
def swapBytes (v : ℕ) : ℕ :=
  v % 256 * 256 + v / 256

/-- The two bytes of a number in network order. -/
def bigEndian (v : ℕ) : Bytes :=
  [UInt8.ofNat (v / 256), UInt8.ofNat (v % 256)]

/-- The number that the first two bytes form in network order. -/
def ofBigEndian : Bytes → ℕ
  | hi :: lo :: _ => 256 * hi.toNat + lo.toNat
  | _ => 0

@[simp] theorem length_bigEndian (v : ℕ) : (bigEndian v).length = 2 := rfl

/-- What is copied out of a swapped `uint16_t` is the number in network
order. -/
theorem wordBytes_swapBytes {v : ℕ} (h : v < 2 ^ 16) :
    wordBytes (swapBytes v) = bigEndian v := by
  have hlo : swapBytes v % 256 = v / 256 := by
    unfold swapBytes
    omega
  have hhi : swapBytes v / 256 = v % 256 := by
    unfold swapBytes
    omega
  rw [wordBytes, hlo, hhi, bigEndian]

/-- What is read into a `uint16_t` and swapped is the number in network
order. -/
theorem swapBytes_wordOf (bs : Bytes) :
    swapBytes (wordOf bs) = ofBigEndian bs := by
  match bs with
  | [] => simp [wordOf, ofBigEndian, swapBytes]
  | [_] => simp [wordOf, ofBigEndian, swapBytes]
  | hi :: lo :: _ =>
      have h1 := hi.toNat_lt
      have h2 := lo.toNat_lt
      simp only [wordOf, ofBigEndian, swapBytes]
      omega

theorem ofBigEndian_lt (bs : Bytes) : ofBigEndian bs < 2 ^ 16 := by
  match bs with
  | [] => simp [ofBigEndian]
  | [_] => simp [ofBigEndian]
  | hi :: lo :: _ =>
      have h1 := hi.toNat_lt
      have h2 := lo.toNat_lt
      simp only [ofBigEndian]
      omega

theorem ofBigEndian_bigEndian {v : ℕ} (h : v < 2 ^ 16) (bs : Bytes) :
    ofBigEndian (bigEndian v ++ bs) = v := by
  have hhi : v / 256 < 256 := by omega
  have hlo : v % 256 < 256 := Nat.mod_lt _ (by decide)
  simp only [bigEndian, List.cons_append, ofBigEndian, UInt8.toNat_ofNat',
    Nat.mod_eq_of_lt hhi]
  omega

theorem bigEndian_ofBigEndian (hi lo : UInt8) (bs : Bytes) :
    bigEndian (ofBigEndian (hi :: lo :: bs)) = [hi, lo] := by
  have h2 := lo.toNat_lt
  have hdiv : (256 * hi.toNat + lo.toNat) / 256 = hi.toNat := by omega
  have hmod : (256 * hi.toNat + lo.toNat) % 256 = lo.toNat := by omega
  rw [ofBigEndian, bigEndian, hdiv, hmod, UInt8.ofNat_toNat, UInt8.ofNat_toNat]

end BackendLab.Support
