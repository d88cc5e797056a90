import BackendLab.Support.StructLayout
import BackendLab.Proactor.Connection.Model

/-!
# The array of connections in memory

`users` is an array of `MAX_FD` objects of class `http_conn`, one behind the
other.  This file works out where `init()` clears memory: its second `bzero`
starts at `m_write_buf` but is given the size of the longer read buffer, so it
runs over the members declared behind `m_write_buf` and over the beginning of
the next connection.

Sizes and alignments are those of the LP64 data model.
-/

namespace BackendLab.Proactor

open Support

/-- `MAX_FD`. -/
def maxFd : ℕ := 65535

/-- The data members of `http_conn`. -/
inductive Member where
  | sockfd | address | readBuf | readIdx | checkedIndex | startLine
  | checkState | url | version | method | host | linger | contentLength
  | realFile | writeBuf | writeIdx | fileAddress | fileStat | iv | ivCount
  deriving DecidableEq, Repr

def Member.size : Member → ℕ
  | .sockfd | .readIdx | .checkedIndex | .startLine | .checkState | .method
  | .contentLength | .writeIdx | .ivCount => 4
  | .url | .version | .host | .fileAddress => 8
  | .linger => 1
  | .address => 16
  | .readBuf => readBufferSize
  | .realFile => filenameLen
  | .writeBuf => writeBufferSize
  | .fileStat => 144
  | .iv => 32

def Member.align : Member → ℕ
  | .readBuf | .realFile | .writeBuf | .linger => 1
  | .url | .version | .host | .fileAddress | .fileStat | .iv => 8
  | _ => 4

/-- Class `http_conn`, its members in declaration order. -/
def httpConn : StructLayout Member where
  members := [.sockfd, .address, .readBuf, .readIdx, .checkedIndex, .startLine,
    .checkState, .url, .version, .method, .host, .linger, .contentLength,
    .realFile, .writeBuf, .writeIdx, .fileAddress, .fileStat, .iv, .ivCount]
  size := Member.size
  align := Member.align

@[simp] theorem sizeof_httpConn : httpConn.sizeof = 3552 := by decide

@[simp] theorem offset_httpConn (m : Member) :
    httpConn.offset m = match m with
      | .sockfd => 0
      | .address => 4
      | .readBuf => 20
      | .readIdx => 2068
      | .checkedIndex => 2072
      | .startLine => 2076
      | .checkState => 2080
      | .url => 2088
      | .version => 2096
      | .method => 2104
      | .host => 2112
      | .linger => 2120
      | .contentLength => 2124
      | .realFile => 2128
      | .writeBuf => 2328
      | .writeIdx => 3352
      | .fileAddress => 3360
      | .fileStat => 3368
      | .iv => 3512
      | .ivCount => 3544 := by
  cases m <;> decide

theorem member_start (i : ℕ) (m : Member) :
    (httpConn.member i m).start = i * 3552 + httpConn.offset m := by
  rw [StructLayout.member, sizeof_httpConn]

theorem contains_element_iff {i a : ℕ} :
    (httpConn.element i).Contains a ↔ i * 3552 ≤ a ∧ a < i * 3552 + 3552 := by
  simp only [Region.Contains, StructLayout.element, sizeof_httpConn]

theorem contains_member_iff {i a : ℕ} {m : Member} :
    (httpConn.member i m).Contains a ↔
      i * 3552 + httpConn.offset m ≤ a ∧
        a < i * 3552 + httpConn.offset m + m.size := by
  rw [Region.Contains, StructLayout.member, sizeof_httpConn]
  rfl

/-! ## What `init()` clears -/

/-- The members to which `init()` assigns.  Every value it assigns is zero:
the first enumerator, `false`, a null pointer or the number. -/
def assignedMembers : List Member :=
  [.checkState, .linger, .method, .url, .version, .contentLength, .host,
    .startLine, .checkedIndex, .readIdx, .writeIdx]

/-- The memory that `init()` clears when called on `users[i]`. -/
def initRegions (i : ℕ) : List Region :=
  assignedMembers.map (httpConn.member i) ++
    [⟨(httpConn.member i .readBuf).start, readBufferSize⟩,
      ⟨(httpConn.member i .writeBuf).start, readBufferSize⟩,
      ⟨(httpConn.member i .realFile).start, filenameLen⟩]

/-- `init()` on `users[i]`. -/
def initSlot (mem : Memory) (i : ℕ) : Memory :=
  bzeroAll mem (initRegions i)

/-- The number of bytes by which `bzero(m_write_buf, READ_BUFFER_SIZE)` runs
over the end of the object. -/
def overrunLength : ℕ :=
  httpConn.offset .writeBuf + readBufferSize - httpConn.sizeof

theorem overrunLength_eq : overrunLength = 824 := by decide

/-- Everything from `m_write_buf` to the end of the overrun is cleared. -/
theorem covers_behind {i a : ℕ} (hlo : i * 3552 + 2328 ≤ a)
    (hhi : a < i * 3552 + 4376) : Covers (initRegions i) a := by
  refine ⟨⟨(httpConn.member i .writeBuf).start, readBufferSize⟩,
    by simp [initRegions], ?_⟩
  simp only [Region.Contains, StructLayout.member, sizeof_httpConn,
    offset_httpConn, readBufferSize]
  omega

theorem bounds_of_mem {i : ℕ} {r : Region} (h : r ∈ initRegions i) :
    i * 3552 + 20 ≤ r.start ∧ r.start + r.length ≤ i * 3552 + 4376 := by
  have hassigned : ∀ m ∈ assignedMembers, 20 ≤ httpConn.offset m ∧
      httpConn.offset m + httpConn.size m ≤ 4376 := by decide
  rw [initRegions, List.mem_append, List.mem_map] at h
  rcases h with ⟨m, hm, rfl⟩ | h
  · have hpos := hassigned m hm
    simp only [StructLayout.member, sizeof_httpConn]
    omega
  · simp only [List.mem_cons, List.not_mem_nil, or_false] at h
    rcases h with rfl | rfl | rfl <;>
      simp [StructLayout.member, readBufferSize, filenameLen, Nat.add_assoc]

theorem bounds_of_covers {i a : ℕ} (h : Covers (initRegions i) a) :
    i * 3552 + 20 ≤ a ∧ a < i * 3552 + 4376 := by
  obtain ⟨r, hr, hin⟩ := h
  obtain ⟨hlo, hhi⟩ := bounds_of_mem hr
  exact ⟨hlo.trans hin.1, hin.2.trans_le hhi⟩

/-- Every member of `users[i]` except `m_sockfd` and `m_address` is cleared. -/
theorem covers_member {i a : ℕ} {m : Member} (hs : m ≠ .sockfd)
    (ha : m ≠ .address) (h : (httpConn.member i m).Contains a) :
    Covers (initRegions i) a := by
  by_cases hm : m ∈ assignedMembers
  · refine ⟨httpConn.member i m, ?_, h⟩
    rw [initRegions, List.mem_append]
    exact Or.inl (List.mem_map_of_mem hm)
  · by_cases hr : m = .readBuf ∨ m = .realFile
    · refine ⟨httpConn.member i m, ?_, h⟩
      rcases hr with rfl | rfl <;>
        simp [initRegions, StructLayout.member, httpConn, Member.size]
    · -- what remains is declared behind `m_real_file`
      have hpos : 2328 ≤ httpConn.offset m ∧
          httpConn.offset m + m.size ≤ 3552 := by
        revert hs ha hm hr
        cases m <;> decide
      rw [contains_member_iff] at h
      exact covers_behind (by omega) (by omega)

theorem initSlot_eq_iff {mem : Memory} {i a : ℕ} :
    initSlot mem i a = mem a ↔ (Covers (initRegions i) a → mem a = 0) :=
  bzeroAll_eq_iff

theorem initSlot_of_bounds {mem : Memory} {i a : ℕ}
    (h : a < i * 3552 + 20 ∨ i * 3552 + 4376 ≤ a) :
    initSlot mem i a = mem a := by
  rw [initSlot_eq_iff]
  intro hcov
  have hbounds := bounds_of_covers hcov
  omega

/-! ## Isolation -/

/-- The members behind `m_write_idx`, which hold the response being sent. -/
def responseMembers : List Member :=
  [.fileAddress, .fileStat, .iv, .ivCount]

/-- `init()` on `users[i]` changes no byte of another connection, and none of
the members that hold the response. -/
structure Isolated (mem : Memory) (i : ℕ) : Prop where
  others : ∀ j < maxFd, j ≠ i → ∀ a, (httpConn.element j).Contains a →
    initSlot mem i a = mem a
  response : ∀ m ∈ responseMembers, ∀ a, (httpConn.member i m).Contains a →
    initSlot mem i a = mem a

/-- The bytes of another connection that `init()` on `users[i]` clears are the
first ones of the next connection. -/
theorem covers_other_iff {i j a : ℕ} (hne : j ≠ i)
    (ha : (httpConn.element j).Contains a) :
    Covers (initRegions i) a ↔
      j = i + 1 ∧ a < (i + 1) * httpConn.sizeof + overrunLength := by
  rw [contains_element_iff] at ha
  rw [overrunLength_eq, sizeof_httpConn]
  constructor
  · intro hcov
    have hbounds := bounds_of_covers hcov
    have hj : j = i + 1 := by
      by_contra hj
      rcases Nat.lt_or_gt_of_ne hne with hlt | hgt <;> omega
    subst hj
    omega
  · rintro ⟨rfl, hlt⟩
    exact covers_behind (by omega) (by omega)

/-- When `init()` is isolated: the response members are already zero, and so
is what the overrun reaches of the next connection, if there is one. -/
theorem init_isolated_iff (mem : Memory) (i : ℕ) :
    Isolated mem i ↔
      (∀ m ∈ responseMembers, mem.Zero (httpConn.member i m)) ∧
        (i + 1 < maxFd →
          mem.Zero ⟨(httpConn.element (i + 1)).start, overrunLength⟩) := by
  constructor
  · intro h
    constructor
    · intro m hm a ha
      have hcov : Covers (initRegions i) a := by
        refine covers_member ?_ ?_ ha <;> rintro rfl <;> revert hm <;> decide
      exact initSlot_eq_iff.mp (h.response m hm a ha) hcov
    · intro hi a ha
      have hin : (httpConn.element (i + 1)).Contains a := by
        have hshort : overrunLength ≤ httpConn.sizeof := by decide
        exact ⟨ha.1, ha.2.trans_le (Nat.add_le_add_left hshort _)⟩
      have hcov := (covers_other_iff (Nat.succ_ne_self i) hin).mpr ⟨rfl, ha.2⟩
      exact initSlot_eq_iff.mp
        (h.others (i + 1) hi (Nat.succ_ne_self i) a hin) hcov
  · rintro ⟨hresponse, hnext⟩
    refine ⟨?_, ?_⟩
    · intro j hj hne a ha
      rw [initSlot_eq_iff]
      intro hcov
      obtain ⟨rfl, hlt⟩ := (covers_other_iff hne ha).mp hcov
      exact hnext hj a ⟨ha.1, hlt⟩
    · intro m hm a ha
      rw [initSlot_eq_iff]
      exact fun _ => hresponse m hm a ha

/-- Memory without a zero byte: `init()` on `users[0]` zeroes the socket
number of `users[1]`. -/
theorem not_isolated_first :
    ¬ Isolated (fun _ => 1) 0 := by
  intro h
  have hsame := h.others 1 (by decide) (by decide) 3552 (by decide)
  have hzero : initSlot (fun _ => 1) 0 3552 = 0 :=
    bzeroAll_of_covers (covers_behind (by decide) (by decide))
  rw [hzero] at hsame
  exact absurd hsame (by decide)

/-! ## The connections of the model in memory -/

/-- The bytes of the region are those of the number, the lowest first. -/
def Holds (mem : Memory) (r : Region) (v : ℤ) : Prop :=
  ∀ k < r.length, ((mem (r.start + k)).toNat : ℤ) = v / 256 ^ k % 256

namespace HttpConn

/-- A pointer into the read buffer of `users[i]`, where `base` is the address
of the array. -/
def pointer (base i : ℕ) : Option ℕ → ℤ
  | none => 0
  | some p => base + (httpConn.member i .readBuf).start + p

/-- The members that hold one number, an enumerator or a pointer into the read
buffer. -/
def number (base i : ℕ) (c : HttpConn) : Member → Option ℤ
  | .sockfd => some c.sockfd
  | .readIdx => some c.parser.readIdx
  | .checkedIndex => some c.parser.checkedIndex
  | .startLine => some c.parser.startLine
  | .checkState => some c.parser.checkState.ctorIdx
  | .url => some (pointer base i c.parser.url)
  | .version => some (pointer base i c.parser.version)
  | .method => some c.parser.method.ctorIdx
  | .host => some (pointer base i c.parser.host)
  | .linger => some c.parser.linger.toNat
  | .contentLength => some c.parser.contentLength
  | .writeIdx => some c.writeIdx
  | .ivCount => some c.ivCount
  | _ => none

def buffer (c : HttpConn) : Member → Option Bytes
  | .readBuf => some c.parser.readBuf.toList
  | .realFile => some c.realFile.toList
  | .writeBuf => some c.writeBuf.toList
  | _ => none

/-- What is left of a connection when `init()` is called on the one before it
in the array. -/
def overrun (c : HttpConn) : HttpConn :=
  { c with
    sockfd := 0
    parser := { c.parser with
      readBuf := store c.parser.readBuf 0
        (List.replicate (overrunLength - httpConn.offset .readBuf) 0) } }

theorem getElem?_readBuf_overrun (c : HttpConn) (k : ℕ) :
    c.overrun.parser.readBuf.toList[k]? =
      if k < overrunLength - httpConn.offset .readBuf then some 0
      else c.parser.readBuf.toList[k]? := by
  have hbuf : c.overrun.parser.readBuf = store c.parser.readBuf 0
      (List.replicate (overrunLength - httpConn.offset .readBuf) 0) := by
    rw [overrun]
  have hfits : overrunLength - httpConn.offset .readBuf ≤ readBufferSize := by
    decide
  rw [hbuf, getElem?_store_replicate _ hfits]

end HttpConn

/-- The bytes of `users[i]` are those of the connection `c`. -/
structure Stores (base : ℕ) (mem : Memory) (i : ℕ) (c : HttpConn) : Prop where
  numbers : ∀ m v, c.number base i m = some v →
    Holds mem (httpConn.member i m) v
  buffers : ∀ m bs, c.buffer m = some bs → ∀ k b, bs[k]? = some b →
    mem ((httpConn.member i m).start + k) = b

theorem contains_of_buffer {c : HttpConn} {m : Member} {bs : Bytes}
    (h : c.buffer m = some bs) (i : ℕ) {k : ℕ} {b : UInt8}
    (hb : bs[k]? = some b) :
    (httpConn.member i m).Contains ((httpConn.member i m).start + k) := by
  have hlen : bs.length = httpConn.size m := by
    cases m <;> simp [HttpConn.buffer] at h <;> subst h <;>
      simp [httpConn, Member.size]
  obtain ⟨hk, -⟩ := List.getElem?_eq_some_iff.mp hb
  rw [hlen] at hk
  exact ⟨Nat.le_add_right _ _, Nat.add_lt_add_left hk _⟩

theorem holds_zero_iff {mem : Memory} {r : Region} :
    Holds mem r 0 ↔ mem.Zero r := by
  constructor
  · intro h a ha
    obtain ⟨k, rfl⟩ := Nat.exists_eq_add_of_le ha.1
    have hbyte := h k (by have := ha.2; omega)
    simpa [← UInt8.toNat_inj] using hbyte
  · intro h k hk
    have hbyte := h (r.start + k) ⟨Nat.le_add_right _ _, by omega⟩
    simp [hbyte]

theorem zero_initSlot {mem : Memory} {i : ℕ} {m : Member} (hs : m ≠ .sockfd)
    (ha : m ≠ .address) : (initSlot mem i).Zero (httpConn.member i m) :=
  fun _ hin => bzeroAll_of_covers (covers_member hs ha hin)

theorem Holds.congr {mem mem' : Memory} {r : Region} {v : ℤ}
    (h : Holds mem r v) (heq : ∀ a, r.Contains a → mem' a = mem a) :
    Holds mem' r v := by
  intro k hk
  rw [heq (r.start + k) ⟨Nat.le_add_right _ _, by omega⟩]
  exact h k hk

/-- `init()` of the model is what `init()` does to the bytes of its object. -/
theorem Stores.init {base i : ℕ} {mem : Memory} {c : HttpConn}
    (h : Stores base mem i c) : Stores base (initSlot mem i) i c.init := by
  constructor
  · intro m v hv
    by_cases hm : m = .sockfd
    · subst hm
      refine (h.numbers .sockfd v hv).congr ?_
      intro a ha
      apply initSlot_of_bounds
      simp only [contains_member_iff, offset_httpConn, Member.size] at ha
      omega
    · have hzero : v = 0 ∧ m ≠ .address := by
        cases m <;> simp_all [HttpConn.number, HttpConn.init, HttpConn.blank,
          Parser.fresh, HttpConn.pointer, CheckState.ctorIdx, Method.ctorIdx]
      rw [hzero.1, holds_zero_iff]
      exact zero_initSlot hm hzero.2
  · intro m bs hbs k b hb
    have hzero : bs = List.replicate (httpConn.size m) 0 ∧ m ≠ .sockfd ∧
        m ≠ .address := by
      cases m <;> simp_all [HttpConn.buffer, HttpConn.init, HttpConn.blank,
        Parser.fresh, httpConn, Member.size]
    rw [zero_initSlot hzero.2.1 hzero.2.2 _ (contains_of_buffer hbs i hb)]
    rw [hzero.1, List.getElem?_replicate] at hb
    split at hb
    · exact Option.some.inj hb
    · cases hb

/-- What `init()` does to the bytes of the next object. -/
theorem Stores.overrun {base i : ℕ} {mem : Memory} {c : HttpConn}
    (h : Stores base mem (i + 1) c) :
    Stores base (initSlot mem i) (i + 1) c.overrun := by
  constructor
  · intro m v hv
    by_cases hm : m = .sockfd
    · subst hm
      obtain rfl : v = 0 := by simpa [HttpConn.number, HttpConn.overrun] using hv.symm
      rw [holds_zero_iff]
      intro a ha
      apply bzeroAll_of_covers
      simp only [contains_member_iff, offset_httpConn, Member.size] at ha
      exact covers_behind (by omega) (by omega)
    · have hsame : c.number base (i + 1) m = some v ∧
          824 ≤ httpConn.offset m := by
        revert hv
        cases m <;> simp_all [HttpConn.number, HttpConn.overrun]
      refine (h.numbers m v hsame.1).congr ?_
      intro a ha
      apply initSlot_of_bounds
      rw [contains_member_iff] at ha
      omega
  · intro m bs hbs k b hb
    by_cases hm : m = .readBuf
    · subst hm
      obtain rfl := Option.some.inj hbs
      have hpos : (httpConn.member (i + 1) .readBuf).start =
          (i + 1) * 3552 + 20 := by
        simp [member_start]
      have hlen : overrunLength - httpConn.offset .readBuf = 804 := by decide
      rw [c.getElem?_readBuf_overrun, hlen] at hb
      rw [hpos]
      by_cases hlt : k < 804
      · rw [if_pos hlt] at hb
        rw [← Option.some.inj hb]
        exact bzeroAll_of_covers (covers_behind (by omega) (by omega))
      · rw [if_neg hlt] at hb
        rw [initSlot_of_bounds (by omega), ← hpos]
        exact h.buffers .readBuf _ rfl k b hb
    · have hsame : c.buffer m = some bs ∧ 824 ≤ httpConn.offset m := by
        revert hbs
        cases m <;> simp_all [HttpConn.buffer, HttpConn.overrun]
      rw [initSlot_of_bounds (by rw [member_start]; omega)]
      exact h.buffers m bs hsame.1 k b hb

/-- `init()` on `users[i]` leaves the connections other than the next as they
are. -/
theorem Stores.other {base i j : ℕ} {mem : Memory} {c : HttpConn}
    (h : Stores base mem j c) (hne : j ≠ i) (hnext : j ≠ i + 1) :
    Stores base (initSlot mem i) j c := by
  have hsame : ∀ m a, (httpConn.member j m).Contains a →
      initSlot mem i a = mem a := by
    intro m a ha
    have hsize : httpConn.offset m + m.size ≤ 3552 := by
      cases m <;> decide
    have hin : (httpConn.element j).Contains a := by
      obtain ⟨hlo, hhi⟩ := contains_member_iff.mp ha
      refine contains_element_iff.mpr ⟨(Nat.le_add_right _ _).trans hlo, ?_⟩
      rw [Nat.add_assoc] at hhi
      exact hhi.trans_le (Nat.add_le_add_left hsize _)
    rw [initSlot_eq_iff, covers_other_iff hne hin]
    exact fun hcov => absurd hcov.1 hnext
  constructor
  · intro m v hv
    exact (h.numbers m v hv).congr (hsame m)
  · intro m bs hbs k b hb
    rw [hsame m _ (contains_of_buffer hbs j hb)]
    exact h.buffers m bs hbs k b hb

end BackendLab.Proactor
