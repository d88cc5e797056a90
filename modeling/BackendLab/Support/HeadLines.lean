import BackendLab.Support.CString
import Mathlib.Tactic.Common

/-!
# Heads of lines

A head is a sequence of lines, each ended by a carriage return and a line feed,
and an empty line behind the last.  One of the lines gives the length of the body
that follows the head in decimal digits.
-/

namespace BackendLab.Support

/-! ## Decimal digits -/

/-- The decimal digits of a number. -/
def natText (n : ℕ) : Bytes :=
  (Nat.toDigits 10 n).map fun d => d.toNat.toUInt8

def intText (x : ℤ) : Bytes :=
  if x < 0 then 45 :: natText x.natAbs else natText x.natAbs

theorem toNat_toUInt8_of_isDigit {d : Char} (h : d.isDigit) :
    d.toNat.toUInt8.toNat = d.toNat ∧ 48 ≤ d.toNat ∧ d.toNat ≤ 57 := by
  have hrange : 48 ≤ d.toNat ∧ d.toNat ≤ 57 := by
    simpa [Char.isDigit, UInt32.le_iff_toNat_le] using h
  refine ⟨?_, hrange⟩
  rw [Nat.toUInt8, UInt8.toNat_ofNat']
  exact Nat.mod_eq_of_lt (by omega)

theorem mem_natText {n : ℕ} {b : UInt8} (h : b ∈ natText n) :
    48 ≤ b.toNat ∧ b.toNat ≤ 57 := by
  obtain ⟨d, hd, rfl⟩ := List.mem_map.mp h
  obtain ⟨hsame, hlow, hhigh⟩ := toNat_toUInt8_of_isDigit
    (Nat.isDigit_of_mem_toDigits (by decide) (by decide) hd)
  rw [hsame]
  exact ⟨hlow, hhigh⟩

/-- The digits of a number have its value. -/
theorem digitsValue_natText (n : ℕ) : digitsValue (natText n) = n := by
  have hdigits : ∀ d ∈ Nat.toDigits 10 n, d.isDigit := fun d hd =>
    Nat.isDigit_of_mem_toDigits (by decide) (by decide) hd
  have hfold : ∀ (ds : List Char) (acc : ℕ), (∀ d ∈ ds, d.isDigit) →
      (ds.map fun d => d.toNat.toUInt8).foldl
        (fun acc b => acc * 10 + (b.toNat - 48)) acc =
        Nat.ofDigitChars 10 ds acc := by
    intro ds
    induction ds with
    | nil => simp [Nat.ofDigitChars]
    | cons d ds ih =>
        intro acc hds
        obtain ⟨hd, hds⟩ := List.forall_mem_cons.mp hds
        rw [List.map_cons, List.foldl_cons, ih _ hds,
          (toNat_toUInt8_of_isDigit hd).1]
        simp [Nat.ofDigitChars, Nat.mul_comm]
  rw [digitsValue, natText, hfold _ _ hdigits, Nat.ofDigitChars_ten_toDigits]

theorem natText_injective : Function.Injective natText := by
  intro m n h
  rw [← digitsValue_natText m, h, digitsValue_natText]

/-! ## Lines -/

def crlf : Bytes := [13, 10]

/-- The lines up to the first empty one, and what follows it.  `line` is the part
of the first line that has been passed. -/
def headLines (line : Bytes) : Bytes → Option (List Bytes × Bytes)
  | [] => none
  | [_] => none
  | b :: c :: rest =>
      if b = 13 ∧ c = 10 then
        if line = [] then some ([], rest)
        else (headLines [] rest).map fun r => (line :: r.1, r.2)
      else headLines (line ++ [b]) (c :: rest)

/-- A line that can stand in a head. -/
structure IsLine (line : Bytes) : Prop where
  ne_nil : line ≠ []
  noReturn : 13 ∉ line

theorem headLines_append {line text rest : Bytes} (htext : 13 ∉ text)
    (hne : line ++ text ≠ []) :
    headLines line (text ++ (crlf ++ rest)) =
      (headLines [] rest).map fun r => ((line ++ text) :: r.1, r.2) := by
  induction text generalizing line with
  | nil =>
      rw [List.append_nil] at hne
      simp [crlf, headLines, hne]
  | cons b text ih =>
      rw [List.mem_cons, not_or] at htext
      have hb : b ≠ 13 := fun h => htext.1 h.symm
      have hnext := @ih (line ++ [b]) htext.2 (by simp)
      rw [List.append_assoc, List.singleton_append] at hnext
      rw [← hnext]
      cases text with
      | nil => simp [crlf, headLines, hb]
      | cons c text => simp [headLines, hb]

/-- The lines of a head are read back, whatever follows it. -/
theorem headLines_flatMap {lines : List Bytes} (h : ∀ line ∈ lines, IsLine line)
    (rest : Bytes) :
    headLines [] ((lines.flatMap fun line => line ++ crlf) ++ (crlf ++ rest)) =
      some (lines, rest) := by
  induction lines with
  | nil => simp [crlf, headLines]
  | cons line lines ih =>
      obtain ⟨hline, hlines⟩ := List.forall_mem_cons.mp h
      rw [List.flatMap_cons, List.append_assoc, List.append_assoc,
        headLines_append hline.noReturn
          (by rw [List.nil_append]; exact hline.ne_nil), ih hlines]
      rfl

theorem headLines_more {line bs : Bytes} {head : List Bytes × Bytes}
    (h : headLines line bs = some head) (more : Bytes) :
    headLines line (bs ++ more) = some (head.1, head.2 ++ more) := by
  induction line, bs using headLines.induct generalizing head with
  | case1 line => cases h
  | case2 line b => cases h
  | case3 b c rest hend =>
      rw [headLines, if_pos hend, if_pos rfl] at h
      rw [← Option.some.inj h, List.cons_append, List.cons_append, headLines,
        if_pos hend, if_pos rfl]
  | case4 line b c rest hend hne ih =>
      rw [headLines, if_pos hend, if_neg hne] at h
      obtain ⟨tail, htail, rfl⟩ := Option.map_eq_some_iff.mp h
      rw [List.cons_append, List.cons_append, headLines, if_pos hend, if_neg hne,
        ih htail]
      rfl
  | case5 line b c rest hend ih =>
      rw [headLines, if_neg hend] at h
      rw [List.cons_append, List.cons_append, headLines, if_neg hend]
      exact ih h

/-! ## Messages with a head and a body -/

/-- The text behind `start` in the first line that begins with it. -/
def valueAfter (start : Bytes) (lines : List Bytes) : Option Bytes :=
  lines.findSome? fun line =>
    if start <+: line then some (line.drop start.length) else none

/-- A message as it is read by its head: the lines, the body whose length a line
gives, and what follows. -/
def readMessage (start : Bytes) (bs : Bytes) :
    Option (List Bytes × Bytes × Bytes) := do
  let head ← headLines [] bs
  let value ← valueAfter start head.1
  let n := digitsValue value
  if n ≤ head.2.length then some (head.1, head.2.take n, head.2.drop n) else none

theorem valueAfter_append {start value : Bytes} {before after : List Bytes}
    (h : ∀ line ∈ before, ¬ start <+: line) :
    valueAfter start (before ++ (start ++ value) :: after) = some value := by
  have hnone : (before.findSome? fun line =>
      if start <+: line then some (line.drop start.length) else none) = none := by
    rw [List.findSome?_eq_none_iff]
    intro line hline
    rw [if_neg (h line hline)]
  rw [valueAfter, List.findSome?_append, hnone, List.findSome?_cons,
    if_pos (List.prefix_append _ _), List.drop_left]
  rfl

/-- A message whose head gives the length of its body is read back, whatever the
body is and whatever follows. -/
theorem readMessage_append {start : Bytes} {lines : List Bytes} {body : Bytes}
    (hlines : ∀ line ∈ lines, IsLine line)
    (hlength : valueAfter start lines = some (natText body.length))
    (rest : Bytes) :
    readMessage start
        ((lines.flatMap fun line => line ++ crlf) ++ (crlf ++ (body ++ rest))) =
      some (lines, body, rest) := by
  have hle : body.length ≤ (body ++ rest).length := by simp
  simp only [readMessage, headLines_flatMap hlines, Option.bind_eq_bind,
    Option.bind_some, hlength, digitsValue_natText, if_pos hle, List.take_left,
    List.drop_left]

/-- What has been read as a message is read as the same message when more has
come behind it. -/
theorem readMessage_more {start bs : Bytes} {lines : List Bytes}
    {body rest : Bytes} (h : readMessage start bs = some (lines, body, rest))
    (more : Bytes) :
    readMessage start (bs ++ more) = some (lines, body, rest ++ more) := by
  simp only [readMessage, Option.bind_eq_bind, Option.bind_eq_some_iff] at h
  obtain ⟨head, hhead, value, hvalue, h⟩ := h
  split at h
  · next hle =>
      simp only [Option.some.injEq, Prod.mk.injEq] at h
      obtain ⟨rfl, rfl, rfl⟩ := h
      have hmore : digitsValue value ≤ (head.2 ++ more).length := by
        rw [List.length_append]
        exact hle.trans (Nat.le_add_right _ _)
      simp only [readMessage, headLines_more hhead, Option.bind_eq_bind,
        Option.bind_some, hvalue, if_pos hmore, List.take_append_of_le_length hle,
        List.drop_append_of_le_length hle]
  · cases h

/-- A part of a message is not taken for the message. -/
theorem eq_of_readMessage_isPrefix {start bs whole : Bytes}
    {lines allLines : List Bytes} {body allBody rest : Bytes}
    (hpart : bs <+: whole)
    (hwhole : readMessage start whole = some (allLines, allBody, []))
    (h : readMessage start bs = some (lines, body, rest)) :
    bs = whole ∧ body = allBody ∧ rest = [] := by
  obtain ⟨more, rfl⟩ := hpart
  have hsame := (readMessage_more h more).symm.trans hwhole
  simp only [Option.some.injEq, Prod.mk.injEq, List.append_eq_nil_iff] at hsame
  obtain ⟨-, rfl, rfl, rfl⟩ := hsame
  exact ⟨(List.append_nil bs).symm, rfl, rfl⟩

/-! ### A row of messages -/

/-- The next `k` messages with their lines and bodies, and what follows them. -/
def readMessages (start : Bytes) :
    ℕ → Bytes → Option (List (List Bytes × Bytes) × Bytes)
  | 0, bs => some ([], bs)
  | k + 1, bs => do
      let message ← readMessage start bs
      let others ← readMessages start k message.2.2
      some ((message.1, message.2.1) :: others.1, others.2)

/-- Messages that are read back one by one are read back in a row. -/
theorem readMessages_flatMap {α : Type*} {start : Bytes} {text : α → Bytes}
    {content : α → List Bytes × Bytes} {messages : List α}
    (h : ∀ m ∈ messages, ∀ rest, readMessage start (text m ++ rest) =
      some ((content m).1, (content m).2, rest)) (rest : Bytes) :
    readMessages start messages.length (messages.flatMap text ++ rest) =
      some (messages.map content, rest) := by
  induction messages with
  | nil => rfl
  | cons m messages ih =>
      obtain ⟨hm, hmessages⟩ := List.forall_mem_cons.mp h
      rw [List.flatMap_cons, List.append_assoc, List.length_cons]
      simp only [readMessages, hm, Option.bind_eq_bind, Option.bind_some,
        ih hmessages, List.map_cons]

end BackendLab.Support
