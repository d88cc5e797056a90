import BackendLab.Proactor.Connection.Parser

/-!
# Lines of the read buffer

`splitLine` says on plain bytes what the line scanner looks for: the text up
to the first CRLF, with no CR and no LF in it.  `Parser.Scanning` is the
invariant under which `parse_line` finds exactly that, however far an earlier
call has already advanced `m_checked_index`.
-/

namespace BackendLab.Proactor

open Support

/-- A byte that may stand inside a line. -/
def IsLineByte (b : UInt8) : Prop :=
  b ≠ carriageReturn ∧ b ≠ lineFeed

instance (b : UInt8) : Decidable (IsLineByte b) :=
  inferInstanceAs (Decidable (_ ∧ _))

/-- The first line of `s` and what follows its CRLF. -/
def splitLine : Bytes → Option (Bytes × Bytes)
  | [] => none
  | b :: s =>
      if b = carriageReturn then
        match s with
        | [] => none
        | b' :: rest => if b' = lineFeed then some ([], rest) else none
      else if b = lineFeed then none
      else (splitLine s).map fun p => (b :: p.1, p.2)

theorem splitLine_cons_of_pos {b : UInt8} (hb : IsLineByte b) (s : Bytes) :
    splitLine (b :: s) = (splitLine s).map fun p => (b :: p.1, p.2) := by
  simp [splitLine, hb.1, hb.2]

theorem splitLine_eq_some_iff {s l rest : Bytes} :
    splitLine s = some (l, rest) ↔
      s = l ++ carriageReturn :: lineFeed :: rest ∧ ∀ b ∈ l, IsLineByte b := by
  induction s generalizing l with
  | nil => simp [splitLine]
  | cons b s ih =>
      by_cases hcr : b = carriageReturn
      · subst hcr
        cases s with
        | nil => cases l <;> simp [splitLine]
        | cons b' rest' =>
            by_cases hlf : b' = lineFeed
            · subst hlf
              cases l with
              | nil => simp [splitLine]
              | cons a l =>
                  simp only [splitLine, if_true, Option.some.injEq,
                    Prod.mk.injEq, List.nil_eq, reduceCtorEq, false_and,
                    List.cons_append, List.cons.injEq, false_iff]
                  rintro ⟨⟨rfl, -⟩, hl⟩
                  exact (hl carriageReturn (by simp)).1 rfl
            · cases l with
              | nil => simp [splitLine, hlf]
              | cons a l =>
                  simp only [splitLine, if_true, if_neg hlf, reduceCtorEq,
                    List.cons_append, List.cons.injEq, false_iff]
                  rintro ⟨⟨rfl, -⟩, hl⟩
                  exact (hl carriageReturn (by simp)).1 rfl
      · by_cases hlf : b = lineFeed
        · subst hlf
          cases l with
          | nil => simp [splitLine, hcr]
          | cons a l =>
              simp only [splitLine, if_neg hcr, if_true, reduceCtorEq,
                List.cons_append, List.cons.injEq, false_iff]
              rintro ⟨⟨rfl, -⟩, hl⟩
              exact (hl lineFeed (by simp)).2 rfl
        · cases l with
          | nil => simp [splitLine, hcr, hlf]
          | cons a l =>
              have hb : IsLineByte b := ⟨hcr, hlf⟩
              simp only [splitLine_cons_of_pos hb, Option.map_eq_some_iff,
                Prod.exists, Prod.mk.injEq, List.cons.injEq,
                List.cons_append, List.mem_cons, forall_eq_or_imp]
              constructor
              · rintro ⟨l', rest', hsplit, ⟨rfl, rfl⟩, rfl⟩
                obtain ⟨hs, hl⟩ := ih.mp hsplit
                exact ⟨⟨rfl, hs⟩, hb, hl⟩
              · rintro ⟨⟨rfl, hs⟩, -, hl⟩
                exact ⟨l, rest, ih.mpr ⟨hs, hl⟩, ⟨rfl, rfl⟩, rfl⟩

/-- More bytes behind a complete line do not change it. -/
theorem splitLine_append {s l rest : Bytes} (x : Bytes)
    (h : splitLine s = some (l, rest)) :
    splitLine (s ++ x) = some (l, rest ++ x) := by
  obtain ⟨rfl, hl⟩ := splitLine_eq_some_iff.mp h
  exact splitLine_eq_some_iff.mpr ⟨by simp, hl⟩

theorem splitLine_length {s l rest : Bytes} (h : splitLine s = some (l, rest)) :
    s.length = l.length + 2 + rest.length := by
  obtain ⟨rfl, -⟩ := splitLine_eq_some_iff.mp h
  simp only [List.length_append, List.length_cons]
  omega

/-- Bytes that may stand in a line can be put in front of it. -/
theorem splitLine_lineBytes_append {a : Bytes} (ha : ∀ b ∈ a, IsLineByte b)
    (s : Bytes) :
    splitLine (a ++ s) = (splitLine s).map fun p => (a ++ p.1, p.2) := by
  induction a with
  | nil => simp
  | cons b a ih =>
      have hb := ha b (by simp)
      rw [List.cons_append, splitLine_cons_of_pos hb,
        ih fun b' hb' => ha b' (by simp [hb'])]
      simp [Option.map_map, Function.comp_def]

/-- The number of bytes that the scanner passes when it finds no line. -/
def lineBytes (s : Bytes) : ℕ :=
  (s.takeWhile fun b => decide (IsLineByte b)).length

theorem lineBytes_cons_of_pos {b : UInt8} (hb : IsLineByte b) (s : Bytes) :
    lineBytes (b :: s) = lineBytes s + 1 := by
  simp [lineBytes, hb]

theorem lineBytes_cons_of_neg {b : UInt8} (hb : ¬ IsLineByte b) (s : Bytes) :
    lineBytes (b :: s) = 0 := by
  simp [lineBytes, hb]

theorem lineBytes_le (s : Bytes) : lineBytes s ≤ s.length :=
  (List.takeWhile_prefix _).length_le

theorem lineBytes_lineBytes_append {a : Bytes} (ha : ∀ b ∈ a, IsLineByte b)
    (s : Bytes) : lineBytes (a ++ s) = a.length + lineBytes s := by
  unfold lineBytes
  rw [List.takeWhile_append_of_pos (by simpa using ha), List.length_append]

theorem lineBytes_of_splitLine {s l rest : Bytes}
    (h : splitLine s = some (l, rest)) : lineBytes s = l.length := by
  obtain ⟨rfl, hl⟩ := splitLine_eq_some_iff.mp h
  rw [lineBytes_lineBytes_append hl,
    lineBytes_cons_of_neg (fun hb => hb.1 rfl), Nat.add_zero]

theorem isLineByte_of_mem_take_lineBytes {s : Bytes} {b : UInt8}
    (hb : b ∈ s.take (lineBytes s)) : IsLineByte b := by
  have htake : s.take (lineBytes s) =
      s.takeWhile fun b => decide (IsLineByte b) :=
    (List.prefix_iff_eq_take.mp (List.takeWhile_prefix _)).symm
  rw [htake] at hb
  simpa using List.mem_takeWhile_imp hb

namespace Parser

/-! ## The scanner on plain bytes -/

theorem byteAt_of_drop {c : Parser} {i : ℕ} {b : UInt8} {t : Bytes}
    (h : c.mem.drop i = b :: t) : c.byteAt i = b := by
  have hget : (c.mem.drop i)[0]? = some b := by rw [h]; rfl
  rw [List.getElem?_drop, Nat.add_zero] at hget
  simp [byteAt, List.getD, hget]

theorem drop_succ_of_drop {m : Bytes} {i : ℕ} {b : UInt8} {t : Bytes}
    (h : m.drop i = b :: t) : m.drop (i + 1) = t := by
  rw [← List.drop_drop, h]
  rfl

/-- The byte before `m_checked_index` is not a CR, so that the branch of
`parse_line` that looks back for one is not taken. -/
def PrevNotCr (c : Parser) : Prop :=
  c.checkedIndex = 0 ∨ c.byteAt (c.checkedIndex - 1) ≠ carriageReturn

/-- The state after `parse_line` has completed a line that ends before `e`. -/
def endLine (c : Parser) (e : ℕ) : Parser :=
  ((c.cut e).cut (e + 1)).moveTo (e + 2)

theorem scanLine_eq (r tail : Bytes) (c : Parser)
    (hmem : c.mem.drop c.checkedIndex = r ++ tail)
    (hread : c.readIdx = c.checkedIndex + r.length)
    (hprev : c.PrevNotCr) :
    match splitLine r with
    | some (l, _) =>
        scanLine r.length c = (.ok, c.endLine (c.checkedIndex + l.length))
    | none =>
        ∃ status ≠ LineStatus.ok, scanLine r.length c =
          (status, c.moveTo (c.checkedIndex + lineBytes r)) := by
  induction r generalizing c with
  | nil => exact ⟨.openLine, by simp, rfl⟩
  | cons b r ih =>
      have hbyte : c.byteAt c.checkedIndex = b := byteAt_of_drop hmem
      have hmem' := drop_succ_of_drop hmem
      by_cases hcr : b = carriageReturn
      · have hzero : lineBytes (b :: r) = 0 :=
          lineBytes_cons_of_neg (fun hb => hb.1 hcr) r
        simp only [splitLine, if_pos hcr, List.length_cons, scanLine, hbyte,
          hzero]
        cases r with
        | nil =>
            simp only [List.length_cons, List.length_nil] at hread
            exact ⟨.openLine, by simp, by rw [if_pos hread.symm]; rfl⟩
        | cons b' rest =>
            have hbyte' : c.byteAt (c.checkedIndex + 1) = b' :=
              byteAt_of_drop hmem'
            have hne : ¬ c.checkedIndex + 1 = c.readIdx := by
              simp only [List.length_cons] at hread
              omega
            simp only [hbyte', if_neg hne]
            by_cases hlf : b' = lineFeed
            · simp [hlf, endLine]
            · simp only [if_neg hlf]
              exact ⟨.bad, by simp, rfl⟩
      · by_cases hlf : b = lineFeed
        · have hzero : lineBytes (b :: r) = 0 :=
            lineBytes_cons_of_neg (fun hb => hb.2 hlf) r
          have hback : ¬ (1 < c.checkedIndex ∧
              c.byteAt (c.checkedIndex - 1) = carriageReturn) := by
            rintro ⟨hlt, hcr'⟩
            rcases hprev with h0 | hne
            · omega
            · exact hne hcr'
          simp only [splitLine, if_neg hcr, if_pos hlf, List.length_cons,
            scanLine, hbyte, if_neg hback, hzero]
          exact ⟨.bad, by simp, rfl⟩
        · have hb : IsLineByte b := ⟨hcr, hlf⟩
          have hread' : c.readIdx = c.checkedIndex + 1 + r.length := by
            rw [hread, List.length_cons]
            omega
          have hprev' : (c.moveTo (c.checkedIndex + 1)).PrevNotCr := by
            right
            change c.byteAt c.checkedIndex ≠ carriageReturn
            rwa [hbyte]
          have hnext := ih (c.moveTo (c.checkedIndex + 1)) hmem' hread' hprev'
          simp only [splitLine_cons_of_pos hb, List.length_cons, scanLine,
            hbyte, if_neg hcr, if_neg hlf, lineBytes_cons_of_pos hb]
          cases hsplit : splitLine r with
          | none =>
              rw [hsplit] at hnext
              obtain ⟨status, hstatus, hscan⟩ := hnext
              refine ⟨status, hstatus, ?_⟩
              rw [hscan, Nat.add_comm (lineBytes r), ← Nat.add_assoc]
              rfl
          | some p =>
              rw [hsplit] at hnext
              simp only [Option.map_some] at hnext ⊢
              rw [hnext]
              rw [List.length_cons, Nat.add_comm p.1.length, ← Nat.add_assoc]
              rfl

/-! ## The invariant between two lines -/

/-- The bytes received and not yet part of a completed line. -/
def unparsed (c : Parser) : Bytes :=
  (c.mem.drop c.startLine).take (c.readIdx - c.startLine)

/-- The indices are in order, and the part of the current line that has been
scanned contains no line end. -/
structure Scanning (c : Parser) : Prop where
  start_le : c.startLine ≤ c.checkedIndex
  checked_le : c.checkedIndex ≤ c.readIdx
  read_le : c.readIdx ≤ readBufferSize
  scanned : ∀ b ∈ (c.mem.drop c.startLine).take (c.checkedIndex - c.startLine),
    IsLineByte b
  prev : c.startLine = 0 ∨ c.byteAt (c.startLine - 1) ≠ carriageReturn

namespace Scanning

variable {c : Parser}

theorem length_unparsed (h : c.Scanning) :
    c.unparsed.length = c.readIdx - c.startLine := by
  have hread := h.read_le
  simp only [unparsed, List.length_take, List.length_drop, length_mem]
  omega

theorem length_scanned (h : c.Scanning) :
    ((c.mem.drop c.startLine).take (c.checkedIndex - c.startLine)).length =
      c.checkedIndex - c.startLine := by
  have hread := h.read_le
  have hchecked := h.checked_le
  simp only [List.length_take, List.length_drop, length_mem]
  omega

/-- The bytes received are those already scanned and those still to scan. -/
theorem unparsed_eq (h : c.Scanning) :
    c.unparsed =
      (c.mem.drop c.startLine).take (c.checkedIndex - c.startLine) ++
        (c.mem.drop c.checkedIndex).take (c.readIdx - c.checkedIndex) := by
  have hstart := h.start_le
  have hchecked := h.checked_le
  rw [unparsed, show c.readIdx - c.startLine =
    (c.checkedIndex - c.startLine) + (c.readIdx - c.checkedIndex) by omega,
    List.take_add, List.drop_drop,
    show c.startLine + (c.checkedIndex - c.startLine) = c.checkedIndex by omega]

theorem checked_le_lineBytes (hs : c.Scanning) :
    c.checkedIndex ≤ c.startLine + lineBytes c.unparsed := by
  have hstart := hs.start_le
  rw [hs.unparsed_eq, lineBytes_lineBytes_append hs.scanned,
    hs.length_scanned]
  omega

theorem prevNotCr (h : c.Scanning) : c.PrevNotCr := by
  have hstart := h.start_le
  rcases Nat.eq_or_lt_of_le hstart with heq | hlt
  · rw [PrevNotCr, ← heq]
    exact h.prev
  · right
    have hread := h.read_le
    have hchecked := h.checked_le
    have hget : c.mem[c.checkedIndex - 1]? =
        some (c.byteAt (c.checkedIndex - 1)) := by
      rw [byteAt, List.getD, List.getElem?_eq_getElem
        (by rw [length_mem]; omega)]
      rfl
    have hmem : c.byteAt (c.checkedIndex - 1) ∈
        (c.mem.drop c.startLine).take (c.checkedIndex - c.startLine) := by
      apply List.mem_of_getElem? (i := c.checkedIndex - 1 - c.startLine)
      rw [List.getElem?_take_of_lt (by omega), List.getElem?_drop,
        show c.startLine + (c.checkedIndex - 1 - c.startLine) =
          c.checkedIndex - 1 by omega]
      exact hget
    exact (h.scanned _ hmem).1

/-- What `parse_line` does, in terms of the unparsed bytes alone. -/
theorem parseLine_eq (h : c.Scanning) :
    match splitLine c.unparsed with
    | some (l, _) => c.parseLine = (.ok, c.endLine (c.startLine + l.length))
    | none => ∃ status ≠ LineStatus.ok,
        c.parseLine = (status, c.moveTo (c.startLine + lineBytes c.unparsed)) := by
  have hstart := h.start_le
  have hchecked := h.checked_le
  have hread := h.read_le
  have hlen : ((c.mem.drop c.checkedIndex).take
      (c.readIdx - c.checkedIndex)).length = c.readIdx - c.checkedIndex := by
    simp only [List.length_take, List.length_drop, length_mem]
    omega
  have hscan := scanLine_eq
    ((c.mem.drop c.checkedIndex).take (c.readIdx - c.checkedIndex))
    ((c.mem.drop c.checkedIndex).drop (c.readIdx - c.checkedIndex)) c
    (List.take_append_drop _ _).symm (by rw [hlen]; omega) h.prevNotCr
  rw [hlen, ← parseLine] at hscan
  rw [h.unparsed_eq, splitLine_lineBytes_append h.scanned,
    lineBytes_lineBytes_append h.scanned, h.length_scanned]
  cases hsplit : splitLine
      ((c.mem.drop c.checkedIndex).take (c.readIdx - c.checkedIndex)) with
  | none =>
      rw [hsplit] at hscan
      obtain ⟨status, hstatus, hline⟩ := hscan
      refine ⟨status, hstatus, ?_⟩
      rw [hline]
      congr 2
      omega
  | some p =>
      rw [hsplit] at hscan
      simp only [Option.map_some] at hscan ⊢
      rw [hscan, List.length_append, h.length_scanned]
      congr 2
      omega

end Scanning

end Parser

end BackendLab.Proactor
