-- The blocks that pass all checks. The block of a well-formed automaton does, and in
-- any block that does all that a scan reads is where it belongs.
import ByteRegex.Proofs.Table.Exact
import ByteRegex.Table.Check

namespace ByteRegex

namespace Table

/-- What the checks ask of a block. -/
structure Valid (t : Table) (direction : Direction) : Prop where
  headerSize_le : headerSize ≤ t.bytes.size
  magic : t.magicWord = magic
  length : t.length = t.bytes.size
  direction : t.directionByte = direction.code
  someClass : specialCount < t.alphaSize
  alphaSize_le : t.alphaSize ≤ symbolCount
  startClass : t.startClass + 2 = t.alphaSize
  endClass : t.endClass + 1 = t.alphaSize
  width : t.width = 1 ∨ t.width = 2
  someState : t.stateCount ≠ 0
  narrow : t.width = 1 → t.stateCount ≤ 256
  deadState : t.deadState = 0
  shift : t.shift = rowShift t.alphaSize
  blockSize : t.length = blockSize t.stateCount t.shift t.width
  headerSize_le_records : headerSize ≤ t.recordsAt
  records_aligned : t.recordsAt % 4 = 0
  records_le_table : t.recordsAt + recordSize * t.stateCount ≤ t.tableAt
  table_aligned : t.tableAt % 2 = 0
  table_end : t.tableAt + (t.width * t.stateCount) <<< t.shift = t.length
  startOther : t.startOther < t.stateCount
  startWord : t.startWord < t.stateCount
  byteClass : ∀ c, t.byteClass c < t.alphaSize - specialCount
  step : ∀ s < t.stateCount, ∀ c < t.alphaSize, t.step s c < t.stateCount
  step_dead : ∀ c < t.alphaSize, t.step 0 c = 0
  accept_dead : t.accept 0 = .never

variable {t : Table} {direction : Direction}

theorem transitionsOk_iff : t.transitionsOk = true ↔
    ∀ s < t.stateCount, ∀ c < t.alphaSize,
      t.step s c < t.stateCount ∧ (s = 0 → t.step s c = 0) := by
  simp only [transitionsOk, List.all_eq_true, List.mem_range, Bool.and_eq_true, decide_eq_true_eq,
    Bool.or_eq_true, bne_iff_ne, beq_iff_eq, ← imp_iff_not_or, ne_eq]

theorem byteClassOk_iff : t.byteClassOk = true ↔
    ∀ c, t.byteClass c < t.alphaSize - specialCount := by
  simp only [byteClassOk, List.all_eq_true, decide_eq_true_eq, mem_allBytes, true_imp_iff]

theorem refuse_eq_none {p : Prop} [Decidable p] {f : LoadFault} {rest : Option LoadFault} :
    (if p then some f else rest) = none ↔ ¬ p ∧ rest = none := by
  split <;> simp [*]

theorem fault?_eq_none : t.fault? direction = none ↔
    t.headerOk = true ∧ t.directionByte = direction.code ∧ t.alphabetOk = true ∧ t.widthOk = true ∧
      t.stateCountOk = true ∧ t.tableSizeOk = true ∧ t.layoutOk = true ∧ t.startOk = true ∧
        t.byteClassOk = true ∧ t.transitionsOk = true ∧ t.deadStateOk = true := by
  simp only [fault?, refuse_eq_none, Bool.not_eq_true', Bool.not_eq_false, bne_iff_ne, ne_eq,
    Decidable.not_not, and_true]

theorem any_eq_false (a : AcceptFlags) : a.any = false ↔ a = .never := by
  obtain ⟨bits⟩ := a
  simp [AcceptFlags.any, AcceptFlags.never]

/-- A block passes the checks just if all holds that they ask for. -/
theorem fault?_eq_none_iff : t.fault? direction = none ↔ t.Valid direction := by
  rw [fault?_eq_none]
  simp only [headerOk, alphabetOk, widthOk, stateCountOk, tableSizeOk, layoutOk, startOk,
    byteClassOk_iff, transitionsOk_iff, deadStateOk, Bool.and_eq_true, Bool.or_eq_true,
    decide_eq_true_eq, beq_iff_eq, bne_iff_ne, Bool.not_eq_true', any_eq_false, ← imp_iff_not_or,
    ne_eq]
  constructor
  · rintro ⟨⟨⟨h1, h2⟩, h3⟩, h4, ⟨⟨⟨h5, h6⟩, h7⟩, h8⟩, h9, ⟨⟨h10, h11⟩, h12⟩, ⟨h13, h14⟩,
      ⟨⟨⟨⟨h15, h16⟩, h17⟩, h18⟩, h19⟩, ⟨h20, h21⟩, h22, h23, h24⟩
    exact ⟨h1, h2, h3, h4, h5, h6, h7, h8, h9, h10, h11, h12, h13, h14, h15, h16, h17, h18, h19,
      h20, h21, h22, fun s hs c hc => (h23 s hs c hc).1,
      fun c hc => (h23 0 (Nat.pos_of_ne_zero h10) c hc).2 rfl, h24⟩
  · intro h
    refine ⟨⟨⟨h.headerSize_le, h.magic⟩, h.length⟩, h.direction,
      ⟨⟨⟨h.someClass, h.alphaSize_le⟩, h.startClass⟩, h.endClass⟩, h.width,
      ⟨⟨h.someState, h.narrow⟩, h.deadState⟩, ⟨h.shift, h.blockSize⟩,
      ⟨⟨⟨⟨h.headerSize_le_records, h.records_aligned⟩, h.records_le_table⟩, h.table_aligned⟩,
        h.table_end⟩, ⟨h.startOther, h.startWord⟩, h.byteClass,
      fun s hs c hc => ⟨h.step s hs c hc, ?_⟩, h.accept_dead⟩
    rintro rfl
    exact h.step_dead c hc

theorem load_ok_iff {bytes : Bytes} :
    load bytes direction = .ok t ↔ t.bytes = bytes ∧ t.Valid direction := by
  unfold load
  constructor
  · intro h
    split at h
    · cases h
    · split at h
      · cases h
      · rename_i hnone
        obtain rfl := Except.ok.inj h
        exact ⟨rfl, fault?_eq_none_iff.1 hnone⟩
  · rintro ⟨rfl, h⟩
    rw [if_neg (Nat.not_lt.2 h.headerSize_le), fault?_eq_none_iff.2 h]

theorem stateCount_lt (t : Table) : t.stateCount < 0x10000 := Bytes.at16_lt _ _

namespace Valid

theorem shift_le (h : t.Valid direction) : t.shift ≤ 9 := by
  rw [h.shift]
  exact shiftFrom_le (by decide) (Nat.le_trans h.alphaSize_le (by decide))

/-- A row has room for all classes. -/
theorem alphaSize_le_row (h : t.Valid direction) : t.alphaSize ≤ 1 <<< t.shift := by
  rw [h.shift]
  exact le_rowShift _

theorem size_lt (h : t.Valid direction) : t.bytes.size < 0x8000000 := by
  have hwidth : t.width ≤ 2 := by
    rcases h.width with hw | hw <;> omega
  rw [← h.length, h.blockSize]
  exact blockSize_lt t.stateCount_lt h.shift_le hwidth

end Valid

end Table

namespace Dfa

open Table (headerSize recordSize recordOffset)

variable {d : Dfa} {narrow : Bool} {t : Table}

namespace Encoded

variable {s : Shape}

theorem magicWord (h : d.Encoded s t) : t.magicWord = Table.magic :=
  h.at32_header (by decide) (by decide) rfl rfl rfl rfl

theorem length (h : d.Encoded s t) : t.length = s.size :=
  h.at32_header h.size_le (by decide) rfl rfl rfl rfl

theorem stateCount (h : d.Encoded s t) : t.stateCount = s.states :=
  h.at16_header h.states_lt (by decide) rfl rfl

theorem alphaSize (h : d.Encoded s t) (ha : d.alphaSize < 0x10000) : t.alphaSize = d.alphaSize :=
  h.at16_header ha (by decide) rfl rfl

theorem deadState (h : d.Encoded s t) : t.deadState = 0 :=
  h.at16_header (by decide) (by decide) rfl rfl

theorem directionByte (h : d.Encoded s t) : t.directionByte = d.direction.code := by
  rw [Table.directionByte, Bytes.at8, h.byte_header (by decide),
    show (d.headerBytes s).getD 24 0 = d.direction.code.toUInt8 from rfl]
  cases d.direction <;> rfl

end Encoded

theorem size_encode (h : d.encode narrow = .ok t) : t.bytes.size = (d.shape narrow).size := by
  rw [encode] at h
  dsimp only at h
  split at h
  · rw [← Except.ok.inj h]
    exact Array.size_ofFn
  · cases h

/-- The block of a well-formed automaton passes all checks. -/
theorem encode_valid (hd : d.WellFormed) (halpha : d.alphaSize ≤ symbolCount)
    (h : d.encode narrow = .ok t) : t.Valid d.direction := by
  have henc := encode_ok h
  have hpos : 0 < d.size := Nat.lt_of_le_of_lt (Nat.zero_le _) hd.startOther
  have hstates : t.stateCount = d.size := henc.stateCount
  have hclasses := henc.alphaSize hd.alphaSize_lt
  have hsize := hd.size_le
  have heq := hd.alphaSize_eq
  have hlt := hd.class_lt 0
  have hsymbols : symbolCount = 258 := rfl
  have hmost : maxStates = 65535 := rfl
  have hspecial : specialCount = 2 := rfl
  have hw := d.shape_width narrow
  have hwidth : t.width = (d.shape narrow).width := henc.width (by omega)
  have hshift : t.shift = (d.shape narrow).shift := henc.shift (henc.shift_lt (by omega) hpos)
  have htable : t.tableAt = Table.tableOffset d.size := henc.tableAt
  have hoffset := Table.tableOffset_mod d.size
  have hstart : t.startClass = d.startClass := henc.startClass (by rw [hd.start]; omega)
  have hstop : t.endClass = d.endClass := henc.endClass (by rw [hd.stop]; omega)
  refine
    { headerSize_le := ?_
      magic := henc.magicWord
      length := henc.length.trans (size_encode h).symm
      direction := henc.directionByte
      someClass := by omega
      alphaSize_le := hclasses ▸ halpha
      startClass := by rw [hstart, hd.start]; omega
      endClass := by rw [hstop, hd.stop]; omega
      width := by omega
      someState := by omega
      narrow := by omega
      deadState := henc.deadState
      shift := by rw [hshift, hclasses]; rfl
      blockSize := by rw [henc.length, hstates, hshift, hwidth]; rfl
      headerSize_le_records := by rw [henc.recordsAt]; decide
      records_aligned := by rw [henc.recordsAt]; rfl
      records_le_table := by
        rw [henc.recordsAt, hstates, htable]
        exact Table.le_tableOffset _
      table_aligned := by omega
      table_end := by rw [htable, hwidth, hstates, hshift, henc.length]; rfl
      startOther := ?_
      startWord := ?_
      byteClass := ?_
      step := ?_
      step_dead := ?_
      accept_dead := (henc.accept hpos).trans hd.dead.accept }
  · rw [size_encode h]
    exact Nat.le_trans (by decide) (Nat.le_trans (Nat.le_add_right _ _) (Encoded.le_size _))
  · rw [henc.startOther (Nat.lt_trans hd.startOther (by omega)), hstates]
    exact hd.startOther
  · rw [henc.startWord (Nat.lt_trans hd.startWord (by omega)), hstates]
    exact hd.startWord
  · intro c
    rw [henc.byteClass, hclasses]
    exact hd.class_lt c
  · intro s hs c hc
    rw [hstates] at hs ⊢
    rw [hclasses] at hc
    rw [encode_step hd.toClosed h hs hc]
    exact hd.step s hs c hc
  · intro c hc
    rw [hclasses] at hc
    rw [encode_step hd.toClosed h hpos hc]
    exact hd.dead.step c hc

end Dfa

end ByteRegex
