-- The block of bytes that stands for an automaton holds all that a scan asks
-- for: the classes of the bytes, when the states accept, and the successors.
import ByteRegex.Proofs.Table.Scan

namespace ByteRegex

/-! ## Words -/

theorem toNat_toUInt8 (n : Nat) : n.toUInt8.toNat = n % 256 := by simp

theorem low_high {n : Nat} (h : n < 0x10000) :
    n.toUInt8.toNat + 0x100 * (n / 0x100).toUInt8.toNat = n := by
  rw [toNat_toUInt8, toNat_toUInt8]
  omega

theorem Bytes.at16_eq {b : Bytes} {i n : Nat} (h : n < 0x10000) (h0 : b.getD i 0 = n.toUInt8)
    (h1 : b.getD (i + 1) 0 = (n / 0x100).toUInt8) : b.at16 i = n := by
  rw [Bytes.at16, Bytes.at8, Bytes.at8, h0, h1]
  exact low_high h

theorem Bytes.at32_eq {b : Bytes} {i n : Nat} (h : n ≤ maxWord) (h0 : b.getD i 0 = n.toUInt8)
    (h1 : b.getD (i + 1) 0 = (n / 0x100).toUInt8) (h2 : b.getD (i + 2) 0 = (n / 0x10000).toUInt8)
    (h3 : b.getD (i + 3) 0 = (n / 0x10000 / 0x100).toUInt8) : b.at32 i = n := by
  have hlow : b.at16 i = n % 0x10000 := by
    refine Bytes.at16_eq (Nat.mod_lt _ (by decide)) (h0.trans ?_) (h1.trans ?_)
    all_goals
      rw [← UInt8.toNat_inj, toNat_toUInt8, toNat_toUInt8]
      omega
  have hhigh : b.at16 (i + 2) = n / 0x10000 := Bytes.at16_eq (by rw [maxWord] at h; omega) h2 h3
  rw [Bytes.at32, hlow, hhigh]
  omega

/-! ## The shape of a block -/

namespace Table

theorem le_shiftFrom {n fuel s : Nat} (h : n ≤ 1 <<< (s + fuel)) :
    n ≤ 1 <<< shiftFrom n fuel s := by
  induction fuel generalizing s with
  | zero => exact h
  | succ fuel ih =>
    rw [shiftFrom]
    split
    · assumption
    · exact ih (by rwa [show s + 1 + fuel = s + (fuel + 1) by omega])

/-- A row has room for all classes. -/
theorem le_rowShift (n : Nat) : n ≤ 1 <<< rowShift n := by
  refine le_shiftFrom ?_
  rw [Nat.one_shiftLeft]
  exact Nat.le_of_lt (Nat.lt_of_lt_of_le Nat.lt_two_pow_self
    (Nat.pow_le_pow_right (by omega) (by omega)))

theorem shiftFrom_le {n fuel s m : Nat} (hs : s ≤ m) (hm : n ≤ 1 <<< m) :
    shiftFrom n fuel s ≤ m := by
  induction fuel generalizing s with
  | zero => exact hs
  | succ fuel ih =>
    rw [shiftFrom]
    split
    · exact hs
    · rename_i hlt
      refine ih (Nat.lt_of_le_of_ne hs ?_)
      rintro rfl
      exact hlt hm

theorem recordOffset_eq : recordOffset = 304 := rfl

theorem le_tableOffset (n : Nat) : recordOffset + recordSize * n ≤ tableOffset n := by
  rw [tableOffset, align]
  omega

theorem tableOffset_mod (n : Nat) : tableOffset n % 16 = 0 := Nat.mul_mod_left _ _

/-- A block is so small that its size, and the sizes of two blocks together, fit a word. -/
theorem blockSize_lt {states shift width : Nat} (hstates : states < 0x10000) (hshift : shift ≤ 9)
    (hwidth : width ≤ 2) : blockSize states shift width < 0x8000000 := by
  have hentries : width * states ≤ 2 * 0x10000 := Nat.mul_le_mul hwidth (Nat.le_of_lt hstates)
  have htable : (width * states) <<< shift ≤ 2 * 0x10000 * 2 ^ 9 := by
    rw [Nat.shiftLeft_eq]
    exact Nat.mul_le_mul hentries (Nat.pow_le_pow_right (by decide) hshift)
  have hrecords : tableOffset states ≤ 0x100000 := by
    rw [tableOffset, align, recordOffset_eq, recordSize]
    omega
  rw [blockSize]
  exact Nat.lt_of_le_of_lt (Nat.add_le_add hrecords htable) (by decide)

end Table

/-- The starts and all successors are states of the automaton. -/
structure Dfa.Closed (d : Dfa) : Prop where
  startOther : d.startOther < d.size
  startWord : d.startWord < d.size
  step : ∀ s < d.size, ∀ c < d.alphaSize, d.step s c < d.size

namespace Dfa

open Table (classOffset headerSize recordSize recordOffset)

variable {d : Dfa} {narrow : Bool} {t : Table}

/-- The bytes of the block of an automaton. -/
structure Encoded (d : Dfa) (s : Shape) (t : Table) : Prop where
  fits : d.fits s = true
  byte : ∀ i < s.size, t.bytes.getD i 0 = d.blockByte s (d.header s).toArray i

theorem encode_ok (h : d.encode narrow = .ok t) : d.Encoded (d.shape narrow) t := by
  rw [encode] at h
  dsimp only at h
  split at h
  · rename_i hfits
    rw [← Except.ok.inj h]
    refine ⟨hfits, fun i hi => ?_⟩
    rw [Array.getD_eq_getD_getElem?, Array.getElem?_ofFn, dif_pos hi]
    rfl
  · cases h

/-- The bytes of the header, from the right, so that each of them can be read off. -/
def headerBytes (d : Dfa) (s : Shape) : List UInt8 :=
  word32 Table.magic ++ (word32 s.size ++ (word16 s.states ++ (word16 d.alphaSize
    ++ (word16 d.startOther ++ (word16 d.startWord ++ (word16 0
    ++ (word16 d.startClass ++ (word16 d.endClass
    ++ ([s.width.toUInt8, s.shift.toUInt8, d.direction.code.toUInt8,
      if d.wordSensitive then Table.wordFlag.toUInt8 else 0, 0, 0]
    ++ (word32 recordOffset ++ word32 s.tableAt))))))))))

theorem header_eq (d : Dfa) (s : Shape) : d.header s = d.headerBytes s := by
  simp only [header, headerBytes, List.append_assoc]

namespace Encoded

variable {s : Shape}

theorem states_lt (h : d.Encoded s t) : s.states < 0x10000 := by
  have := h.fits
  rw [Dfa.fits, Bool.and_eq_true, Bool.and_eq_true, decide_eq_true_eq] at this
  exact this.1.1

theorem size_le (h : d.Encoded s t) : s.size ≤ maxWord := by
  have := h.fits
  rw [Dfa.fits, Bool.and_eq_true, Bool.and_eq_true, decide_eq_true_eq, decide_eq_true_eq] at this
  exact this.1.2

theorem class_lt (h : d.Encoded s t) {c : Nat} (hc : c < 256) : d.classOf c < 0x100 := by
  have := h.fits
  rw [Dfa.fits, Bool.and_eq_true, List.all_eq_true] at this
  exact of_decide_eq_true (this.2 c (List.mem_range.2 hc))

theorem le_size (s : Shape) : recordOffset + recordSize * s.states ≤ s.size :=
  Nat.le_trans (Table.le_tableOffset _) (Nat.le_add_right _ _)

theorem byte_header (h : d.Encoded s t) {i : Nat} (hi : i < classOffset) :
    t.bytes.getD i 0 = (d.headerBytes s).getD i 0 := by
  have hsize := le_size s
  rw [Table.recordOffset_eq] at hsize
  have hi' : i < 36 := hi
  rw [h.byte i (by omega), blockByte, if_pos hi, Array.getD_eq_getD_getElem?,
    List.getElem?_toArray, List.getD_eq_getElem?_getD, header_eq]

/-! ## The header -/

theorem at16_header (h : d.Encoded s t) {i n : Nat} (hn : n < 0x10000) (hi : i + 1 < classOffset)
    (h0 : (d.headerBytes s).getD i 0 = n.toUInt8)
    (h1 : (d.headerBytes s).getD (i + 1) 0 = (n / 0x100).toUInt8) :
    t.bytes.at16 i = n :=
  Bytes.at16_eq hn ((h.byte_header (Nat.lt_of_succ_lt hi)).trans h0)
    ((h.byte_header hi).trans h1)

theorem at32_header (h : d.Encoded s t) {i n : Nat} (hn : n ≤ maxWord) (hi : i + 3 < classOffset)
    (h0 : (d.headerBytes s).getD i 0 = n.toUInt8)
    (h1 : (d.headerBytes s).getD (i + 1) 0 = (n / 0x100).toUInt8)
    (h2 : (d.headerBytes s).getD (i + 2) 0 = (n / 0x10000).toUInt8)
    (h3 : (d.headerBytes s).getD (i + 3) 0 = (n / 0x10000 / 0x100).toUInt8) : t.bytes.at32 i = n :=
  Bytes.at32_eq hn ((h.byte_header (by omega)).trans h0) ((h.byte_header (by omega)).trans h1)
    ((h.byte_header (by omega)).trans h2) ((h.byte_header hi).trans h3)

theorem startOther (h : d.Encoded s t) (hs : d.startOther < 0x10000) :
    t.startOther = d.startOther := h.at16_header hs (by decide) rfl rfl

theorem startWord (h : d.Encoded s t) (hs : d.startWord < 0x10000) :
    t.startWord = d.startWord := h.at16_header hs (by decide) rfl rfl

theorem startClass (h : d.Encoded s t) (hs : d.startClass < 0x10000) :
    t.startClass = d.startClass := h.at16_header hs (by decide) rfl rfl

theorem endClass (h : d.Encoded s t) (hs : d.endClass < 0x10000) :
    t.endClass = d.endClass := h.at16_header hs (by decide) rfl rfl

theorem width (h : d.Encoded s t) (hw : s.width < 0x100) : t.width = s.width := by
  rw [Table.width, Bytes.at8, h.byte_header (by decide), show (d.headerBytes s).getD 22 0
    = s.width.toUInt8 from rfl, toNat_toUInt8, Nat.mod_eq_of_lt hw]

theorem shift (h : d.Encoded s t) (hs : s.shift < 0x100) : t.shift = s.shift := by
  rw [Table.shift, Bytes.at8, h.byte_header (by decide), show (d.headerBytes s).getD 23 0
    = s.shift.toUInt8 from rfl, toNat_toUInt8, Nat.mod_eq_of_lt hs]

theorem recordsAt (h : d.Encoded s t) : t.recordsAt = recordOffset :=
  h.at32_header (by decide) (by decide) rfl rfl rfl rfl

theorem tableAt (h : d.Encoded s t) : t.tableAt = s.tableAt :=
  h.at32_header (Nat.le_trans (Nat.le_add_right _ _) h.size_le) (by decide) rfl rfl rfl rfl

/-! ## The classes and the records -/

theorem byteClass (h : d.Encoded s t) (c : UInt8) : t.byteClass c = d.classOf c.toNat := by
  have hc := c.toNat_lt
  have hsize := le_size s
  rw [Table.recordOffset_eq] at hsize
  have h1 : ¬ classOffset + c.toNat < classOffset := by omega
  have h2 : classOffset + c.toNat < headerSize := by
    rw [classOffset, headerSize]
    omega
  rw [Table.byteClass, Bytes.at8, h.byte _ (by rw [classOffset]; omega), blockByte, if_neg h1,
    if_pos h2, show classOffset + c.toNat - classOffset = c.toNat by omega, toNat_toUInt8,
    Nat.mod_eq_of_lt (h.class_lt hc)]

theorem accept (h : d.Encoded s t) {q : Nat} (hq : q < s.states) :
    t.accept q = (d.state q).accept := by
  have hsize := le_size s
  have hi : recordOffset + recordSize * q < recordOffset + recordSize * s.states := by
    rw [recordSize]
    omega
  have h1 : ¬ recordOffset + recordSize * q < classOffset := by
    rw [Table.recordOffset_eq, classOffset]
    omega
  have h2 : ¬ recordOffset + recordSize * q < headerSize := by
    rw [Table.recordOffset_eq, headerSize]
    omega
  have h3 : ¬ recordOffset + recordSize * q < recordOffset := by omega
  rw [Table.accept, h.recordsAt, Bytes.at8, h.byte _ (by omega), blockByte, if_neg h1, if_neg h2,
    if_neg h3, if_pos hi, Nat.add_sub_cancel_left, Nat.mul_mod_right,
    Nat.mul_div_cancel_left _ (by decide), recordByte, if_pos rfl]
  simp

/-! ## The successors -/

theorem byte_table (h : d.Encoded s t) {i : Nat} (hi : s.tableAt + i < s.size) :
    t.bytes.getD (s.tableAt + i) 0 = d.tableByte s i := by
  have hle : recordOffset + recordSize * s.states ≤ s.tableAt := Table.le_tableOffset _
  have h1 : ¬ s.tableAt + i < classOffset := by
    rw [Table.recordOffset_eq] at hle
    rw [classOffset]
    omega
  have h2 : ¬ s.tableAt + i < headerSize := by
    rw [Table.recordOffset_eq] at hle
    rw [headerSize]
    omega
  rw [h.byte _ hi, blockByte, if_neg h1, if_neg h2, if_neg (by omega), if_neg (by omega),
    if_neg (by omega), Nat.add_sub_cancel_left]

theorem tableByte_eq {q c j : Nat} (hc : c < s.classes) (hs : s.classes ≤ 1 <<< s.shift)
    (hj : j < s.width) :
    d.tableByte s (s.width * (q <<< s.shift + c) + j) = (d.step q c >>> (8 * j)).toUInt8 := by
  have hpos : 0 < 2 ^ s.shift := Nat.two_pow_pos _
  rw [Nat.one_shiftLeft] at hs
  have hentry : (s.width * (q <<< s.shift + c) + j) / s.width = q <<< s.shift + c := by
    rw [Nat.mul_add_div (by omega), Nat.div_eq_of_lt hj, Nat.add_zero]
  have hrow : (q <<< s.shift + c) >>> s.shift = q := by
    rw [Nat.shiftRight_eq_div_pow, Nat.shiftLeft_eq, Nat.mul_comm, Nat.mul_add_div hpos,
      Nat.div_eq_of_lt (Nat.lt_of_lt_of_le hc hs), Nat.add_zero]
  have hcls : (q <<< s.shift + c) % 1 <<< s.shift = c := by
    rw [Nat.one_shiftLeft, Nat.shiftLeft_eq, Nat.mul_comm, Nat.mul_add_mod,
      Nat.mod_eq_of_lt (Nat.lt_of_lt_of_le hc hs)]
  rw [tableByte, hentry, hrow, hcls, if_pos hc, Nat.mul_add_mod, Nat.mod_eq_of_lt hj]

theorem shift_lt (h : d.Encoded s t) (hw : 0 < s.width) (hst : 0 < s.states) :
    s.shift < 0x100 := by
  have hsize := h.size_le
  have hpow : 2 ^ s.shift ≤ (s.width * s.states) <<< s.shift := by
    rw [Nat.shiftLeft_eq]
    exact Nat.le_mul_of_pos_left _ (Nat.mul_pos hw hst)
  have hlt : 2 ^ s.shift < 2 ^ 32 :=
    Nat.lt_of_le_of_lt (Nat.le_trans hpow (Nat.le_trans (Nat.le_add_left _ _) hsize)) (by decide)
  exact Nat.lt_trans ((Nat.pow_lt_pow_iff_right (by decide)).1 hlt) (by decide)

theorem entry_lt {q c : Nat} (hq : q < s.states) (hc : c < s.classes)
    (hs : s.classes ≤ 1 <<< s.shift) : q <<< s.shift + c < s.states <<< s.shift := by
  rw [Nat.one_shiftLeft] at hs
  rw [Nat.shiftLeft_eq, Nat.shiftLeft_eq]
  calc q * 2 ^ s.shift + c < q * 2 ^ s.shift + 2 ^ s.shift := by omega
    _ = (q + 1) * 2 ^ s.shift := by rw [Nat.succ_mul]
    _ ≤ s.states * 2 ^ s.shift := Nat.mul_le_mul_right _ hq

theorem step (h : d.Encoded s t) {q c : Nat} (hq : q < s.states) (hc : c < s.classes)
    (hs : s.classes ≤ 1 <<< s.shift)
    (hw : (s.width = 1 ∧ d.step q c < 0x100) ∨ (s.width = 2 ∧ d.step q c < 0x10000)) :
    t.step q c = d.step q c := by
  have hwpos : 0 < s.width := by omega
  have hentry := entry_lt hq hc hs
  have hsize : s.size = s.tableAt + s.width * s.states <<< s.shift := by
    rw [Shape.size, Table.blockSize, Shape.tableAt, Nat.shiftLeft_eq, Nat.shiftLeft_eq,
      Nat.mul_assoc]
  rw [Table.step, h.shift (h.shift_lt hwpos (by omega)), Table.entry, h.width (by omega),
    h.tableAt]
  rcases hw with ⟨hw, hlt⟩ | ⟨hw, hlt⟩
  · have hbyte := tableByte_eq (d := d) (q := q) (j := 0) hc hs hwpos
    rw [hw, Nat.one_mul, Nat.add_zero, Nat.mul_zero, Nat.shiftRight_zero] at hbyte
    rw [hw, Nat.one_mul] at hsize
    rw [if_pos hw, Bytes.at8, h.byte_table (by omega), hbyte, toNat_toUInt8, Nat.mod_eq_of_lt hlt]
  · have hbyte0 := tableByte_eq (d := d) (q := q) (j := 0) hc hs hwpos
    have hbyte1 := tableByte_eq (d := d) (q := q) (j := 1) hc hs (by omega)
    rw [hw] at hbyte0 hbyte1 hsize
    rw [if_neg (by omega)]
    refine Bytes.at16_eq hlt ((h.byte_table (by omega)).trans hbyte0) ?_
    rw [Nat.add_assoc, h.byte_table (by omega), hbyte1, Nat.shiftRight_eq_div_pow]

end Encoded

/-- Entries are narrow only where the number of each state fits a byte. -/
theorem shape_width (d : Dfa) (narrow : Bool) :
    (d.shape narrow).width = 1 ∧ d.size ≤ 0x100 ∨ (d.shape narrow).width = 2 := by
  by_cases hn : d.size ≤ 256 ∧ narrow = true
  · exact Or.inl ⟨if_pos hn, hn.1⟩
  · exact Or.inr (if_neg hn)

/-- The table holds the successors of the automaton. -/
theorem encode_step (hd : d.Closed) (h : d.encode narrow = .ok t) {q c : Nat} (hq : q < d.size)
    (hc : c < d.alphaSize) : t.step q c = d.step q c := by
  have henc := encode_ok h
  have hstates : d.size < 0x10000 := henc.states_lt
  have hnext := hd.step q hq c hc
  refine henc.step hq hc (Table.le_rowShift _) ?_
  rcases d.shape_width narrow with ⟨hw, hn⟩ | hw
  · exact Or.inl ⟨hw, Nat.lt_of_lt_of_le hnext hn⟩
  · exact Or.inr ⟨hw, Nat.lt_trans hnext hstates⟩

/-- An automaton over the classes of an alphabet fits a block, unless it has too many states. -/
theorem exists_encode (hsize : d.size < 0x10000) (halpha : d.alphaSize ≤ 258)
    (hclass : ∀ c < 256, d.classOf c < 0x100) : ∃ t, d.encode narrow = .ok t := by
  have hshift : (d.shape narrow).shift ≤ 9 :=
    Table.shiftFrom_le (by decide) (Nat.le_trans halpha (by decide))
  have hwidth : (d.shape narrow).width ≤ 2 := by
    rcases d.shape_width narrow with ⟨hw, _⟩ | hw <;> omega
  have hstates : (d.shape narrow).states < 0x10000 := hsize
  have hblock : (d.shape narrow).size ≤ maxWord :=
    Nat.le_trans (Nat.le_of_lt (Table.blockSize_lt hstates hshift hwidth)) (by decide)
  have hfits : d.fits (d.shape narrow) = true := by
    rw [fits, Bool.and_eq_true, Bool.and_eq_true, decide_eq_true_eq, decide_eq_true_eq,
      List.all_eq_true]
    exact ⟨⟨hsize, hblock⟩, fun c hc => decide_eq_true (hclass c (List.mem_range.1 hc))⟩
  exact ⟨_, by rw [encode, if_pos hfits]⟩

/-- An automaton and its block agree, and the classes of the bytes are the same. -/
theorem encode_agree (hd : d.Closed) (h : d.encode narrow = .ok t) :
    Machine.Agree d.alphaSize d.machine t.machine := by
  have henc := encode_ok h
  have hstates : d.size < 0x10000 := henc.states_lt
  have halike : ∀ q, q < d.size → Machine.Alike d.alphaSize d.machine q t.machine q := by
    intro q hq
    refine Machine.Alike.of_bisim (R := fun q q' => q = q' ∧ q < d.size) ?_ ?_ ⟨rfl, hq⟩
    · rintro q _ ⟨rfl, hq⟩
      exact (henc.accept hq).symm
    · rintro q _ c ⟨rfl, hq⟩ hc
      exact ⟨(encode_step hd h hq hc).symm, hd.step q hq c hc⟩
  have ho := hd.startOther
  have hw := hd.startWord
  refine ⟨halike 0 (by omega), ?_, ?_⟩
  · rw [show t.machine.startOther = d.startOther from henc.startOther (by omega)]
    exact halike _ ho
  · rw [show t.machine.startWord = d.startWord from henc.startWord (by omega)]
    exact halike _ hw

/-- The classes that a scan over the block uses are those of the automaton. -/
theorem encode_reading (h : d.encode narrow = .ok t) (hs : d.startClass < 0x10000)
    (he : d.endClass < 0x10000) :
    t.reading = d.reading := by
  have henc := encode_ok h
  rw [Table.reading, henc.startClass hs, henc.endClass he]
  congr 1
  exact funext henc.byteClass

end Dfa

end ByteRegex
