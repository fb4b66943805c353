-- Scans with a guard on every read: of the bytes of the text, of the class of a byte, of
-- the record of a state, and of an entry of the table, whose number is computed in 32-bit
-- words. Each state that is met has to be a state of the table. Over a block that passes
-- all checks no guard ever fails.
import ByteRegex.Proofs.Table.Valid

namespace ByteRegex

/-! ## Guarded reads -/

namespace Bytes

/-- The byte at an offset that lies in the block. -/
def read8? (b : Bytes) (i : Nat) : Option Nat := if i < b.size then some (b.at8 i) else none

/-- The 16-bit word at an even offset, both bytes of which lie in the block. -/
def read16? (b : Bytes) (i : Nat) : Option Nat :=
  if i % 2 = 0 ∧ i + 1 < b.size then some (b.at16 i) else none

end Bytes

namespace Table

/-- A number that is the number of a state. -/
def state? (t : Table) (s : Nat) : Option Nat := if s < t.stateCount then some s else none

/-- The class of a byte. -/
def byteClass? (t : Table) (c : UInt8) : Option Nat := t.bytes.read8? (classOffset + c.toNat)

/-- When a state accepts. -/
def accept? (t : Table) (s : Nat) : Option AcceptFlags := do
  let s ← t.state? s
  let bits ← t.bytes.read8? (t.recordsAt + recordSize * s)
  return ⟨bits.toUInt8⟩

/-- The table entry with a number, as far as the rows of the states go. -/
def entry? (t : Table) (i : Nat) : Option Nat :=
  if i < t.stateCount <<< t.shift then
    if t.width = 1 then t.bytes.read8? (t.tableAt + i) else t.bytes.read16? (t.tableAt + 2 * i)
  else none

/-- The number of the entry for a state and a class, in 32-bit words. -/
def entryWord (t : Table) (s cls : Nat) : UInt32 :=
  s.toUInt32 <<< t.shift.toUInt32 + cls.toUInt32

/-- The successor of a state for a class. -/
def step? (t : Table) (s cls : Nat) : Option Nat := do
  let s ← t.state? s
  let next ← t.entry? (t.entryWord s cls).toNat
  t.state? next

/-! ## Guarded scans -/

/-- The state in which a scan starts beside a byte, or beside an end of the text. -/
def enter? (t : Table) : Option UInt8 → Option Nat
  | none => t.step? t.startOther t.startClass
  | some c => t.state? (if isWordByte c then t.startWord else t.startOther)

/-- The state before the byte at `start`. -/
def forwardStart? (t : Table) (data : Bytes) (start : Nat) : Option Nat :=
  if start = 0 then t.enter? none
  else do
    let c ← data[start - 1]?
    t.enter? (some c)

/-- Scans from state `s` at offset `i`. -/
def forwardFrom? (t : Table) (data : Bytes) (shortest : Bool) (s i : Nat) (found : Option Nat) :
    Option (Option Nat) :=
  if s = 0 then some found
  else if h : i < data.size then do
    let c := data[i]
    let flags ← t.accept? s
    let here := flags.before c
    if here && shortest then return some i
    else
      let cls ← t.byteClass? c
      let next ← t.step? s cls
      forwardFrom? t data shortest next (i + 1) (if here then some i else found)
  else do
    let next ← t.step? s t.endClass
    let flags ← t.accept? next
    return if flags.any then some data.size else found
termination_by data.size - i

/-- A forward scan. -/
def scanForward? (t : Table) (data : Bytes) (start : Nat) (shortest : Bool) :
    Option (Option Nat) := do
  let s ← t.forwardStart? data start
  t.forwardFrom? data shortest s start none

/-- The state behind the byte at `hi - 1`. -/
def reverseStart? (t : Table) (data : Bytes) (hi : Nat) : Option Nat :=
  if hi = data.size then t.enter? none
  else do
    let c ← data[hi]?
    t.enter? (some c)

/-- The state accepts before the scan leaves the text at `lo`. -/
def acceptsAtLow? (t : Table) (data : Bytes) (lo s : Nat) : Option Bool :=
  if lo = 0 then do
    let next ← t.step? s t.endClass
    let flags ← t.accept? next
    return flags.any
  else do
    let c ← data[lo - 1]?
    let flags ← t.accept? s
    return flags.before c

/-- Scans back from state `s`, with `n` bytes left above `lo`. -/
def reverseFrom? (t : Table) (data : Bytes) (lo : Nat) :
    Nat → Nat → Option Nat → Option (Option Nat)
  | 0, s, found =>
    if s = 0 then some found
    else do
      let here ← t.acceptsAtLow? data lo s
      return if here then some lo else found
  | n + 1, s, found =>
    if s = 0 then some found
    else do
      let c ← data[lo + n]?
      let flags ← t.accept? s
      let cls ← t.byteClass? c
      let next ← t.step? s cls
      reverseFrom? t data lo n next (if flags.before c then some (lo + n + 1) else found)

/-- A reverse scan. -/
def scanReverse? (t : Table) (data : Bytes) (lo hi : Nat) : Option (Option Nat) := do
  let s ← t.reverseStart? data hi
  t.reverseFrom? data lo (hi - lo) s none

/-! ## Reads of a block that passes all checks -/

namespace Valid

variable {t : Table} {direction : Direction} {s cls : Nat}

theorem state?_eq (hs : s < t.stateCount) : t.state? s = some s := by
  unfold state?
  simp [hs]

theorem byteClass?_eq (h : t.Valid direction) (c : UInt8) :
    t.byteClass? c = some (t.byteClass c) := by
  have hc := c.toNat_lt
  have hsize := h.headerSize_le
  have hinside : classOffset + c.toNat < t.bytes.size := by
    unfold headerSize classOffset at *
    omega
  unfold byteClass? Bytes.read8? Table.byteClass
  simp [hinside]

theorem accept?_eq (h : t.Valid direction) (hs : s < t.stateCount) :
    t.accept? s = some (t.accept s) := by
  have hrecords := h.records_le_table
  have htable : t.tableAt ≤ t.bytes.size := by
    rw [← h.length]
    exact Nat.le.intro h.table_end
  have hinside : t.recordsAt + recordSize * s < t.bytes.size := by
    unfold recordSize at *
    omega
  unfold accept? Bytes.read8? Table.accept
  simp [state?_eq hs, hinside]

theorem endClass_lt (h : t.Valid direction) : t.endClass < t.alphaSize := by
  have := h.endClass
  omega

theorem startClass_lt (h : t.Valid direction) : t.startClass < t.alphaSize := by
  have := h.startClass
  omega

theorem byteClass_lt (h : t.Valid direction) (c : UInt8) : t.byteClass c < t.alphaSize :=
  Nat.lt_of_lt_of_le (h.byteClass c) (Nat.sub_le _ _)

/-- The number of an entry is below the number of all entries, which is small. -/
theorem entry_lt (h : t.Valid direction) (hs : s < t.stateCount) (hc : cls < t.alphaSize) :
    s <<< t.shift + cls < t.stateCount <<< t.shift :=
  Dfa.Encoded.entry_lt (s := ⟨t.stateCount, t.alphaSize, t.shift, t.width⟩) hs hc h.alphaSize_le_row

theorem entries_le (h : t.Valid direction) : t.stateCount <<< t.shift ≤ 0x2000000 := by
  rw [Nat.shiftLeft_eq]
  calc t.stateCount * 2 ^ t.shift ≤ 0x10000 * 2 ^ 9 :=
        Nat.mul_le_mul (Nat.le_of_lt t.stateCount_lt) (Nat.pow_le_pow_right (by decide) h.shift_le)
    _ = 0x2000000 := rfl

/-- Nothing is lost in 32 bits. -/
theorem toNat_entryWord (h : t.Valid direction) (hs : s < t.stateCount) (hc : cls < t.alphaSize) :
    (t.entryWord s cls).toNat = s <<< t.shift + cls := by
  have hlt := h.entry_lt hs hc
  have hle := h.entries_le
  have hshift := h.shift_le
  have hcount := t.stateCount_lt
  have hclasses := h.alphaSize_le
  have hsymbols : symbolCount = 258 := rfl
  have hs' : s.toUInt32.toNat = s := Nat.mod_eq_of_lt (by omega)
  have hc' : cls.toUInt32.toNat = cls := Nat.mod_eq_of_lt (by omega)
  have hk' : t.shift.toUInt32.toNat = t.shift := Nat.mod_eq_of_lt (by omega)
  unfold entryWord
  rw [UInt32.toNat_add, UInt32.toNat_shiftLeft, hs', hc', hk',
    Nat.mod_eq_of_lt (by omega : t.shift < 32),
    Nat.mod_eq_of_lt (by omega : s <<< t.shift < 2 ^ 32), Nat.mod_eq_of_lt (by omega)]

theorem entry?_eq (h : t.Valid direction) {i : Nat} (hi : i < t.stateCount <<< t.shift) :
    t.entry? i = some (t.entry i) := by
  have hsize : t.tableAt + t.width * t.stateCount <<< t.shift = t.bytes.size := by
    rw [← h.length, ← h.table_end, Nat.shiftLeft_eq, Nat.shiftLeft_eq, Nat.mul_assoc]
  have heven := h.table_aligned
  unfold entry? entry
  rw [if_pos hi]
  rcases h.width with hw | hw
  · have hinside : t.tableAt + i < t.bytes.size := by
      rw [hw] at hsize
      omega
    unfold Bytes.read8?
    simp [hw, hinside]
  · have hinside : (t.tableAt + 2 * i) % 2 = 0 ∧ t.tableAt + 2 * i + 1 < t.bytes.size := by
      rw [hw] at hsize
      omega
    unfold Bytes.read16?
    simp [hw, hinside]

theorem step?_eq (h : t.Valid direction) (hs : s < t.stateCount) (hc : cls < t.alphaSize) :
    t.step? s cls = some (t.step s cls) := by
  unfold step?
  rw [state?_eq hs]
  simp only [Option.bind_eq_bind, Option.bind_some]
  rw [h.toNat_entryWord hs hc, h.entry?_eq (h.entry_lt hs hc)]
  exact state?_eq (h.step s hs cls hc)

/-! ## Scans of a block that passes all checks -/

variable {data : Bytes}

theorem enter?_eq (h : t.Valid direction) (b : Option UInt8) :
    t.enter? b = some (t.machine.enter t.reading b) := by
  cases b with
  | none => exact h.step?_eq h.startOther h.startClass_lt
  | some c =>
    simp only [enter?, Machine.enter]
    split
    · exact state?_eq h.startWord
    · exact state?_eq h.startOther

theorem enter_lt (h : t.Valid direction) (b : Option UInt8) :
    t.machine.enter t.reading b < t.stateCount := by
  cases b with
  | none => exact h.step _ h.startOther _ h.startClass_lt
  | some c =>
    simp only [Machine.enter]
    split
    · exact h.startWord
    · exact h.startOther

theorem forwardStart?_eq (h : t.Valid direction) {start : Nat} (hstart : start ≤ data.size) :
    t.forwardStart? data start = some (t.forwardStart data start) := by
  rw [forwardStart_eq, Machine.first_eq_enter]
  unfold forwardStart? Machine.byteBefore
  split
  · exact h.enter?_eq none
  · rename_i hpos
    have hlt : start - 1 < data.size := by omega
    rw [Array.getD_eq_getD_getElem?, Array.getElem?_eq_getElem hlt]
    exact h.enter?_eq (some data[start - 1])

/-- From a state of the table on, no guard of a forward scan fails. -/
theorem forwardFrom?_eq (h : t.Valid direction) {shortest : Bool} {i : Nat} {found : Option Nat}
    (hs : s < t.stateCount) :
    t.forwardFrom? data shortest s i found = some (t.forwardFrom data shortest s i found) := by
  fun_induction forwardFrom t data shortest s i found with
  | case1 i found =>
    unfold forwardFrom?
    simp
  | case2 s i found hdead hlt c here hacc =>
    unfold forwardFrom?
    rw [if_neg hdead, dif_pos hlt, h.accept?_eq hs]
    simp only [Option.bind_eq_bind, Option.bind_some]
    exact if_pos hacc
  | case3 s i found hdead hlt c here hacc ih =>
    have hc := h.byteClass_lt c
    have hrest := ih (h.step s hs _ hc)
    simp only [dite_eq_ite] at hrest
    unfold forwardFrom?
    rw [if_neg hdead, dif_pos hlt, h.accept?_eq hs]
    simp only [Option.bind_eq_bind, Option.bind_some]
    rw [if_neg hacc, h.byteClass?_eq, Option.bind_some, h.step?_eq hs hc]
    exact hrest
  | case4 s i found hdead hlt hany =>
    have hend := h.step s hs _ h.endClass_lt
    unfold forwardFrom?
    simp [hdead, hlt, h.step?_eq hs h.endClass_lt, h.accept?_eq hend, hany]
  | case5 s i found hdead hlt hany =>
    have hend := h.step s hs _ h.endClass_lt
    unfold forwardFrom?
    simp [hdead, hlt, h.step?_eq hs h.endClass_lt, h.accept?_eq hend, hany]

theorem scanForward?_eq (h : t.Valid direction) {start : Nat} (hstart : start ≤ data.size)
    (shortest : Bool) :
    t.scanForward? data start shortest = some (t.scanForward data start shortest) := by
  have hlt : t.forwardStart data start < t.stateCount := by
    rw [forwardStart_eq, Machine.first_eq_enter]
    exact h.enter_lt _
  unfold scanForward?
  rw [h.forwardStart?_eq hstart]
  exact h.forwardFrom?_eq hlt

theorem reverseStart?_eq (h : t.Valid direction) {hi : Nat} (hhi : hi ≤ data.size) :
    t.reverseStart? data hi = some (t.reverseStart data hi) := by
  rw [reverseStart_eq hhi]
  unfold reverseStart?
  split
  · rename_i hend
    rw [Array.getElem?_eq_none (Nat.le_of_eq hend.symm)]
    exact h.enter?_eq none
  · rename_i hne
    have hlt : hi < data.size := by omega
    rw [Array.getElem?_eq_getElem hlt]
    exact h.enter?_eq (some data[hi])

theorem acceptsAtLow?_eq (h : t.Valid direction) {lo : Nat} (hlo : lo ≤ data.size)
    (hs : s < t.stateCount) : t.acceptsAtLow? data lo s = some (t.acceptsAtLow data lo s) := by
  unfold acceptsAtLow? acceptsAtLow
  split
  · have hend := h.step s hs _ h.endClass_lt
    simp [h.step?_eq hs h.endClass_lt, h.accept?_eq hend]
  · rename_i hpos
    have hlt : lo - 1 < data.size := by omega
    simp [hlt, h.accept?_eq hs]

/-- From a state of the table on, no guard of a reverse scan fails. -/
theorem reverseFrom?_eq (h : t.Valid direction) {lo n : Nat} {found : Option Nat}
    (hn : lo + n ≤ data.size) (hs : s < t.stateCount) :
    t.reverseFrom? data lo n s found = some (t.reverseFrom data lo n s found) := by
  induction n generalizing s found with
  | zero =>
    unfold reverseFrom? reverseFrom
    split
    · rfl
    · have hlo : lo ≤ data.size := hn
      rw [h.acceptsAtLow?_eq hlo hs]
      rfl
  | succ n ih =>
    unfold reverseFrom? reverseFrom
    split
    · rfl
    · have hlt : lo + n < data.size := by omega
      have hc := h.byteClass_lt data[lo + n]
      rw [Array.getD_eq_getD_getElem?, Array.getElem?_eq_getElem hlt, h.accept?_eq hs]
      simp only [Option.bind_eq_bind, Option.bind_some, Option.getD_some]
      rw [h.byteClass?_eq, Option.bind_some, h.step?_eq hs hc]
      exact ih (by omega) (h.step s hs _ hc)

theorem scanReverse?_eq (h : t.Valid direction) {lo hi : Nat} (hlo : lo ≤ hi)
    (hhi : hi ≤ data.size) : t.scanReverse? data lo hi = some (t.scanReverse data lo hi) := by
  have hlt : t.reverseStart data hi < t.stateCount := by
    rw [reverseStart_eq hhi]
    exact h.enter_lt _
  have hn : lo + (hi - lo) ≤ data.size := by omega
  unfold scanReverse?
  rw [h.reverseStart?_eq hhi]
  exact h.reverseFrom?_eq hn hlt

end Valid

end Table

end ByteRegex
