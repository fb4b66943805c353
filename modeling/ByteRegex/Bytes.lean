-- Byte strings: how they are read as little-endian words, how they are
-- written, and the two spellings of a byte in text.

namespace ByteRegex

/-- A byte string. -/
abbrev Bytes := Array UInt8

/-- The largest 32-bit word. Lengths, offsets and locations stay below it. -/
def maxWord : Nat := 0xffffffff

/-- The byte counts as a word character for `\b` and `\B`: a digit, an ASCII
letter or an underscore. No byte outside ASCII does. -/
def isWordByte (c : UInt8) : Bool :=
  (0x30 ≤ c && c ≤ 0x39) || (0x41 ≤ c && c ≤ 0x5a) || (0x61 ≤ c && c ≤ 0x7a) || c == 0x5f

/-- The byte is a decimal digit. -/
def isDigitByte (c : UInt8) : Bool := 0x30 ≤ c && c ≤ 0x39

/-- Every byte, in ascending order. -/
def allBytes : List UInt8 := (List.range 256).map UInt8.ofNat

theorem mem_allBytes (c : UInt8) : c ∈ allBytes :=
  List.mem_map.2 ⟨c.toNat, List.mem_range.2 c.toNat_lt, UInt8.ofNat_toNat⟩

/-- A table that starts with a value for each byte gives a byte its value. -/
theorem getD_allBytes (f : UInt8 → Nat) (rest : Array Nat) (b : UInt8) :
    ((allBytes.map f).toArray ++ rest).getD b.toNat 0 = f b := by
  have hlt := b.toNat_lt
  rw [Array.getD_eq_getD_getElem?, Array.getElem?_append_left (by simpa [allBytes]),
    List.getElem?_toArray, List.getElem?_map, allBytes, List.getElem?_map, List.getElem?_range hlt]
  simp

/-! ## Little-endian words -/

/-- A 16-bit word, low byte first. -/
def word16 (n : Nat) : List UInt8 := [n.toUInt8, (n / 0x100).toUInt8]

/-- A 32-bit word, low byte first. -/
def word32 (n : Nat) : List UInt8 := word16 n ++ word16 (n / 0x10000)

namespace Bytes

/-- The byte at `i`, and 0 past the end. -/
def at8 (b : Bytes) (i : Nat) : Nat := (b.getD i 0).toNat

/-- The 16-bit word at `i`. -/
def at16 (b : Bytes) (i : Nat) : Nat := b.at8 i + 0x100 * b.at8 (i + 1)

/-- The 32-bit word at `i`. -/
def at32 (b : Bytes) (i : Nat) : Nat := b.at16 i + 0x10000 * b.at16 (i + 2)

theorem at8_lt (b : Bytes) (i : Nat) : b.at8 i < 0x100 := UInt8.toNat_lt _

theorem at16_lt (b : Bytes) (i : Nat) : b.at16 i < 0x10000 := by
  have h1 := b.at8_lt i
  have h2 := b.at8_lt (i + 1)
  unfold at16
  omega

/-! ## Text as bytes

Text that is handed in or out holds one byte in each character. -/

/-- The bytes of a text, one for each character. -/
def ofText (s : String) : Bytes := (s.toList.map fun c => c.toNat.toUInt8).toArray

/-- The text of a byte string, one character for each byte. -/
def toText (b : Bytes) : String := String.ofList (b.toList.map fun c => Char.ofNat c.toNat)

end Bytes

/-- The character with the number of a byte. -/
def byteChar (c : UInt8) : Char := Char.ofNat c.toNat

theorem toNat_byteChar (b : UInt8) : (byteChar b).toNat = b.toNat := by
  have hb := b.toNat_lt
  have hvalid : b.toNat.isValidChar := Or.inl (by omega)
  rw [byteChar, Char.ofNat, dif_pos hvalid]
  rfl

/-! ## Hexadecimal -/

/-- The value of a hexadecimal digit, in either case. -/
def hexValue? (c : UInt8) : Option Nat :=
  if isDigitByte c then some (c.toNat - 0x30)
  else if 0x61 ≤ c && c ≤ 0x66 then some (c.toNat - 0x61 + 10)
  else if 0x41 ≤ c && c ≤ 0x46 then some (c.toNat - 0x41 + 10)
  else none

theorem hexValue?_digit {d : Nat} (hd : d < 16) :
    hexValue? (Nat.digitChar d).toNat.toUInt8 = some d := by
  revert d
  decide

/-- A number in hexadecimal with lower-case digits and no leading zeros. -/
def hexLower (n : Nat) : String := String.ofList (Nat.toDigits 16 n)

/-- A number in hexadecimal with upper-case digits and no leading zeros. -/
def hexUpper (n : Nat) : String := String.ofList ((Nat.toDigits 16 n).map Char.toUpper)

/-- A byte as two lower-case hexadecimal digits. -/
def hexByte (c : UInt8) : String :=
  String.ofList [Nat.digitChar (c.toNat / 16), Nat.digitChar (c.toNat % 16)]

end ByteRegex
