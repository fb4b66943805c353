-- A deterministic automaton as one block of bytes: a header with the class of
-- each byte, a record for each state, and the table of successors. Each row of
-- the table is padded to a power of two.
import ByteRegex.Dfa
import ByteRegex.Error

namespace ByteRegex

namespace Table

/-! ## Layout -/

/-- The first word of a block. -/
def magic : Nat := 0x41464444

/-- The offset of the classes of the bytes. -/
def classOffset : Nat := 36

/-- The size of the header. -/
def headerSize : Nat := 292

/-- The size of the record of a state. -/
def recordSize : Nat := 8

/-- The flag of an automaton for which the byte before the start matters. -/
def wordFlag : Nat := 1

/-- Rounds up to a multiple of 16. -/
def align (n : Nat) : Nat := (n + 15) / 16 * 16

/-- The offset of the records. -/
def recordOffset : Nat := align headerSize

/-- The offset of the table behind `states` records. -/
def tableOffset (states : Nat) : Nat := align (recordOffset + recordSize * states)

/-- The least number from `s` on of which the power of two is at least `n`, if there is one
within `fuel` steps. -/
def shiftFrom (n : Nat) : Nat → Nat → Nat
  | 0, s => s
  | fuel + 1, s => if n ≤ 1 <<< s then s else shiftFrom n fuel (s + 1)

/-- A row of the table for `n` classes has `1 <<< rowShift n` entries: at least `n`, and
never fewer than two. -/
def rowShift (classes : Nat) : Nat := shiftFrom classes classes 1

/-- The size of a block. -/
def blockSize (states shift width : Nat) : Nat := tableOffset states + (width * states) <<< shift

end Table

/-- An encoded automaton. -/
structure Table where
  bytes : Bytes
deriving DecidableEq

namespace Table

/-! ## Reading -/

def magicWord (t : Table) : Nat := t.bytes.at32 0

/-- The length that the header gives for the block. -/
def length (t : Table) : Nat := t.bytes.at32 4

def stateCount (t : Table) : Nat := t.bytes.at16 8

def alphaSize (t : Table) : Nat := t.bytes.at16 10

def startOther (t : Table) : Nat := t.bytes.at16 12

def startWord (t : Table) : Nat := t.bytes.at16 14

/-- The number of the dead state. -/
def deadState (t : Table) : Nat := t.bytes.at16 16

/-- The class that stands for the start of the text. -/
def startClass (t : Table) : Nat := t.bytes.at16 18

/-- The class that stands for the end of the text. -/
def endClass (t : Table) : Nat := t.bytes.at16 20

/-- The number of bytes of a table entry. -/
def width (t : Table) : Nat := t.bytes.at8 22

def shift (t : Table) : Nat := t.bytes.at8 23

/-- The direction as a number: 0 for forward, 1 for reverse. -/
def directionByte (t : Table) : Nat := t.bytes.at8 24

def flags (t : Table) : Nat := t.bytes.at8 25

/-- The offset of the records that the header gives. -/
def recordsAt (t : Table) : Nat := t.bytes.at32 28

/-- The offset of the table that the header gives. -/
def tableAt (t : Table) : Nat := t.bytes.at32 32

/-- The class of a byte. -/
def byteClass (t : Table) (c : UInt8) : Nat := t.bytes.at8 (classOffset + c.toNat)

/-- The table entry with a number. -/
def entry (t : Table) (i : Nat) : Nat :=
  if t.width = 1 then t.bytes.at8 (t.tableAt + i) else t.bytes.at16 (t.tableAt + 2 * i)

/-- The successor of a state for a class. -/
def step (t : Table) (s cls : Nat) : Nat := t.entry (s <<< t.shift + cls)

/-- When a state accepts. -/
def accept (t : Table) (s : Nat) : AcceptFlags :=
  ⟨(t.bytes.at8 (t.recordsAt + recordSize * s)).toUInt8⟩

end Table

namespace Direction

/-- The number of a direction in the header of a block. -/
def code : Direction → Nat
  | forward => 0
  | reverse => 1

end Direction

/-! ## Writing -/

namespace Dfa

/-- The shape of a block: its counts, and where its parts are. -/
structure Shape where
  states : Nat
  classes : Nat
  shift : Nat
  width : Nat

namespace Shape

/-- The offset of the table. -/
def tableAt (s : Shape) : Nat := Table.tableOffset s.states

/-- The size of the block. -/
def size (s : Shape) : Nat := Table.blockSize s.states s.shift s.width

end Shape

/-- The shape of the block of an automaton. Entries of one byte can number at
most 256 states. -/
def shape (d : Dfa) (allowNarrow : Bool) : Shape :=
  { states := d.size
    classes := d.alphaSize
    shift := Table.rowShift d.alphaSize
    width := if d.size ≤ 256 ∧ allowNarrow then 1 else 2 }

/-- The header of a block, in front of the classes of the bytes. -/
def header (d : Dfa) (s : Shape) : List UInt8 :=
  word32 Table.magic ++ word32 s.size ++ word16 s.states ++ word16 d.alphaSize
    ++ word16 d.startOther ++ word16 d.startWord ++ word16 0
    ++ word16 d.startClass ++ word16 d.endClass
    ++ [s.width.toUInt8, s.shift.toUInt8, d.direction.code.toUInt8,
      if d.wordSensitive then Table.wordFlag.toUInt8 else 0, 0, 0]
    ++ word32 Table.recordOffset ++ word32 s.tableAt

/-- A byte of the record of a state: the flags, a gap, and the priority. -/
def recordByte (st : State) (i : Nat) : UInt8 :=
  if i = 0 then st.accept.bits
  else if i < 4 then 0
  else (st.priority >>> (8 * (i - 4))).toUInt8

/-- A byte of the table. Entries behind the classes of a row are 0. -/
def tableByte (d : Dfa) (s : Shape) (i : Nat) : UInt8 :=
  let entry := i / s.width
  let row := entry >>> s.shift
  let cls := entry % 1 <<< s.shift
  if cls < s.classes then (d.step row cls >>> (8 * (i % s.width))).toUInt8 else 0

/-- The byte of the block at an offset. -/
def blockByte (d : Dfa) (s : Shape) (header : Bytes) (i : Nat) : UInt8 :=
  if i < Table.classOffset then header.getD i 0
  else if i < Table.headerSize then (d.classOf (i - Table.classOffset)).toUInt8
  else if i < Table.recordOffset then 0
  else if i < Table.recordOffset + Table.recordSize * s.states then
    recordByte (d.state ((i - Table.recordOffset) / Table.recordSize))
      ((i - Table.recordOffset) % Table.recordSize)
  else if i < s.tableAt then 0
  else d.tableByte s (i - s.tableAt)

/-- The reason that is given when a number does not fit its place in a block. -/
def misfit : Error := .resource "Value does not fit the compiled table."

/-- Every number of the automaton fits its place in a block. -/
def fits (d : Dfa) (s : Shape) : Bool :=
  decide (s.states < 0x10000) && decide (s.size ≤ maxWord)
    && (List.range 256).all fun c => decide (d.classOf c < 0x100)

/-- The block of an automaton. -/
def encode (d : Dfa) (allowNarrow : Bool) : Except Error Table :=
  let s := d.shape allowNarrow
  if d.fits s then
    let header := (d.header s).toArray
    .ok ⟨Array.ofFn fun i : Fin s.size => d.blockByte s header i⟩
  else .error misfit

/-! ## Limits -/

/-- The most states that any block can hold. -/
def maxStates : Nat := 65535

/-- The most states that an automaton with `classes` classes may have. -/
def stateLimit (maxDfaStates maxTransitions classes : Nat) : Nat :=
  min (min maxDfaStates maxStates) (maxTransitions / classes)

end Dfa

/-- A signed number fits a word of so many bits without a sign. -/
def fitsWord (bits : Nat) (n : Int) : Bool := decide (0 ≤ n) && decide (n < Int.ofNat (1 <<< bits))

/-- A signed number as a word, if it fits. -/
def narrow (bits : Nat) (n : Int) : Except Error Nat :=
  if fitsWord bits n then .ok n.toNat else .error Dfa.misfit

end ByteRegex
