-- Checking that a block of bytes is an encoded automaton that can be run
-- without leaving the block.
import ByteRegex.Table

namespace ByteRegex

/-- What can be wrong with a stored database. -/
inductive LoadFault where
  | truncatedDatabase
  | notADatabase
  | wrongVersion
  | badDatabaseHeader
  | truncatedTable
  | badHeader
  | wrongDirection
  | badAlphabet
  | badWidth
  | badStateCount
  | badTableSize
  | badLayout
  | badStart
  | badByteClass
  | badTransition
  | badDeadState
deriving DecidableEq

def LoadFault.message : LoadFault → String
  | truncatedDatabase => "Truncated database."
  | notADatabase => "Not a compiled database."
  | wrongVersion => "Database version mismatch."
  | badDatabaseHeader => "Invalid database header."
  | truncatedTable => "Truncated DFA."
  | badHeader => "Invalid DFA header."
  | wrongDirection => "DFA direction mismatch."
  | badAlphabet => "Invalid DFA alphabet."
  | badWidth => "Invalid DFA table width."
  | badStateCount => "Invalid DFA state count."
  | badTableSize => "Invalid DFA table size."
  | badLayout => "Invalid DFA layout."
  | badStart => "Invalid DFA start state."
  | badByteClass => "Invalid DFA byte remap."
  | badTransition => "Invalid DFA transition."
  | badDeadState => "Invalid DFA dead state."

def LoadFault.toError (f : LoadFault) : Error := .malformed f.message none

namespace Table

/-- The header gives the size of the block. -/
def headerOk (t : Table) : Bool :=
  decide (headerSize ≤ t.bytes.size) && t.magicWord == magic && t.length == t.bytes.size

/-- There are byte classes, and the ends of the text follow them. -/
def alphabetOk (t : Table) : Bool :=
  decide (specialCount < t.alphaSize) && decide (t.alphaSize ≤ symbolCount)
    && t.startClass + 2 == t.alphaSize && t.endClass + 1 == t.alphaSize

def widthOk (t : Table) : Bool := t.width == 1 || t.width == 2

/-- Entries can number all states, of which there is at least one. -/
def stateCountOk (t : Table) : Bool :=
  t.stateCount != 0 && (t.width != 1 || decide (t.stateCount ≤ 256)) && t.deadState == 0

def tableSizeOk (t : Table) : Bool :=
  t.shift == rowShift t.alphaSize && t.length == blockSize t.stateCount t.shift t.width

/-- The records lie behind the header, and the table behind them up to the end
of the block. -/
def layoutOk (t : Table) : Bool :=
  decide (headerSize ≤ t.recordsAt) && t.recordsAt % 4 == 0
    && decide (t.recordsAt + recordSize * t.stateCount ≤ t.tableAt) && t.tableAt % 2 == 0
    && t.tableAt + (t.width * t.stateCount) <<< t.shift == t.length

def startOk (t : Table) : Bool :=
  decide (t.startOther < t.stateCount) && decide (t.startWord < t.stateCount)

def byteClassOk (t : Table) : Bool :=
  allBytes.all fun c => decide (t.byteClass c < t.alphaSize - specialCount)

/-- Every entry names a state, and nothing leads out of the dead state. -/
def transitionsOk (t : Table) : Bool :=
  (List.range t.stateCount).all fun s => (List.range t.alphaSize).all fun cls =>
    decide (t.step s cls < t.stateCount) && (s != 0 || t.step s cls == 0)

def deadStateOk (t : Table) : Bool := !(t.accept 0).any

/-- The first check that a block fails. -/
def fault? (t : Table) (direction : Direction) : Option LoadFault :=
  if !t.headerOk then some .badHeader
  else if t.directionByte != direction.code then some .wrongDirection
  else if !t.alphabetOk then some .badAlphabet
  else if !t.widthOk then some .badWidth
  else if !t.stateCountOk then some .badStateCount
  else if !t.tableSizeOk then some .badTableSize
  else if !t.layoutOk then some .badLayout
  else if !t.startOk then some .badStart
  else if !t.byteClassOk then some .badByteClass
  else if !t.transitionsOk then some .badTransition
  else if !t.deadStateOk then some .badDeadState
  else none

/-- The automaton in a block of bytes. -/
def load (bytes : Bytes) (direction : Direction) : Except LoadFault Table :=
  if bytes.size < headerSize then .error .truncatedTable
  else
    match fault? ⟨bytes⟩ direction with
    | some f => .error f
    | none => .ok ⟨bytes⟩

end Table

end ByteRegex
