-- Running an encoded automaton over a text. A forward scan finds where a match
-- ends, a reverse scan where a match with a known end starts.
import ByteRegex.Table

namespace ByteRegex.Table

/-! ## Forward -/

/-- The state before the byte at `start`. -/
def forwardStart (t : Table) (data : Bytes) (start : Nat) : Nat :=
  if start = 0 then t.step t.startOther t.startClass
  else if isWordByte (data.getD (start - 1) 0) then t.startWord
  else t.startOther

/-- Scans from state `s` at offset `i`. `found` is the last end met so far. A
shortest scan stops at the first end, and nothing follows the dead state. -/
def forwardFrom (t : Table) (data : Bytes) (shortest : Bool) (s i : Nat) (found : Option Nat) :
    Option Nat :=
  if s = 0 then found
  else if h : i < data.size then
    let c := data[i]
    let here := (t.accept s).before c
    if here && shortest then some i
    else
      forwardFrom t data shortest (t.step s (t.byteClass c)) (i + 1)
        (if here then some i else found)
  else if (t.accept (t.step s t.endClass)).any then some data.size
  else found
termination_by data.size - i

/-- The end of a match that starts at or behind `start`: the first end that is
met or, if not `shortest`, the last. -/
def scanForward (t : Table) (data : Bytes) (start : Nat) (shortest : Bool) : Option Nat :=
  forwardFrom t data shortest (t.forwardStart data start) start none

/-! ## Reverse -/

/-- The state behind the byte at `hi - 1`. -/
def reverseStart (t : Table) (data : Bytes) (hi : Nat) : Nat :=
  if hi = data.size then t.step t.startOther t.startClass
  else if isWordByte (data.getD hi 0) then t.startWord
  else t.startOther

/-- The state accepts before the scan leaves the text at `lo`. -/
def acceptsAtLow (t : Table) (data : Bytes) (lo s : Nat) : Bool :=
  if lo = 0 then (t.accept (t.step s t.endClass)).any
  else (t.accept s).before (data.getD (lo - 1) 0)

/-- Scans back from state `s`, with `n` bytes left above `lo`. `found` is the
last start met so far. -/
def reverseFrom (t : Table) (data : Bytes) (lo : Nat) : Nat → Nat → Option Nat → Option Nat
  | 0, s, found =>
    if s = 0 then found else if t.acceptsAtLow data lo s then some lo else found
  | n + 1, s, found =>
    if s = 0 then found
    else
      let c := data.getD (lo + n) 0
      reverseFrom t data lo n (t.step s (t.byteClass c))
        (if (t.accept s).before c then some (lo + n + 1) else found)

/-- The least start at or behind `lo` of a match that ends at `hi`. -/
def scanReverse (t : Table) (data : Bytes) (lo hi : Nat) : Option Nat :=
  reverseFrom t data lo (hi - lo) (t.reverseStart data hi) none

end ByteRegex.Table
