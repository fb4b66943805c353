-- Reading a pattern with a guard on every read. The scanners here go over the text by
-- offsets, ahead and back as they need it. There is no result where an offset lies outside
-- the text, or where a loop takes more turns than the text has bytes.
import ByteRegex.Pattern.Parser

namespace ByteRegex.Pattern

/-- A reader that keeps its offset in the text, and may be stuck. -/
abbrev Scanner (α : Type) := StateT Nat (ExceptT SyntaxError Option) α

namespace Scanner

variable {α β : Type} (text : Bytes)

/-! ## Guarded reads -/

/-- No result. -/
def stuck : Scanner α := fun _ => none

/-- An error at the offset. -/
def fail (f : SyntaxFault) : Scanner α := fun pos => some (.error ⟨f, pos⟩)

/-- The byte at any offset that lies in the text. -/
def byteAt (i : Nat) : Scanner UInt8 := fun pos => text[i]?.map fun b => .ok (b, pos)

/-- The byte so many places behind the offset. -/
def byteBehind (n : Nat) : Scanner UInt8 := do
  let pos ← get
  if n ≤ pos then byteAt text (pos - n) else stuck

def peek : Scanner UInt8 := do byteAt text (← get)

def atEnd : Scanner Bool := return decide (text.size ≤ (← get))

def advance (n : Nat) : Scanner Unit := modify (· + n)

/-- Goes back, but not before the start. -/
def back (n : Nat) : Scanner Unit := do
  let pos ← get
  if n ≤ pos then set (pos - n) else stuck

/-- Passes over a character if it is the next one. -/
def consume (ch : Char) : Scanner Bool := do
  if ← atEnd text then return false
  else if byteChar (← peek text) = ch then
    advance 1
    return true
  else return false

/-- Passes over several characters if they are the next ones. The offset must not lie
behind the end. -/
def consumeText (s : List Char) : Scanner Bool := do
  let pos ← get
  if text.size < pos then stuck
  else if (text.toList.drop pos |>.take s.length).map byteChar = s then
    advance s.length
    return true
  else return false

/-- Passes over the first of several texts that is next. -/
def consumeAny : List (List Char) → Scanner Bool
  | [] => return false
  | s :: ss => do
    if ← consumeText text s then return true
    else consumeAny ss

/-! ## Guarded numbers -/

/-- Reads hexadecimal digits, in at most so many turns. -/
def hexDigits : Nat → Nat → Scanner Nat
  | 0, _ => stuck
  | turns + 1, value => do
    if ← atEnd text then return value
    else
      match hexValue? (← peek text) with
      | none => return value
      | some d =>
        if maxCodePoint < value * 16 + d then fail .codePointTooLarge
        else
          advance 1
          hexDigits turns (value * 16 + d)

/-- Reads the number of a code point and the brace behind it. -/
def bracedCodePoint : Scanner Nat := do
  let start ← get
  let value ← hexDigits text (text.size + 1) 0
  if start = (← get) then fail .malformedCodePoint
  else if ← consume text '\x7d' then return value
  else fail .malformedCodePoint

/-- Reads two hexadecimal digits. -/
def hexPair : Scanner Nat := do
  let pos ← get
  if text.size < pos + 2 then fail .malformedByte
  else
    match hexValue? (← byteAt text pos) with
    | none => fail .malformedByte
    | some m =>
      match hexValue? (← byteAt text (pos + 1)) with
      | none => fail .malformedByte
      | some n =>
        advance 2
        return m * 16 + n

/-- The next byte is a digit. -/
def seesDigit : Scanner Bool := do
  if ← atEnd text then return false
  else return isDigitByte (← peek text)

/-- Reads decimal digits, in at most so many turns. -/
def decimalDigits : Nat → Nat → Scanner Nat
  | 0, _ => stuck
  | turns + 1, value => do
    if ← seesDigit text then
      let b ← peek text
      if maxWord ≤ value * 10 + (b.toNat - 0x30) then fail .numberTooLarge
      else
        advance 1
        decimalDigits turns (value * 10 + (b.toNat - 0x30))
    else return value

/-- Reads a decimal number. -/
def bound : Scanner Nat := do
  if ← seesDigit text then decimalDigits text (text.size + 1) 0
  else fail .expectedNumber

/-! ## Guarded code points -/

/-- Adds up the bytes behind a lead byte, from offset `i` on. The offset of the scanner
stays at the lead byte. -/
def tailBytes : Nat → Nat → Nat → Scanner Nat
  | 0, _, value => return value
  | n + 1, i, value => do
    match Utf8.tail? (← byteAt text i) with
    | none => fail .invalidUtf8
    | some bits => tailBytes n (i + 1) (value * 0x40 + bits)

/-- Reads one UTF-8 sequence. -/
def rawCodePoint : Scanner Nat := do
  match Utf8.lead? (← peek text) with
  | none => fail .invalidUtf8
  | some (n, bits) =>
    let pos ← get
    if text.size < pos + (n + 1) then fail .truncatedUtf8
    else
      let value ← tailBytes text n (pos + 1) bits
      advance (n + 1)
      return value

/-- Reads one code point, plain or escaped. Behind a backslash a longer sequence is read
from its lead byte again. -/
def codePoint : Scanner Nat := do
  if ← consume text '\\' then
    if ← atEnd text then fail .trailingBackslash
    else
      let e ← peek text
      advance 1
      match control? (byteChar e) with
      | some n => return n
      | none =>
        if byteChar e = 'x' then
          if ← consume text '\x7b' then bracedCodePoint text else hexPair text
        else if e < 0x80 then return e.toNat
        else
          back 1
          rawCodePoint text
  else rawCodePoint text

/-! ## Guarded brackets -/

/-- The ranges that the next two bytes name. -/
def shorthandAhead : Scanner (Option (List (Nat × Nat))) := do
  let pos ← get
  if byteChar (← peek text) = '\\' then
    if pos + 1 < text.size then return shorthand? (byteChar (← byteAt text (pos + 1)))
    else return none
  else return none

/-- A dash is next, and no closing bracket behind it. -/
def dashAhead : Scanner Bool := do
  let pos ← get
  if pos + 1 < text.size then
    if byteChar (← peek text) = '-' then
      return decide (byteChar (← byteAt text (pos + 1)) ≠ ']')
    else return false
  else return false

/-- Reads one item of a bracket. -/
def bracketItem : Scanner (List (Nat × Nat)) := do
  match ← shorthandAhead text with
  | some ranges =>
    advance 2
    return ranges
  | none =>
    let lo ← codePoint text
    if ← dashAhead text then
      advance 1
      let hi ← codePoint text
      return [(lo, hi)]
    else return [(lo, lo)]

/-- Reads a bracket up to its end, in at most so many turns. -/
def bracketRanges : Nat → Bool → List (Nat × Nat) → Scanner (List (Nat × Nat))
  | 0, _, _ => stuck
  | turns + 1, first, ranges => do
    if ← atEnd text then fail .unterminatedClass
    else if byteChar (← peek text) = ']' ∧ first = false then
      advance 1
      return ranges
    else
      let new ← bracketItem text
      bracketRanges turns false (ranges ++ new)

/-- Reads a bracket behind its opening byte. -/
def bracket (loc : Location) : Scanner Token := do
  let negated ← consume text '^'
  let ranges ← bracketRanges text (text.size + 1) true []
  return .leaf (.chars loc ranges negated)

/-! ## Guarded tokens -/

/-- Reads the bounds of a repeat behind their opening brace. -/
def bracedBounds : Scanner (Nat × Option Nat) := do
  let min ← bound text
  if ← consume text ',' then
    if ← consume text '\x7d' then return (min, none)
    else
      let max ← bound text
      if ← consume text '\x7d' then return (min, some max) else fail .unterminatedRepeat
  else if ← consume text '\x7d' then return (min, some min)
  else fail .unterminatedRepeat

/-- Reads the bounds of a repeat, if a quantifier starts here. A brace without a digit
behind it is put back. -/
def bounds : Scanner (Option (Nat × Option Nat)) := do
  if ← consume text '*' then return some (0, none)
  else if ← consume text '+' then return some (1, none)
  else if ← consume text '?' then return some (0, some 1)
  else if ← consume text '\x7b' then
    if ← seesDigit text then return some (← bracedBounds text)
    else
      back 1
      return none
  else return none

/-- Reads what stands behind a backslash. What stands for itself is read again with the
backslash. -/
def escapedToken (loc : Location) : Scanner Token := do
  if ← atEnd text then fail .trailingBackslash
  else
    let e ← peek text
    advance 1
    match escapedNode? loc (byteChar e) with
    | some p => return .leaf p
    | none =>
      if byteChar e = 'x' then
        if ← consume text '\x7b' then
          let n ← bracedCodePoint text
          return .leaf (.chars loc [(n, n)] false)
        else
          let n ← hexPair text
          return .leaf (.bytes loc [(n.toUInt8, n.toUInt8)])
      else
        back 2
        let n ← codePoint text
        return .leaf (.chars loc [(n, n)] false)

/-- The marks of the looks. -/
def lookMarks : List (List Char) := [['?', '='], ['?', '!'], ['?', '<', '='], ['?', '<', '!']]

/-- The kind of the look whose mark was passed over. The last two bytes of the mark tell it. -/
def lookToken : Scanner Token := do
  let arrow ← byteBehind text 2
  let sign ← byteBehind text 1
  return .opening (.around (decide (byteChar arrow = '<')) (decide (byteChar sign = '!')))

/-- Reads the kind of a group behind its opening parenthesis. -/
def groupToken : Scanner Token := do
  if ← consumeText text ['?', ':'] then return .opening .plain
  else if ← consumeAny text lookMarks then lookToken text
  else if ← atEnd text then return .opening .plain
  else if byteChar (← peek text) = '?' then fail .unknownGroup
  else return .opening .plain

/-- Reads a token where no quantifier may stand. -/
def itemToken : Scanner Token := do
  let pos ← get
  let loc := some pos
  match byteChar (← peek text) with
  | '|' =>
    advance 1
    return .bar
  | ')' =>
    advance 1
    return .closing
  | '(' =>
    advance 1
    groupToken text
  | '[' =>
    advance 1
    bracket text loc
  | '.' =>
    advance 1
    return .leaf (.chars loc [(0, maxCodePoint)] false)
  | '^' =>
    advance 1
    return .leaf (.anchor loc false)
  | '$' =>
    advance 1
    return .leaf (.anchor loc true)
  | '\\' =>
    advance 1
    escapedToken text loc
  | '*' => fail .nothingToRepeat
  | '+' => fail .nothingToRepeat
  | '?' => fail .nothingToRepeat
  | _ =>
    let n ← codePoint text
    return .leaf (.chars loc [(n, n)] false)

/-- Reads one token. -/
def token (behindItem : Bool) : Scanner Token := do
  match ← (if behindItem then bounds text else return none) with
  | some (min, max) =>
    let lazy ← consume text '?'
    return .quantifier min max !lazy
  | none => itemToken text

/-- Takes in the rest of the text, in at most so many turns. -/
def run : Nat → ParseState → Scanner Pattern
  | 0, _ => stuck
  | turns + 1, s => do
    if ← atEnd text then
      match s.groups with
      | [] => return s.level.node
      | _ :: _ => fail .missingParenthesis
    else
      let pos ← get
      let t ← token text (!s.level.items.isEmpty)
      match s.step pos t (← get) with
      | .error e => throw e
      | .ok s' => run turns s'

end Scanner

/-- Reads the text of a pattern, with a guard on every read. -/
def parse? (text : Bytes) : Option (Except SyntaxError Pattern) :=
  match Scanner.run text (text.size + 1) ⟨.begin 0, []⟩ 0 with
  | none => none
  | some (.error e) => some (.error e)
  | some (.ok (p, _)) => some (.ok p)

end ByteRegex.Pattern
