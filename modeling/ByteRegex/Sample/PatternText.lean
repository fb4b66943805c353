-- Random patterns as text. No quantifier is put behind what may match the
-- empty string.
import ByteRegex.Draws

namespace ByteRegex.Sample

/-- A piece of a pattern. `nullable` is set if it may match without consuming a
byte. -/
structure Piece where
  text : String
  nullable : Bool
deriving DecidableEq

namespace Piece

/-- Items that consume something. -/
def consumingItems : List String :=
  ["a", "b", "c", "ab", "é", "€", "😀", "[a-c]", "[^a]", "\\w", "\\d", ".", "\\C", "\\xff", " "]

/-- Items that only look at the text. -/
def emptyItems : List String := ["^", "$", "\\b", "\\B"]

/-- A quantifier, and whether what it makes may match the empty string. -/
def quantifiers : List (String × Bool) :=
  [("*", true), ("+", false), ("?", true), ("\x7b2\x7d", false), ("\x7b0,2\x7d", true),
    ("\x7b1,3\x7d", false), ("\x7b2,\x7d", false)]

/-- A choice that may fail to come to an end. -/
abbrev Gen (α : Type) := StateT Draws Option α

/-- A draw as a choice that ends. -/
def draw {α : Type} (d : Draw α) : Gen α := fun s => some (d s)

/-- A group around a piece. -/
def grouped (capturing : Bool) (inner : Piece) : Piece :=
  ⟨(if capturing then "(" else "(?:") ++ inner.text ++ ")", inner.nullable⟩

/-- One item: rarely one that only looks, and rarely a group, if any may be
made. -/
def item (group : Option (Gen Piece)) : Gen Piece := do
  let roll ← draw (Draws.between 0 9)
  if roll = 0 then return ⟨← draw (Draws.pick "" emptyItems), true⟩
  else
    match roll, group with
    | 1, some inner =>
      let content ← inner
      let capturing ← draw (Draws.between 0 1)
      return grouped (capturing != 0) content
    | _, _ => return ⟨← draw (Draws.pick "" consumingItems), false⟩

/-- May put a quantifier behind an item that consumes something. -/
def quantify (p : Piece) : Gen Piece := do
  if p.nullable then return p
  else if (← draw (Draws.between 0 2)) ≠ 0 then return p
  else
    let (q, nullable) ← draw (Draws.pick ("", false) quantifiers)
    let lazyMark := if (← draw (Draws.between 0 3)) = 0 then "?" else ""
    return ⟨p.text ++ q ++ lazyMark, nullable⟩

/-- Adds so many items. -/
def items (group : Option (Gen Piece)) : Nat → Piece → Gen Piece
  | 0, acc => pure acc
  | n + 1, acc => do
    let p ← quantify (← item group)
    items group n ⟨acc.text ++ p.text, acc.nullable && p.nullable⟩

/-- From one to four items. -/
def sequence (group : Option (Gen Piece)) : Gen Piece := do
  let n ← draw (Draws.between 1 4)
  items group n ⟨"", true⟩

/-- May add further branches, at most so many. -/
def branches (group : Option (Gen Piece)) : Nat → Piece → Gen Piece
  | 0, _ => failure
  | n + 1, acc => do
    if (← draw (Draws.between 0 3)) ≠ 0 then return acc
    else
      let p ← sequence group
      branches group n ⟨acc.text ++ "|" ++ p.text, acc.nullable || p.nullable⟩

/-- One or more branches. If there are more branches than numbers in the
script, the draws come round to where they have been, and there is no end. -/
def alternationOf (group : Option (Gen Piece)) : Gen Piece := do
  let first ← sequence group
  branches group ((← get).script.size + 1) first

/-- A pattern with groups nested at most so deep. -/
def alternation : Nat → Gen Piece
  | 0 => alternationOf none
  | depth + 1 => alternationOf (some (alternation depth))

end Piece

/-- The text of a random pattern, if its making comes to an end. -/
def patternText (depth : Nat) : Piece.Gen String := do return (← Piece.alternation depth).text

/-- The bytes of a text in UTF-8. -/
def utf8Bytes (s : String) : Bytes := s.toUTF8.data

end ByteRegex.Sample
