-- How a pattern is written. Which trees have a text is said by a grammar of
-- items and bodies; places in the text are no part of it.
import ByteRegex.Pattern.Parser

namespace ByteRegex

/-! ## Text -/

/-- The bytes of a text in ASCII. -/
def ascii (cs : List Char) : List UInt8 := cs.map fun c => c.toNat.toUInt8

/-- A number in hexadecimal. -/
def hexNumeral (n : Nat) : List UInt8 := ascii (Nat.toDigits 16 n)

/-- A number in decimal. -/
def decimalNumeral (n : Nat) : List UInt8 := ascii (Nat.toDigits 10 n)

/-- A byte as two hexadecimal digits. -/
def hexDigits (b : UInt8) : List UInt8 :=
  ascii [Nat.digitChar (b.toNat / 16), Nat.digitChar (b.toNat % 16)]

namespace Pattern

/-- A code point by its number: `\x{e9}`. -/
def codePointText (c : Nat) : List UInt8 :=
  ascii ['\\', 'x', '\x7b'] ++ hexNumeral c ++ ascii ['\x7d']

/-- A range of code points inside brackets. -/
def rangeText (r : Nat × Nat) : List UInt8 :=
  codePointText r.1 ++ ascii ['-'] ++ codePointText r.2

/-- A class in brackets. -/
def classText (ranges : List (Nat × Nat)) (negated : Bool) : List UInt8 :=
  ascii ['['] ++ (if negated then ascii ['^'] else []) ++ ranges.flatMap rangeText ++ ascii [']']

/-- A raw byte by its number, or any byte. No other byte node has a text. -/
def bytesText : List (UInt8 × UInt8) → List UInt8
  | [(lo, hi)] => if lo = hi then ascii ['\\', 'x'] ++ hexDigits lo else ascii ['\\', 'C']
  | _ => []

/-- The bounds of a repeat: `{2,}` or `{2,5}`, and a question mark if it is lazy. -/
def boundsText (min : Nat) (max : Option Nat) (greedy : Bool) : List UInt8 :=
  ascii ['\x7b'] ++ decimalNumeral min ++ ascii [','] ++ (max.map decimalNumeral).getD []
    ++ ascii ['\x7d'] ++ (if greedy then [] else ascii ['?'])

/-- How a group is opened. -/
def Group.opening : Group → List UInt8
  | plain => ascii ['(', '?', ':']
  | around false false => ascii ['(', '?', '=']
  | around false true => ascii ['(', '?', '!']
  | around true false => ascii ['(', '?', '<', '=']
  | around true true => ascii ['(', '?', '<', '!']

/-- A text in a group of its own. -/
def Group.text (g : Group) (content : List UInt8) : List UInt8 :=
  g.opening ++ content ++ ascii [')']

mutual

/-- The text of a pattern as one item. A sequence or an alternation stands in a group then. -/
def itemText : Pattern → List UInt8
  | chars _ ranges negated => classText ranges negated
  | bytes _ ranges => bytesText ranges
  | seq _ parts => Group.plain.text (itemTexts parts)
  | alt _ parts => Group.plain.text (branchTexts parts)
  | rep _ body min max greedy => itemText body ++ boundsText min max greedy
  | anchor _ atEnd => ascii [if atEnd then '$' else '^']
  | wordEdge _ negated => ascii ['\\', if negated then 'B' else 'b']
  | empty _ => []
  | backref _ group => ascii ['\\'] ++ decimalNumeral group
  | around _ body behind negated => (Group.around behind negated).text (bodyText body)

/-- Items one after another. -/
def itemTexts : List Pattern → List UInt8
  | [] => []
  | p :: ps => itemText p ++ itemTexts ps

/-- The text of a branch. -/
def branchText : Pattern → List UInt8
  | seq _ parts => itemTexts parts
  | _ => []

/-- Branches with bars between them. -/
def branchTexts : List Pattern → List UInt8
  | [] => []
  | p :: ps => branchText p ++ (if ps.isEmpty then [] else ascii ['|'] ++ branchTexts ps)

/-- What stands in a look around. -/
def bodyText : Option Pattern → List UInt8
  | some (seq _ parts) => itemTexts parts
  | some (alt _ parts) => branchTexts parts
  | some p => itemText p
  | none => []

end

/-- The text of a pattern. -/
def text (p : Pattern) : List UInt8 := bodyText (some p)

mutual

/-- The pattern without the places of its nodes. -/
def unplaced : Pattern → Pattern
  | chars _ ranges negated => .chars none ranges negated
  | bytes _ ranges => .bytes none ranges
  | seq _ parts => .seq none (unplacedList parts)
  | alt _ parts => .alt none (unplacedList parts)
  | rep _ body min max greedy => .rep none body.unplaced min max greedy
  | anchor _ atEnd => .anchor none atEnd
  | wordEdge _ negated => .wordEdge none negated
  | empty _ => .empty none
  | backref _ group => .backref none group
  | around _ body behind negated => .around none (unplacedOption body) behind negated

def unplacedList : List Pattern → List Pattern
  | [] => []
  | p :: ps => p.unplaced :: unplacedList ps

def unplacedOption : Option Pattern → Option Pattern
  | none => none
  | some p => some p.unplaced

end

mutual

/-- The items of a branch: an atom, or a repeat of an item. -/
inductive IsItem : Pattern → Prop
  | chars {loc : Location} {ranges : List (Nat × Nat)} {negated : Bool} : ranges ≠ [] →
      (∀ r ∈ ranges, r.1 ≤ maxCodePoint ∧ r.2 ≤ maxCodePoint) → IsItem (.chars loc ranges negated)
  | byte {loc : Location} {b : UInt8} : IsItem (.bytes loc [(b, b)])
  | anyByte {loc : Location} : IsItem (.bytes loc [(0x00, 0xff)])
  | anchor {loc : Location} {atEnd : Bool} : IsItem (.anchor loc atEnd)
  | wordEdge {loc : Location} {negated : Bool} : IsItem (.wordEdge loc negated)
  | backref {loc : Location} {group : Nat} : 1 ≤ group → group ≤ 9 → IsItem (.backref loc group)
  | around {loc : Location} {body : Pattern} {behind negated : Bool} : IsBody body →
      IsItem (.around loc (some body) behind negated)
  | group {body : Pattern} : IsBody body → IsItem body
  | rep {loc : Location} {body : Pattern} {min : Nat} {max : Option Nat} {greedy : Bool} :
      IsItem body → min < maxWord → (∀ m, max = some m → m < maxWord) →
      IsItem (.rep loc body min max greedy)

/-- What a text stands for: one branch, or two branches at least. A branch is a sequence of
items. -/
inductive IsBody : Pattern → Prop
  | seq {loc : Location} {parts : List Pattern} : (∀ p ∈ parts, IsItem p) → IsBody (.seq loc parts)
  | alt {loc : Location} {branches : List (Location × List Pattern)} : 2 ≤ branches.length →
      (∀ b ∈ branches, ∀ p ∈ b.2, IsItem p) →
      IsBody (.alt loc (branches.map fun b => .seq b.1 b.2))

end

end Pattern

end ByteRegex
