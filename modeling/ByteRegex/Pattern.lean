-- The syntax tree of a pattern: its nodes in order, whether it can match the
-- empty string, and what is wrong with it before any automaton is built.
import ByteRegex.ByteSet
import ByteRegex.CodePointSet
import ByteRegex.Error

namespace ByteRegex

/-- A pattern. Nothing about it is checked when it is made: ranges may be the
wrong way round, and it may hold constructs that no automaton can match. -/
inductive Pattern where
  /-- One code point in UTF-8, from the ranges or, if negated, outside them. -/
  | chars (loc : Location) (ranges : List (Nat × Nat)) (negated : Bool)
  /-- One raw byte from the ranges. -/
  | bytes (loc : Location) (ranges : List (UInt8 × UInt8))
  /-- The parts one after another. -/
  | seq (loc : Location) (parts : List Pattern)
  /-- One of the parts, the earlier the better. -/
  | alt (loc : Location) (parts : List Pattern)
  /-- The body at least `min` times and at most `max` times, if there is a
  maximum. A greedy repeat would rather go on, a lazy one rather stop. -/
  | rep (loc : Location) (body : Pattern) (min : Nat) (max : Option Nat) (greedy : Bool)
  /-- Holds at the start of the text, or at its end. -/
  | anchor (loc : Location) (atEnd : Bool)
  /-- Holds where a word starts or ends or, if negated, where none does. -/
  | wordEdge (loc : Location) (negated : Bool)
  /-- Matches the empty string. -/
  | empty (loc : Location)
  /-- What a group matched before. -/
  | backref (loc : Location) (group : Nat)
  /-- Holds where the body matches ahead of the place or behind it or, if
  negated, where it does not. -/
  | around (loc : Location) (body : Option Pattern) (behind negated : Bool)

namespace Pattern

def loc : Pattern → Location
  | chars loc _ _ => loc
  | bytes loc _ => loc
  | seq loc _ => loc
  | alt loc _ => loc
  | rep loc _ _ _ _ => loc
  | anchor loc _ => loc
  | wordEdge loc _ => loc
  | empty loc => loc
  | backref loc _ => loc
  | around loc _ _ _ => loc

/-- A location given as a word. The greatest word stands for none. -/
def locationOfWord (n : Nat) : Location := if n = maxWord then none else some n

/-- The maximum of a repeat given as a word. The greatest word stands for none. -/
def maxOfWord (n : Nat) : Option Nat := if n = maxWord then none else some n

/-! ## The empty string -/

mutual

/-- The pattern may match without consuming a byte. All that only looks at its
surroundings counts. -/
def nullable : Pattern → Bool
  | chars _ _ _ => false
  | bytes _ _ => false
  | seq _ parts => allNullable parts
  | alt _ parts => anyNullable parts
  | rep _ body min _ _ => min == 0 || body.nullable
  | anchor _ _ => true
  | wordEdge _ _ => true
  | empty _ => true
  | backref _ _ => true
  | around _ _ _ _ => true

def allNullable : List Pattern → Bool
  | [] => true
  | p :: ps => p.nullable && allNullable ps

def anyNullable : List Pattern → Bool
  | [] => false
  | p :: ps => p.nullable || anyNullable ps

end

theorem allNullable_eq_all (ps : List Pattern) : allNullable ps = ps.all nullable := by
  induction ps with
  | nil => simp [allNullable]
  | cons p ps ih => simp [allNullable, ih]

theorem anyNullable_eq_any (ps : List Pattern) : anyNullable ps = ps.any nullable := by
  induction ps with
  | nil => simp [anyNullable]
  | cons p ps ih => simp [anyNullable, ih]

/-! ## The nodes in order -/

mutual

/-- Every node of the tree, each before its parts. -/
def nodes : Pattern → List Pattern
  | seq loc parts => seq loc parts :: nodesOfList parts
  | alt loc parts => alt loc parts :: nodesOfList parts
  | rep loc body min max greedy => rep loc body min max greedy :: body.nodes
  | around loc body behind negated => around loc body behind negated :: nodesOfOption body
  | p => [p]

def nodesOfList : List Pattern → List Pattern
  | [] => []
  | p :: ps => p.nodes ++ nodesOfList ps

def nodesOfOption : Option Pattern → List Pattern
  | none => []
  | some p => p.nodes

end

theorem nodesOfList_eq_flatMap (ps : List Pattern) : nodesOfList ps = ps.flatMap nodes := by
  induction ps with
  | nil => simp [nodesOfList]
  | cons p ps ih => simp [nodesOfList, ih]

/-! ## A walk over the tree -/

/-- The kinds of nodes. -/
inductive Kind where
  | chars | bytes | seq | alt | rep | anchor | wordEdge | empty | backref | around
deriving DecidableEq, Repr

/-- A step of a walk: into a node, past the place inside it, or out of it. -/
inductive Visit where
  | enter (kind : Kind)
  | inside (kind : Kind)
  | leave (kind : Kind)
deriving DecidableEq, Repr

/-- The walk over a node without parts. -/
def visitLeaf (k : Kind) : List Visit := [.enter k, .inside k, .leave k]

mutual

/-- The steps of a walk. It passes through a leaf once, and through a sequence
or an alternation between each two of its parts. -/
def visits : Pattern → List Visit
  | chars _ _ _ => visitLeaf .chars
  | bytes _ _ => visitLeaf .bytes
  | seq _ parts => .enter .seq :: visitsOfList .seq parts ++ [.leave .seq]
  | alt _ parts => .enter .alt :: visitsOfList .alt parts ++ [.leave .alt]
  | rep _ body _ _ _ => .enter .rep :: body.visits ++ [.leave .rep]
  | anchor _ _ => visitLeaf .anchor
  | wordEdge _ _ => visitLeaf .wordEdge
  | empty _ => visitLeaf .empty
  | backref _ _ => visitLeaf .backref
  | around _ body _ _ => .enter .around :: visitsOfOption body ++ [.leave .around]

def visitsOfList (k : Kind) : List Pattern → List Visit
  | [] => []
  | [p] => p.visits
  | p :: q :: ps => p.visits ++ .inside k :: visitsOfList k (q :: ps)

def visitsOfOption : Option Pattern → List Visit
  | none => []
  | some p => p.visits

end

/-! ## Ranges -/

/-- What can be wrong with a range or with the bounds of a repeat. -/
inductive RangeFault where
  | codePoints (lo hi : Nat)
  | bytes (lo hi : UInt8)
  | bounds (min max : Nat)
deriving DecidableEq

def RangeFault.message : RangeFault → String
  | codePoints lo hi =>
    "Invalid code point range U+" ++ hexUpper lo ++ "-U+" ++ hexUpper hi ++ "."
  | bytes lo hi => "Invalid byte range \\x" ++ hexByte lo ++ "-\\x" ++ hexByte hi ++ "."
  | bounds min max =>
    "Invalid repeat bounds \x7b" ++ toString min ++ "," ++ toString max ++ "\x7d."

def RangeFault.toError (f : RangeFault) (loc : Location) : Error := .invalidRange f.message loc

/-- The first range of code points that is inverted or goes too far. -/
def charRangeFault? (ranges : List (Nat × Nat)) : Option RangeFault :=
  (ranges.find? fun r => decide (r.2 < r.1) || decide (maxCodePoint < r.2)).map
    fun r => .codePoints r.1 r.2

/-- The first inverted range of bytes. -/
def byteRangeFault? (ranges : List (UInt8 × UInt8)) : Option RangeFault :=
  (ranges.find? fun r => decide (r.2 < r.1)).map fun r => .bytes r.1 r.2

/-- What is wrong with the ranges or the bounds of the node itself. -/
def rangeFault? : Pattern → Option RangeFault
  | chars _ ranges _ => charRangeFault? ranges
  | bytes _ ranges => byteRangeFault? ranges
  | rep _ _ min (some max) _ => if max < min then some (.bounds min max) else none
  | _ => none

/-- The code points that a class node matches, if its ranges are valid. -/
def charSet (ranges : List (Nat × Nat)) (negated : Bool) : CodePointSet :=
  let s := ranges.foldl (fun s r => s.insertRange r.1 r.2) CodePointSet.empty
  if negated then s.compl else s

/-- The bytes that a byte node matches, if its ranges are valid. -/
def byteSet (ranges : List (UInt8 × UInt8)) : ByteSet :=
  ranges.foldl (fun s r => s.insertRange r.1 r.2) ByteSet.empty

/-- The code points of a class node, or what is wrong with its ranges. -/
def charSet? (loc : Location) (ranges : List (Nat × Nat)) (negated : Bool) :
    Except Error CodePointSet :=
  match charRangeFault? ranges with
  | some f => .error (f.toError loc)
  | none => .ok (charSet ranges negated)

/-- The bytes of a byte node, or what is wrong with its ranges. -/
def byteSet? (loc : Location) (ranges : List (UInt8 × UInt8)) : Except Error ByteSet :=
  match byteRangeFault? ranges with
  | some f => .error (f.toError loc)
  | none => .ok (byteSet ranges)

/-- Fails for the first node whose ranges or bounds are invalid. -/
def checkRanges (p : Pattern) : Except Error Unit :=
  match p.nodes.findSome? fun n => n.rangeFault?.map (·.toError n.loc) with
  | some e => .error e
  | none => .ok ()

/-! ## Unsupported constructs -/

/-- The constructs that no automaton can match. -/
inductive Construct where
  | around (behind negated : Bool)
  | backref (group : Nat)
deriving DecidableEq

def Construct.name : Construct → String
  | around false false => "Lookahead assertion (?=...)"
  | around false true => "Negative lookahead assertion (?!...)"
  | around true false => "Lookbehind assertion (?<=...)"
  | around true true => "Negative lookbehind assertion (?<!...)"
  | backref group => "Back-reference \\" ++ toString group

/-- A name for the construct that does not say which one of its kind it is. -/
def Construct.family : Construct → String
  | around _ _ => "Look-around assertion"
  | backref _ => "Back-reference"

/-- The construct of a node that no automaton can match. -/
def construct? : Pattern → Option Construct
  | around _ _ behind negated => some (.around behind negated)
  | backref _ group => some (.backref group)
  | _ => none

/-- Fails for the first node that no automaton can match. -/
def checkSupported (p : Pattern) : Except Error Unit :=
  match p.nodes.findSome? fun n => n.construct?.map fun c => Error.unsupported c.name n.loc with
  | some e => .error e
  | none => .ok ()

end Pattern

end ByteRegex
