-- The alphabet of one pattern. Code points fall into classes that no class
-- node of the pattern splits, and bytes into classes that no byte range of the
-- pattern splits. The start and the end of the text are symbols of their own.
import ByteRegex.Pattern
import ByteRegex.Sorted
import ByteRegex.Utf8

namespace ByteRegex

/-- The symbol that is fed before the first byte of the text. -/
def startSymbol : Nat := 256

/-- The symbol that is fed behind the last byte of the text. -/
def endSymbol : Nat := 257

/-- The number of symbols: the bytes, and the two ends of the text. -/
def symbolCount : Nat := 258

/-- The number of symbols that are no bytes. -/
def specialCount : Nat := 2

structure Alphabet where
  /-- The least code point of each class, in ascending order. -/
  starts : Array Nat
  /-- The byte sequences of each class of code points. -/
  sequences : Array (List (List Utf8.ByteRange))
  /-- The class of each symbol. -/
  symbolClass : Array Nat
  /-- The least symbol of each class, and 0 behind the last class. -/
  leader : Array Nat
  /-- The number of classes of symbols, those of the two ends included. -/
  size : Nat
  /-- No class mixes word bytes with other bytes. -/
  wordSensitive : Bool

namespace Alphabet

/-! ## Classes of code points -/

/-- The least code point of a class. -/
def classLo (a : Alphabet) (i : Nat) : Nat := a.starts.getD i 0

/-- The greatest code point of a class. -/
def classHi (a : Alphabet) (i : Nat) : Nat :=
  if i + 1 < a.starts.size then a.starts.getD (i + 1) 0 - 1 else maxCodePoint

/-- The class of a code point. -/
def codePointClass (a : Alphabet) (c : Nat) : Nat :=
  (a.starts.toList.takeWhile (· ≤ c)).length - 1

/-- The classes from the one that holds the start of an interval up to the last
one that starts inside the interval. -/
def classesAlong (a : Alphabet) (r : Interval) : List Nat :=
  let first := a.codePointClass r.lo
  (List.range' first (a.starts.size - first)).takeWhile fun i => a.classLo i ≤ r.hi

/-- The classes that make up a set, in ascending order. The set must be a union
of classes. -/
def classesIn (a : Alphabet) (s : CodePointSet) : List Nat := s.intervals.flatMap a.classesAlong

/-- The places where a set starts and where it has just ended. -/
def cutsOf (s : CodePointSet) : List Nat :=
  s.intervals.flatMap fun r => r.lo :: if r.hi < maxCodePoint then [r.hi + 1] else []

/-- The least code point of each class, for the sets that no class may split. -/
def startsOf (sets : List CodePointSet) : List Nat := sortUnique (0 :: sets.flatMap cutsOf)

/-! ## Classes of bytes -/

/-- The set splits the class: it holds some of its bytes but not all. -/
def splits (t s : ByteSet) : Bool := !(s.inter t).isEmpty && s.inter t != s

/-- Splits every class that a set partly covers. The parts inside the set come
behind all the classes. -/
def refine (classes : List ByteSet) (t : ByteSet) : List ByteSet :=
  classes.map (fun s => if splits t s then s.diff t else s)
    ++ (classes.filter (splits t)).map fun s => s.inter t

/-- The coarsest classes that none of the sets splits. -/
def classesOf (sets : List ByteSet) : List ByteSet :=
  (sets.foldl refine [ByteSet.full]).mergeSort fun a b => !b.lt a

/-- A table in which the members of a set are noted with a class, one after the
other. -/
def noteClass (table : Array Nat) (s : ByteSet) (i : Nat) : Array Nat :=
  s.toList.foldl (fun t c => t.setIfInBounds c.toNat i) table

/-- The class of each symbol, for disjoint classes of bytes. The two ends of
the text follow the bytes. -/
def symbolClassesOf (classes : List ByteSet) : Array Nat :=
  let bytes := classes.zipIdx.foldl (fun t (s, i) => noteClass t s i) (Array.replicate 256 0)
  bytes ++ [classes.length, classes.length + 1].toArray

/-- The least symbol of each class. -/
def leadersOf (classes : List ByteSet) : Array Nat :=
  let leaders := classes.map (fun s => (s.first?.map UInt8.toNat).getD symbolCount)
    ++ [startSymbol, endSymbol]
  (leaders ++ List.replicate (symbolCount - leaders.length) 0).toArray

/-! ## The alphabet of a pattern -/

/-- The sets of the class nodes, in order. -/
def charSets (p : Pattern) : List CodePointSet :=
  p.nodes.filterMap fun
    | .chars _ ranges negated => some (Pattern.charSet ranges negated)
    | _ => none

/-- The sets of the byte nodes, in order. -/
def byteSets (p : Pattern) : List ByteSet :=
  p.nodes.filterMap fun
    | .bytes _ ranges => some (Pattern.byteSet ranges)
    | _ => none

/-- The pattern asks where words start and end. -/
def usesWordEdges (p : Pattern) : Bool :=
  p.nodes.any fun
    | .wordEdge _ _ => true
    | _ => false

/-- The bytes of a range. -/
def rangeSet (r : Utf8.ByteRange) : ByteSet := ByteSet.range r.lo r.hi

/-- The alphabet of a pattern with valid ranges. Only the classes of code
points that some class node uses have a say in the classes of bytes. -/
def build (p : Pattern) : Alphabet :=
  let sets := charSets p
  let starts := (startsOf sets).toArray
  let hi (i : Nat) := if i + 1 < starts.size then starts.getD (i + 1) 0 - 1 else maxCodePoint
  let sequences :=
    (List.range starts.size).map fun i => Utf8.sequences (starts.getD i 0) (hi i)
  let used := (List.range starts.size).filter fun i =>
    sets.any fun s => s.test (starts.getD i 0)
  let ranges := used.flatMap fun i => (sequences.getD i []).flatten
  let words := usesWordEdges p
  let classes := classesOf
    (ranges.map rangeSet ++ byteSets p ++ if words then [ByteSet.word] else [])
  { starts := starts
    sequences := sequences.toArray
    symbolClass := symbolClassesOf classes
    leader := leadersOf classes
    size := classes.length + specialCount
    wordSensitive := words }

/-- The alphabet of a pattern, or the first invalid range in it. -/
def ofPattern (p : Pattern) : Except Error Alphabet :=
  match p.checkRanges with
  | .error e => .error e
  | .ok () => .ok (build p)

/-- The class of a byte. -/
def byteClass (a : Alphabet) (c : UInt8) : Nat := a.symbolClass.getD c.toNat 0

/-- The number of classes of bytes. -/
def byteClassCount (a : Alphabet) : Nat := a.size - specialCount

end Alphabet

end ByteRegex
