-- Comparing the searches of a database with the plain matcher on random
-- patterns and texts.
import ByteRegex.Compile
import ByteRegex.Matcher
import ByteRegex.Pattern.Parser
import ByteRegex.Sample.Corpus
import ByteRegex.Sample.PatternText

namespace ByteRegex.Sample

/-- What all searches say about one text. -/
structure Row where
  text : Bytes
  start : Nat
  isMatch : Bool
  /-- The same from the database for first ends. -/
  isMatchShortest : Bool
  /-- The leftmost match with its preferred end. -/
  longest : Option Span
  /-- The match with the first end. -/
  shortest : Option Span
  firstEnd : Option Nat
  /-- The answer of the matcher, if its steps suffice. -/
  matcher : Option (Option Span)

/-- Searches a text from a place that is drawn. -/
def compareOn (p : Pattern) (longest shortest : Database) (text : Bytes) : Draw Row := do
  let start ← if text.isEmpty then pure 0 else Draws.between 0 text.size
  return {
    text := text
    start := start
    isMatch := longest.isMatch text
    isMatchShortest := shortest.isMatch text
    longest := longest.find text start
    shortest := shortest.find text start
    firstEnd := shortest.shortestMatch text start
    matcher := Matcher.leftmostFirst text p start }

/-- Searches one text after another. -/
def compareAll (p : Pattern) (longest shortest : Database) : List Bytes → Draw (List Row)
  | [] => pure []
  | t :: ts => do
    let row ← compareOn p longest shortest t
    let rows ← compareAll p longest shortest ts
    return row :: rows

/-! ## What the searches should say -/

/-- The better one of two matches that start from a place on: the one with the
earlier end, and of those with one end the one with the earlier start. -/
def sooner (start : Nat) (best : Option Span) (m : Span) : Option Span :=
  if m.start < start then best
  else
    match best with
    | none => some m
    | some b =>
      if m.stop < b.stop ∨ m.stop = b.stop ∧ m.start < b.start then some m else some b

/-- The best one of some matches in this sense. -/
def earliest (start : Nat) (all : List Span) : Option Span :=
  all.foldl (sooner start) none

/-- All searches agree with the matcher. A text is passed over if the matcher
runs out of steps. -/
def Row.passes (p : Pattern) (r : Row) : Bool :=
  match Matcher.allMatches r.text p, r.matcher with
  | some all, some found =>
    let first := earliest r.start all
    found.isSome == first.isSome
      && (r.start != 0 || r.isMatch == first.isSome && r.isMatchShortest == first.isSome)
      && r.firstEnd == first.map Span.stop && r.longest == found && r.shortest == first
  | _, _ => true

/-! ## Random patterns -/

/-- A random pattern, the texts made for it, and what the searches say. -/
structure Comparison where
  pattern : Bytes
  failure : Option Failure
  rows : List Row

/-- Both databases of the pattern in a text. -/
def compileBoth (text : Bytes) : Except Error (Pattern × Database × Database) :=
  match Pattern.parse text.toList with
  | .error e => .error e.toError
  | .ok p =>
    match compile p {}, compile p { longest := false } with
    | .error e, _ => .error e
    | _, .error e => .error e
    | .ok longest, .ok shortest => .ok (p, longest, shortest)

/-- Makes a random pattern and texts for it, adds the empty text, and compares
the searches on all of them. -/
def comparison (st : Settings) (depth : Nat) : Piece.Gen (Except Error Comparison) := do
  let text := utf8Bytes (← patternText depth)
  match compileBoth text with
  | .error e => return .error e
  | .ok (p, longest, shortest) =>
    let made ← Piece.draw (corpus st p)
    let rows ← Piece.draw (compareAll p longest shortest (made.texts.toList ++ [#[]]))
    return .ok ⟨text, made.failure, rows⟩

end ByteRegex.Sample
