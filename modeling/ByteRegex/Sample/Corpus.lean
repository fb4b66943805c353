-- Texts that a pattern matches, or nearly matches, made by walking the pattern
-- with random draws.
import ByteRegex.Draws
import ByteRegex.Pattern
import ByteRegex.Utf8

namespace ByteRegex.Sample

/-- A range of numbers to draw from. -/
structure DrawRange where
  min : Nat
  max : Nat
deriving DecidableEq

def DrawRange.draw (r : DrawRange) : Draw Nat := Draws.between r.min r.max

/-- How texts are made. -/
structure Settings where
  mix : Mix := {}
  /-- The number of random bytes before the text of the pattern. -/
  leading : DrawRange := ⟨0, 0⟩
  /-- The number of random bytes behind it. -/
  trailing : DrawRange := ⟨0, 0⟩
  /-- The passes of an unbounded repeat beyond its minimum. -/
  cycles : DrawRange := ⟨0, 3⟩
  /-- The most texts that are made. -/
  limit : Nat := 64
  seed : Nat := 0
deriving DecidableEq

/-- An unbounded repeat adds no passes to a text that is as long as this. -/
def longText : Nat := 4096

/-- Why no text can be made. -/
inductive Failure where
  | noCodePoint
  | noByte
  | invertedBounds
  /-- A range of the pattern is invalid. -/
  | invalid (e : Error)
deriving DecidableEq

def Failure.message : Failure → String
  | noCodePoint => "class matches no code point"
  | noByte => "byte class is empty"
  | invertedBounds => "inverted repeat bounds"
  | invalid e => e.message

/-! ## Making one text -/

/-- The draws, and the text made so far. -/
structure Progress where
  draws : Draws
  text : Bytes

/-- A step in the making of a text. The draws that were made before a failure
count. -/
abbrev Make (α : Type) := ExceptT Failure (StateM Progress) α

/-- A choice in the making of a text. -/
def choose {α : Type} (d : Draw α) : Make α := fun p =>
  let (a, draws) := d p.draws
  (.ok a, { p with draws := draws })

/-- Adds bytes to the text. -/
def emit (bytes : List UInt8) : Make Unit :=
  modify fun p => { p with text := p.text.appendList bytes }

/-- Rolls for one place of the pattern. Puts the wrong byte there, or asks for
the right one. -/
def rollOr (mix : Mix) (right : Make Unit) : Make Unit := do
  match ← choose mix.roll with
  | .matching => right
  | .mismatching =>
    let high ← choose (Draws.between 0 1)
    emit [if high = 0 then 0x80 else 0xff]
  | .random => emit [← choose Draws.byte]

/-- Adds a code point of a class node. -/
def emitChar (loc : Location) (ranges : List (Nat × Nat)) (negated : Bool) : Make Unit := do
  match Pattern.charSet? loc ranges negated with
  | .error e => throw (.invalid e)
  | .ok s =>
    let s := s.removeRange firstSurrogate lastSurrogate
    if s.isEmpty then throw .noCodePoint
    else
      let n ← choose (Draws.between 0 (s.count - 1))
      emit (Utf8.encode ((s.nth? n).getD 0))

/-- Adds a byte of a byte node. -/
def emitByte (loc : Location) (ranges : List (UInt8 × UInt8)) : Make Unit := do
  match Pattern.byteSet? loc ranges with
  | .error e => throw (.invalid e)
  | .ok s =>
    if s.isEmpty then throw .noByte
    else
      let n ← choose (Draws.between 0 (s.count - 1))
      emit [s.toList.getD n 0]

/-- The number of passes of a repeat. -/
def passes (cycles : DrawRange) (min : Nat) (max : Option Nat) : Make Nat := do
  match max with
  | none =>
    if (← get).text.size < longText then return (min + (← choose cycles.draw)) % (maxWord + 1)
    else return min
  | some m => if min ≤ m then choose (Draws.between min m) else throw .invertedBounds

/-- Does a step so many times. -/
def times (step : Make Unit) : Nat → Make Unit
  | 0 => pure ()
  | n + 1 => do
    step
    times step n

mutual

/-- Adds a text for the pattern. What only looks at the text adds nothing. -/
def make (st : Settings) : Pattern → Make Unit
  | .chars loc ranges negated => rollOr st.mix (emitChar loc ranges negated)
  | .bytes loc ranges => rollOr st.mix (emitByte loc ranges)
  | .seq _ parts => makeAll st parts
  | .alt _ parts => do
    if parts.isEmpty then pure ()
    else
      let i ← choose (Draws.between 0 (parts.length - 1))
      makeNth st parts i
  | .rep _ body min max _ => do
    let n ← passes st.cycles min max
    times (make st body) n
  | .anchor _ _ => pure ()
  | .wordEdge _ _ => pure ()
  | .empty _ => pure ()
  | .backref _ _ => pure ()
  | .around _ _ _ _ => pure ()

def makeAll (st : Settings) : List Pattern → Make Unit
  | [] => pure ()
  | p :: ps => do
    make st p
    makeAll st ps

def makeNth (st : Settings) : List Pattern → Nat → Make Unit
  | [], _ => pure ()
  | p :: _, 0 => make st p
  | _ :: ps, i + 1 => makeNth st ps i

end

/-- Adds random bytes. -/
def emitNoise (r : DrawRange) : Make Unit := do
  let n ← choose r.draw
  emit (← choose (Draws.noise n))

/-- A text for the pattern, between random bytes. -/
def makeText (st : Settings) (p : Pattern) : Make Unit := do
  emitNoise st.leading
  make st p
  emitNoise st.trailing

/-! ## Making many -/

/-- Different texts for one pattern, and why there are no more. -/
structure Corpus where
  texts : Array Bytes
  failure : Option Failure := none

/-- How often a text is tried for: more often than there are texts to make, as
a small pattern may have fewer. -/
def attempts (limit : Nat) : Nat := (limit * 4 + 16) % (maxWord + 1)

/-- Adds texts in at most so many attempts. -/
def addTexts (st : Settings) (p : Pattern) : Nat → Array Bytes → Draw Corpus
  | 0, texts => pure { texts := texts }
  | n + 1, texts =>
    if st.limit ≤ texts.size then pure { texts := texts }
    else fun d =>
      match makeText st p ⟨d, #[]⟩ with
      | (.error f, made) => ({ texts := texts, failure := some f }, made.draws)
      | (.ok (), made) =>
        addTexts st p n (if texts.contains made.text then texts else texts.push made.text)
          made.draws

/-- A corpus for a pattern. -/
def corpus (st : Settings) (p : Pattern) : Draw Corpus := addTexts st p (attempts st.limit) #[]

end ByteRegex.Sample
