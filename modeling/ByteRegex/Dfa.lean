-- Deterministic automata: states by index with one successor for each class
-- of symbols. State 0 is dead.
import ByteRegex.Alphabet
import ByteRegex.Walk

namespace ByteRegex

/-- A forward automaton reads the text from left to right, a reverse one from
right to left. -/
inductive Direction where
  | forward
  | reverse
deriving DecidableEq

def Direction.name : Direction → String
  | forward => "forward"
  | reverse => "reverse"

/-! ## Accept flags -/

/-- Before which kinds of bytes a state accepts: bit 0 for a word byte, bit 1
for any other byte. -/
structure AcceptFlags where
  bits : UInt8
deriving DecidableEq, Hashable

namespace AcceptFlags

def never : AcceptFlags := ⟨0⟩

def beforeWord : AcceptFlags := ⟨1⟩

def beforeOther : AcceptFlags := ⟨2⟩

def always : AcceptFlags := ⟨3⟩

def union (a b : AcceptFlags) : AcceptFlags := ⟨a.bits ||| b.bits⟩

/-- Some flag is set. -/
def any (a : AcceptFlags) : Bool := a.bits != 0

/-- The flag for the kind of a byte. -/
def forByte (c : UInt8) : AcceptFlags := if isWordByte c then beforeWord else beforeOther

/-- The state accepts before this byte. -/
def before (a : AcceptFlags) (c : UInt8) : Bool := a.bits &&& (forByte c).bits != 0

/-- How the flags are shown behind the number of a state. -/
def label (a : AcceptFlags) : String :=
  if a = never then ""
  else if a = beforeWord then " ACCEPT(w)"
  else if a = beforeOther then " ACCEPT(W)"
  else " ACCEPT"

end AcceptFlags

namespace Dfa

/-- A state: when it accepts, the priority of that, and its successors. The
lower priority wins. -/
structure State where
  accept : AcceptFlags := .never
  priority : Nat := 0
  next : Array Nat := #[]
deriving DecidableEq

end Dfa

structure Dfa where
  direction : Direction
  /-- The number of classes of symbols, those of the two ends included. -/
  alphaSize : Nat
  /-- The class of each symbol. -/
  symbolClass : Array Nat
  /-- The start behind a byte that is no word byte. -/
  startOther : Nat
  /-- The start behind a word byte. -/
  startWord : Nat
  /-- The byte before the start matters. -/
  wordSensitive : Bool
  states : Array Dfa.State
deriving DecidableEq

namespace Dfa

def size (d : Dfa) : Nat := d.states.size

def state (d : Dfa) (s : Nat) : State := d.states.getD s {}

/-- The successor of a state for a class. -/
def step (d : Dfa) (s cls : Nat) : Nat := (d.state s).next.getD cls 0

/-- The class of a symbol. -/
def classOf (d : Dfa) (symbol : Nat) : Nat := d.symbolClass.getD symbol 0

/-- The successor of a state for a symbol. -/
def stepSymbol (d : Dfa) (s symbol : Nat) : Nat := d.step s (d.classOf symbol)

/-- The class that stands for the start of the text. -/
def startClass (d : Dfa) : Nat := d.classOf startSymbol

/-- The class that stands for the end of the text. -/
def endClass (d : Dfa) : Nat := d.classOf endSymbol

/-- The number of classes of bytes. -/
def byteClassCount (d : Dfa) : Nat := d.alphaSize - specialCount

/-- No state ever accepts. -/
def isDead (d : Dfa) : Bool := d.states.all fun s => !s.accept.any

/-! ## Keeping some of the states -/

/-- The place of each kept state in the list, and 0 for all other states. -/
def ranks (size : Nat) (kept : List Nat) : Array Nat :=
  kept.zipIdx.foldl (fun a r => a.setIfInBounds r.1 r.2) (Array.replicate size 0)

/-- The automaton with only the states of a list, in its order. `stand s` is
the kept state that takes the place of `s`. -/
def keep (d : Dfa) (kept : List Nat) (stand : Nat → Nat) : Dfa :=
  let ranks := ranks d.size kept
  let index (s : Nat) := ranks.getD (stand s) 0
  { d with
    states := (kept.map fun s => { d.state s with next := (d.state s).next.map index }).toArray
    startOther := index d.startOther
    startWord := index d.startWord }

/-! ## Pruning -/

/-- The successors of a state. No walk leads on from the dead state. -/
def successors (d : Dfa) (s : Nat) : List Nat := if s = 0 then [] else (d.state s).next.toList

/-- Drops the states that cannot be reached from the starts. The dead state
stays. -/
def prune (d : Dfa) : Dfa :=
  let reached := Walk.reachable d.successors d.size [0, d.startOther, d.startWord]
  d.keep ((List.range d.size).filter reached.contains) id

end Dfa

end ByteRegex
