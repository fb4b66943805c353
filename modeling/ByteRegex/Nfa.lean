-- Nondeterministic automata: states by index, with edges in order. A thread
-- that takes an earlier edge of a state is preferred.
import ByteRegex.Bytes
import ByteRegex.Walk

namespace ByteRegex

/-- The conditions on a place of the text that an edge can carry. -/
inductive Look where
  | textStart
  | textEnd
  /-- One side is a word byte and the other is not. -/
  | wordEdge
  | notWordEdge
deriving DecidableEq, Repr

namespace Look

def all : List Look := [textStart, textEnd, wordEdge, notWordEdge]

/-- How a look is written in a pattern. -/
def name : Look → String
  | textStart => "^"
  | textEnd => "$"
  | wordEdge => "\\b"
  | notWordEdge => "\\B"

/-- The number of the bit that stands for a look in a set of flags. -/
def bit : Look → Nat
  | textStart => 0
  | textEnd => 1
  | wordEdge => 2
  | notWordEdge => 3

/-- The look that holds at the same place of the reversed text. -/
def reverse : Look → Look
  | textStart => textEnd
  | textEnd => textStart
  | look => look

end Look

namespace Nfa

inductive Edge where
  /-- Free. -/
  | eps (target : Nat)
  /-- Consumes one byte from `lo` to `hi`. -/
  | bytes (lo hi : UInt8) (target : Nat)
  /-- Free where the look holds. -/
  | look (kind : Look) (target : Nat)
deriving DecidableEq, Repr

namespace Edge

def target : Edge → Nat
  | eps t => t
  | bytes _ _ t => t
  | look _ t => t

def isEps : Edge → Bool
  | eps _ => true
  | _ => false

def isLook (k : Look) : Edge → Bool
  | look kind _ => kind == k
  | _ => false

end Edge

/-- A state: its edges, the preferred ones first, and the priority with which
it accepts, if it does. The lower priority wins. -/
structure State where
  edges : Array Edge := #[]
  accept : Option Nat := none
deriving DecidableEq

/-- The state matters for what an automaton does: it accepts, consumes a byte
or looks at the text. All other states are told by where their edges lead. -/
def State.important (s : State) : Bool := s.accept.isSome || s.edges.any fun e => !e.isEps

/-- States by index, while an automaton is being built. -/
abbrev Arena := Array State

namespace Arena

/-- Adds an edge behind the other edges of a state. -/
def addEdge (a : Arena) (source : Nat) (e : Edge) : Arena :=
  a.modify source fun s => { s with edges := s.edges.push e }

/-- Makes a state accept. -/
def setAccept (a : Arena) (s priority : Nat) : Arena :=
  a.modify s fun st => { st with accept := some priority }

end Arena

end Nfa

structure Nfa where
  states : Nfa.Arena
  /-- A match must start here. -/
  anchored : Nat
  /-- A match may start here or behind any number of bytes. -/
  floating : Nat

namespace Nfa

def size (n : Nfa) : Nat := n.states.size

def state (n : Nfa) (s : Nat) : State := n.states.getD s {}

/-- Some edge carries the look. -/
def uses (n : Nfa) (k : Look) : Bool := n.states.any fun s => s.edges.any (·.isLook k)

/-- The looks that edges carry, as a set of bits. -/
def lookFlags (n : Nfa) : Nat :=
  Look.all.foldl (fun flags k => if n.uses k then flags ||| 1 <<< k.bit else flags) 0

/-- Some edge asks where words start and end. -/
def usesWordEdges (n : Nfa) : Bool := n.uses .wordEdge || n.uses .notWordEdge

/-- The states to which the edges of a state lead. -/
def targets (n : Nfa) (s : Nat) : List Nat := (n.state s).edges.toList.map Edge.target

/-! ## Reversal -/

/-- The edge for the way back from where `e` leads to its source. -/
def Edge.reverse (source : Nat) : Edge → Edge
  | eps _ => eps source
  | bytes lo hi _ => bytes lo hi source
  | look kind _ => look kind.reverse source

/-- Adds to `a` the way back for each edge of state `s`, and a way from `start`
to the state if it accepts. -/
def addReversed (n : Nfa) (start : Nat) (a : Arena) (s : Nat) : Arena :=
  let st := n.state s
  let a := if st.accept.isSome then a.addEdge start (.eps s) else a
  st.edges.foldl (fun a e => a.addEdge e.target (e.reverse s)) a

/-- The automaton that accepts backwards what `n` accepts from its anchored
start. States that cannot be reached from there lose their edges. -/
def reverse (n : Nfa) : Nfa :=
  let reached := Walk.reachable n.targets n.size [n.anchored]
  let start := n.size
  let empty : Arena := Array.replicate (n.size + 1) {}
  let states := ((List.range n.size).filter reached.contains).foldl (n.addReversed start) empty
  { states := states.setAccept n.anchored 0, anchored := start, floating := start }

end Nfa

end ByteRegex
