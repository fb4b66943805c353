-- Listings of automata, as text and as graphs.
import ByteRegex.ByteSet.Describe
import ByteRegex.Nfa
import ByteRegex.Sorted
import ByteRegex.Table

namespace ByteRegex

namespace Listing

/-- One line. -/
def line (s : String) : String := s ++ "\n"

/-- The frame of a graph. -/
def graph (body : String) : String :=
  line "digraph G \x7b" ++ line "rankdir=LR;" ++ body ++ line "\x7d"

/-- An edge from a named start. -/
def startEdge (name : String) (target : Nat) (color : String) : String :=
  line (name ++ " -> " ++ toString target ++ " [color = " ++ color ++ "]")

/-- The start of an edge with a label. -/
def edgeTo (source target : Nat) : String :=
  toString source ++ " -> " ++ toString target ++ " [ label = "

/-- A text in quotes. -/
def quoted (s : String) : String := "\"" ++ s ++ "\""

def joinMap {α : Type} (l : List α) (f : α → String) : String := String.join (l.map f)

end Listing

open Listing

namespace Nfa

/-! ## Nondeterministic automata -/

/-- The most runs in the label of an edge. -/
def labelRuns : Nat := 4

def Edge.text : Edge → String
  | eps t => " eps->" ++ toString t
  | bytes lo hi t => " " ++ (ByteSet.range lo hi).describe labelRuns .text ++ "->" ++ toString t
  | look kind t => " " ++ kind.name ++ "->" ++ toString t

def State.acceptText (s : State) : String :=
  match s.accept with
  | none => ""
  | some p => " ACCEPT(" ++ toString p ++ ")"

/-- The automaton as text, one line for each state. -/
def text (n : Nfa) : String :=
  line ("nfa: " ++ toString n.size ++ " states, anchored start " ++ toString n.anchored
    ++ ", floating start " ++ toString n.floating)
    ++ joinMap n.states.toList.zipIdx fun (s, i) =>
      line (toString i ++ s.acceptText ++ ":" ++ joinMap s.edges.toList Edge.text)

/-- How a look is written in a label. -/
def lookLabel : Look → String
  | .wordEdge => "\\\\b"
  | .notWordEdge => "\\\\B"
  | k => k.name

/-- The edge with rank `rank` among the edges of a state. -/
def Edge.graph (source : Nat) (e : Edge) (rank : Nat) : String :=
  match e with
  | eps t => line (edgeTo source t ++ quoted (toString rank) ++ ", style = dashed ];")
  | bytes lo hi t =>
    line (edgeTo source t ++ quoted ((ByteSet.range lo hi).describe labelRuns .dot) ++ " ];")
  | look kind t =>
    line (edgeTo source t ++ quoted (toString rank ++ ":" ++ lookLabel kind)
      ++ ", color = purple ];")

/-- The automaton as a graph. -/
def graph (n : Nfa) : String :=
  Listing.graph <|
    startEdge "STARTA" n.anchored "blue" ++ startEdge "STARTF" n.floating "red"
      ++ joinMap n.states.toList.zipIdx fun (s, i) =>
        line (toString i ++ " [ label = " ++ quoted (toString i)
          ++ (if s.accept.isSome then ", shape = doublecircle" else "") ++ " ];")
          ++ joinMap s.edges.toList.zipIdx fun (e, rank) => e.graph i rank

end Nfa

/-! ## Edges of deterministic automata -/

/-- The successors of one state: for each byte, and for the two ends of the
text. -/
structure Successors where
  onByte : UInt8 → Nat
  onStart : Nat
  onEnd : Nat

namespace Successors

/-- The most runs in the label of an edge. -/
def labelRuns : Nat := 5

/-- The live states that bytes lead to, in ascending order. -/
def targets (s : Successors) : List Nat := sortUnique ((allBytes.map s.onByte).filter (· != 0))

/-- An edge for an end of the text, unless it leads to the dead state. -/
def endEdge (source target : Nat) (name color : String) : String :=
  if target = 0 then ""
  else line (edgeTo source target ++ quoted name ++ ", color = " ++ color ++ " ];")

/-- One edge for each live state that bytes lead to, labelled with the bytes,
and one for each end of the text. -/
def graph (s : Successors) (source : Nat) : String :=
  joinMap s.targets (fun t =>
    line (edgeTo source t
      ++ quoted ((ByteSet.ofPred fun c => s.onByte c == t).describe labelRuns .dot) ++ " ];"))
    ++ endEdge source s.onStart "SOT" "blue" ++ endEdge source s.onEnd "EOT" "darkorchid"

end Successors

/-- The starts of a deterministic automaton in a graph. The second is left out
if it is the first. -/
def startEdges (startOther startWord : Nat) : String :=
  startEdge "START" startOther "blue"
    ++ if startWord = startOther then "" else startEdge "STARTW" startWord "red"

namespace Dfa

/-! ## Deterministic automata -/

/-- The automaton as text, one line for each state. -/
def text (d : Dfa) : String :=
  line (d.direction.name ++ " raw dfa: " ++ toString d.size ++ " states, alpha size "
    ++ toString d.alphaSize ++ ", starts " ++ toString d.startOther ++ "/" ++ toString d.startWord)
    ++ joinMap d.states.toList.zipIdx fun (s, i) =>
      line (toString i ++ s.accept.label ++ ":" ++ joinMap s.next.toList fun t => " " ++ toString t)

def successorsOf (d : Dfa) (s : Nat) : Successors :=
  { onByte := fun c => d.stepSymbol s c.toNat
    onStart := d.stepSymbol s startSymbol
    onEnd := d.stepSymbol s endSymbol }

/-- The automaton as a graph, without its dead state. -/
def graph (d : Dfa) : String :=
  Listing.graph <|
    startEdges d.startOther d.startWord
      ++ joinMap ((List.range d.size).drop 1) fun i =>
        line (toString i ++ " [ label = " ++ quoted (toString i)
          ++ (if (d.state i).accept.any then ", shape = doublecircle" else "") ++ " ];")
          ++ (d.successorsOf i).graph i

end Dfa

namespace Table

/-! ## Encoded automata -/

/-- The name of the direction of a block. -/
def directionName (t : Table) : String := if t.directionByte = 0 then "forward" else "reverse"

/-- The classes of the bytes, 32 on a line. -/
def classText (t : Table) : String :=
  joinMap allBytes fun c =>
    (if c.toNat % 32 = 0 then "\n  " else " ") ++ toString (t.byteClass c)

/-- The automaton as text: its header, and one line for each state. -/
def text (t : Table) : String :=
  line (t.directionName ++ " dfa")
    ++ line ("length " ++ toString t.length ++ ", states " ++ toString t.stateCount
      ++ ", alpha size " ++ toString t.alphaSize ++ " (shift " ++ toString t.shift ++ "), "
      ++ toString t.width ++ "-byte entries")
    ++ line ("start nonword " ++ toString t.startOther ++ ", start word " ++ toString t.startWord
      ++ ", sot " ++ toString t.startClass ++ ", eot " ++ toString t.endClass
      ++ if t.flags % 2 = 1 then ", word sensitive" else "")
    ++ line ("remap:" ++ t.classText)
    ++ joinMap (List.range t.stateCount) fun s =>
      line (toString s ++ (t.accept s).label ++ ":"
        ++ joinMap (List.range t.alphaSize) fun cls => " " ++ toString (t.step s cls))

def successorsOf (t : Table) (s : Nat) : Successors :=
  { onByte := fun c => t.step s (t.byteClass c)
    onStart := t.step s t.startClass
    onEnd := t.step s t.endClass }

/-- The automaton as a graph, without its dead state. -/
def graph (t : Table) : String :=
  Listing.graph <|
    startEdges t.startOther t.startWord
      ++ joinMap ((List.range t.stateCount).drop 1) fun s =>
        line (toString s ++ " [ width = 1, fixedsize = true, fontsize = 12, label = "
          ++ quoted (toString s) ++ " ];")
          ++ (if (t.accept s).any then line (toString s ++ " [ shape = doublecircle ];") else "")
          ++ (t.successorsOf s).graph s

end Table

end ByteRegex
