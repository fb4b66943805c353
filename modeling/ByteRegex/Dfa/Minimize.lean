-- Minimising a deterministic automaton by refining a partition of its states
-- until no block mixes states that differ.
import ByteRegex.Dfa
import ByteRegex.Partition

namespace ByteRegex.Dfa

/-! ## The first partition -/

/-- What an accepting state shows of itself. -/
abbrev Acceptance := AcceptFlags × Nat

/-- What a state shows of itself, if it accepts at all. -/
def State.acceptance? (s : State) : Option Acceptance :=
  if s.accept.any then some (s.accept, s.priority) else none

/-- The different ways in which states accept, in the order of the states. -/
def acceptances (d : Dfa) : List Acceptance :=
  (d.states.toList.filterMap State.acceptance?).foldl
    (fun seen a => if seen.contains a then seen else seen ++ [a]) []

/-- States that accept in one way share a block, and all other states share the
last one. -/
def initialPartition (d : Dfa) : Partition :=
  let ways := d.acceptances
  .ofBlockOf <| d.states.map fun s =>
    match s.acceptance? with
    | some a => ways.idxOf a
    | none => ways.length

/-! ## Refinement -/

/-- For each class and each state, the states that lead there. -/
abbrev Predecessors := Array (Array (List Nat))

/-- The states that lead to each state for one class, in descending order. -/
def predecessorsFor (d : Dfa) (cls : Nat) : Array (List Nat) :=
  (List.range d.size).foldl (fun a s => a.modify (d.step s cls) (s :: ·))
    (Array.replicate d.size [])

def predecessors (d : Dfa) : Predecessors :=
  ((List.range d.alphaSize).map d.predecessorsFor).toArray

/-- Splits the blocks by the states that lead into `members` for one class. -/
def refineFor (members : List Nat) (p : Partition) (pre : Array (List Nat)) : Partition :=
  let keys := members.flatMap fun s => pre.getD s []
  let keySet := KeySet.ofList keys
  (p.overlapping keys).foldl (fun p b => p.split b keySet) p

/-- Splits the blocks by what leads into block `b`, for one class after
another. -/
def refineBy (pre : Predecessors) (p : Partition) (b : Nat) : Partition :=
  pre.foldl (refineFor (p.block b)) p

/-- Splits by every block but the one of the states that never accept, in the
order of their making. A block that is made on the way comes last. -/
def refinedPartition (d : Dfa) : Partition :=
  let pre := d.predecessors
  let idle := d.acceptances.length
  (List.range d.size).foldl
    (fun p b => if b = idle ∨ p.size ≤ b then p else refineBy pre p b) d.initialPartition

/-! ## The smaller automaton -/

/-- The least member of the block of a state. -/
def representative (p : Partition) (s : Nat) : Nat := (p.block (p.blockIndex s)).headD 0

/-- The automaton with one state for each block. -/
def merge (d : Dfa) (p : Partition) : Dfa :=
  d.keep ((List.range d.size).filter fun s => representative p s == s) (representative p)

/-- The smallest automaton that does the same. -/
def minimize (d : Dfa) : Dfa :=
  let d := d.prune
  d.merge d.refinedPartition

end ByteRegex.Dfa
