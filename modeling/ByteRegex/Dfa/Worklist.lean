-- Numbering the reachable sets of an automaton: the sets are found from the
-- initial ones breadth first, and each becomes a deterministic state. The
-- construction gives up at a limit, and then keeps none of the states.
import Std.Data.HashMap
import ByteRegex.Dfa

namespace ByteRegex.Dfa

/-- An automaton whose states are sets of some kind. -/
structure SetAutomaton (σ : Type) where
  /-- The set that stands for the dead state. -/
  dead : σ
  /-- The sets to start from. -/
  initial : List σ
  /-- The set behind each class of symbols. -/
  successors : σ → List σ
  /-- When a set accepts, and the priority of that. -/
  report : σ → AcceptFlags × Nat

variable {σ : Type} [BEq σ] [Hashable σ]

/-- The sets met so far, and the number of each. There are at most `limit`, or
just one. -/
structure Numbering (σ : Type) [BEq σ] [Hashable σ] (limit : Nat) where
  sets : Array σ
  ids : Std.HashMap σ Nat
  size_le : sets.size ≤ max 1 limit

namespace Numbering

/-- Only the dead set, with number 0. -/
def start (limit : Nat) (dead : σ) : Numbering σ limit :=
  ⟨#[dead], Std.HashMap.ofList [(dead, 0)], Nat.le_max_left 1 limit⟩

/-- The number of a set. A new set gets the next number, if the limit allows
one more. -/
def number? {limit : Nat} (n : Numbering σ limit) (s : σ) : Option (Nat × Numbering σ limit) :=
  match n.ids[s]? with
  | some i => some (i, n)
  | none =>
    if h : n.sets.size < limit then
      some (n.sets.size,
        { sets := n.sets.push s
          ids := n.ids.insert s n.sets.size
          size_le := by
            rw [Array.size_push]
            exact Nat.le_trans (Nat.succ_le_of_lt h) (Nat.le_max_right 1 limit) })
    else none

/-- The numbers of the sets of a list. -/
def numberAll? {limit : Nat} (n : Numbering σ limit) :
    List σ → Option (List Nat × Numbering σ limit)
  | [] => some ([], n)
  | s :: rest =>
    match n.number? s with
    | none => none
    | some (i, n') =>
      match n'.numberAll? rest with
      | none => none
      | some (is, n'') => some (i :: is, n'')

end Numbering

/-- The state for a set, with the numbers of its successors. -/
def stateOf (a : SetAutomaton σ) (s : σ) (next : List Nat) : State :=
  let (accept, priority) := a.report s
  { accept := accept, priority := priority, next := next.toArray }

/-- Fills the rows of the sets from number `i` on. The states that have been made are cleared if a
set gets no number. -/
def fillRows {limit : Nat} (a : SetAutomaton σ) (n : Numbering σ limit) (i : Nat)
    (rows : Array State) : Except (Array State) (Array State × Array σ) :=
  if h : i < n.sets.size then
    have := n.size_le
    let s := n.sets[i]
    match n.numberAll? (a.successors s) with
    | none => .error #[]
    | some (next, n') => fillRows a n' (i + 1) (rows.push (stateOf a s next))
  else .ok (rows, n.sets)
termination_by max 1 limit - i

/-- The states of the reachable sets with their successors for `classes`
classes, and the sets themselves. State 0 is dead and leads only to itself.
The construction gives up if there are more than `limit` sets, and tells which
states it leaves. -/
def determinize (a : SetAutomaton σ) (classes limit : Nat) :
    Except (Array State) (Array State × Array σ) :=
  match (Numbering.start limit a.dead).numberAll? a.initial with
  | none => .error #[]
  | some (_, n) => fillRows a n 1 #[stateOf a a.dead (List.replicate classes 0)]

end ByteRegex.Dfa
