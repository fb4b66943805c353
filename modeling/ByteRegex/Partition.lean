-- A partition of the numbers below `n` into blocks with ascending members.
-- Refining it only ever splits a block in two.
import ByteRegex.Sorted

namespace ByteRegex

/-- The blocks, and for each number the index of its block. -/
structure Partition where
  blocks : Array (List Nat)
  blockOf : Array Nat
deriving DecidableEq

namespace Partition

/-- The partition in which `blockOf[i]` is the block of `i`. -/
def ofBlockOf (blockOf : Array Nat) : Partition :=
  let count := blockOf.foldl (fun m b => max m (b + 1)) 0
  let blocks := (List.range blockOf.size).foldr
    (fun i blocks => blocks.modify (blockOf.getD i 0) (i :: ·)) (Array.replicate count [])
  ⟨blocks, blockOf⟩

/-- The number of blocks. -/
def size (p : Partition) : Nat := p.blocks.size

/-- The members of a block. -/
def block (p : Partition) (i : Nat) : List Nat := p.blocks.getD i []

/-- The block that holds a number. -/
def blockIndex (p : Partition) (member : Nat) : Nat := p.blockOf.getD member 0

/-- All keys lie before the members or behind them, or there are no keys. -/
def beside (members keys : List Nat) : Bool :=
  match keys.head?, keys.getLast? with
  | some least, some greatest =>
    decide (members.getLastD 0 < least) || decide (greatest < members.headD 0)
  | _, _ => true

/-- The members that are keys, and those that are not. Both lists ascend and are
gone through once: keys below a member are passed over for good, and where the
keys have run out no key is left among the members. -/
def separate : List Nat → List Nat → List Nat × List Nat
  | [], _ => ([], [])
  | m :: members, keys =>
    match keys.dropWhile (· < m) with
    | [] => ([], m :: members)
    | k :: keys =>
      let (inside, outside) := separate members (k :: keys)
      if k = m then (m :: inside, outside) else (inside, m :: outside)

/-- Splits block `i` into the members that are keys and those that are not. The
larger part keeps the index, the members that are keys if the parts are equal,
and the other part becomes the last block. Nothing changes if one of the parts
is empty. -/
def split? (p : Partition) (i : Nat) (keys : KeySet) : Option Partition :=
  if beside (p.block i) keys.keys then none
  else
    let (inside, outside) := separate (p.block i) keys.keys
    if inside.isEmpty || outside.isEmpty then none
    else
      let swap := decide (inside.length < outside.length)
      let larger := if swap then outside else inside
      let smaller := if swap then inside else outside
      some
        { blocks := (p.blocks.setIfInBounds i larger).push smaller
          blockOf := smaller.foldl (fun b m => b.setIfInBounds m p.blocks.size) p.blockOf }

/-- Splits block `i` by the keys if they separate it. -/
def split (p : Partition) (i : Nat) (keys : KeySet) : Partition := (p.split? i keys).getD p

/-- The blocks with a member among the keys, in ascending order. -/
def overlapping (p : Partition) (keys : List Nat) : List Nat :=
  sortUnique (keys.map p.blockIndex)

end Partition

end ByteRegex
