-- Matching a pattern by trying out its parts one after another, without any
-- automaton. Ends are tried in the order of preference, and a search gives up
-- after a fixed number of steps.
import Std.Data.HashSet
import ByteRegex.Database
import ByteRegex.Pattern
import ByteRegex.Sorted
import ByteRegex.Utf8

namespace ByteRegex.Matcher

/-- The most nodes that one search may try. -/
def maxSteps : Nat := 2000000

/-- A search: from the number of steps made and a state to whether it is done,
with both numbers afterwards. There is no result if it runs out of steps. -/
abbrev Search (σ : Type) := Nat → σ → Option (Bool × Nat × σ)

/-! ## Tests on the text -/

/-- The code point is in the ranges or, if negated, outside them. -/
def charAllowed (ranges : List (Nat × Nat)) (negated : Bool) (c : Nat) : Bool :=
  (ranges.any fun r => decide (r.1 ≤ c) && decide (c ≤ r.2)) != negated

def byteAllowed (ranges : List (UInt8 × UInt8)) (b : UInt8) : Bool :=
  ranges.any fun r => decide (r.1 ≤ b) && decide (b ≤ r.2)

/-- There is a word byte at `i`. -/
def wordAt (data : Bytes) (i : Nat) : Bool := data[i]?.any isWordByte

/-- There is a word byte before `i`. -/
def wordBefore (data : Bytes) (i : Nat) : Bool := i != 0 && wordAt data (i - 1)

/-- A word starts or ends at `i`. -/
def wordEdgeAt (data : Bytes) (i : Nat) : Bool := wordBefore data i != wordAt data i

/-! ## Repeats -/

/-- How many times a body may match, and whether rather more or rather less. -/
structure Bounds where
  min : Nat
  max : Option Nat
  greedy : Bool

/-- Goes on with a repeat of which `count` passes are done. A bounded repeat
has a copy of the body for each pass, so an empty pass is one like any other.
An unbounded one loops on its last copy: an empty pass through the loop leads
nowhere, and behind an empty first pass the loop can only be left. -/
def repeatFrom {σ : Type} (body : Nat → (Nat → Search σ) → Search σ) (b : Bounds)
    (k : Nat → Search σ) : Nat → Nat → Nat → Bool → Search σ
  | 0, _, _, _, _, _ => none
  | fuel + 1, count, i, lastEmpty, n, s =>
    let more := fun j => repeatFrom body b k fuel (count + 1) j (j == i)
    let loop : Nat → Search σ := fun j n s => if j = i then some (false, n, s) else more j n s
    if count < b.min then body i more n s
    else
      match b.max with
      | some m =>
        if m ≤ count then k i n s
        else if b.greedy then
          match body i more n s with
          | some (false, n, s) => k i n s
          | r => r
        else
          match k i n s with
          | some (false, n, s) => body i more n s
          | r => r
      | none =>
        if count ≠ 0 ∧ lastEmpty then k i n s
        else if b.greedy then
          match body i loop n s with
          | some (false, n, s) => k i n s
          | r => r
        else
          match k i n s with
          | some (false, n, s) => body i loop n s
          | r => r

/-! ## Patterns -/

/-- Hands over to `k` at `j` if a condition holds, and fails otherwise. -/
def proceed {σ : Type} (holds : Bool) (k : Nat → Search σ) (j : Nat) : Search σ := fun n s =>
  if holds then k j n s else some (false, n, s)

mutual

/-- Tries all the ways in which the pattern matches from `i` on, in the order
of preference, and hands each end over to `k` until that is done. -/
def search {σ : Type} (data : Bytes) : Pattern → Nat → (Nat → Search σ) → Search σ
  | p, i, k, n, s =>
    if maxSteps ≤ n then none
    else
      match p with
      | .chars _ ranges negated =>
        match Utf8.decodeAt data i with
        | some (c, len) => proceed (charAllowed ranges negated c) k (i + len) (n + 1) s
        | none => some (false, n + 1, s)
      | .bytes _ ranges =>
        match data[i]? with
        | some b => proceed (byteAllowed ranges b) k (i + 1) (n + 1) s
        | none => some (false, n + 1, s)
      | .seq _ parts => searchSeq data parts i k (n + 1) s
      | .alt _ parts => searchAlt data parts i k (n + 1) s
      | .rep _ body min max greedy =>
        repeatFrom (search data body) ⟨min, max, greedy⟩ k (maxSteps + 1) 0 i false (n + 1) s
      | .anchor _ atEnd => proceed (if atEnd then i == data.size else i == 0) k i (n + 1) s
      | .wordEdge _ negated => proceed (wordEdgeAt data i != negated) k i (n + 1) s
      | .empty _ => k i (n + 1) s
      | .backref _ _ => some (false, n + 1, s)
      | .around _ _ _ _ => some (false, n + 1, s)

def searchSeq {σ : Type} (data : Bytes) : List Pattern → Nat → (Nat → Search σ) → Search σ
  | [], i, k, n, s => k i n s
  | p :: ps, i, k, n, s => search data p i (fun j => searchSeq data ps j k) n s

def searchAlt {σ : Type} (data : Bytes) : List Pattern → Nat → (Nat → Search σ) → Search σ
  | [], _, _, n, s => some (false, n, s)
  | p :: ps, i, k, n, s =>
    match search data p i k n s with
    | some (false, n, s) => searchAlt data ps i k n s
    | r => r

end

/-! ## All matches -/

/-- Notes an end, and asks for the next. -/
def noteEnd (j : Nat) : Search (Std.HashSet Nat) := fun n ends => some (false, n, ends.insert j)

/-- The matches that start from `i` on, for `count` starts, after `n` steps. -/
def matchesFrom (data : Bytes) (p : Pattern) : Nat → Nat → Nat → Option (List Span)
  | 0, _, _ => some []
  | count + 1, i, n =>
    match search data p i noteEnd n ∅ with
    | none => none
    | some (_, n, ends) =>
      (matchesFrom data p count (i + 1) n).map
        ((sortUnique ends.toList).map (fun j => ⟨i, j⟩) ++ ·)

/-- All matches, by start and end, or nothing if the steps run out. -/
def allMatches (data : Bytes) (p : Pattern) : Option (List Span) :=
  matchesFrom data p (data.size + 1) 0 0

/-! ## The first match -/

/-- Takes an end as the result. -/
def takeEnd (j : Nat) : Search (Option Nat) := fun n _ => some (true, n, some j)

/-- The first match from `i` on, for `count` starts, after `n` steps. -/
def firstFrom (data : Bytes) (p : Pattern) : Nat → Nat → Nat → Option (Option Span)
  | 0, _, _ => some none
  | count + 1, i, n =>
    match search data p i takeEnd n none with
    | none => none
    | some (_, _, some j) => some (some ⟨i, j⟩)
    | some (_, n, none) => firstFrom data p count (i + 1) n

/-- The preferred match at the leftmost place from `start` on, if there is one.
There is no answer if the steps run out. -/
def leftmostFirst (data : Bytes) (p : Pattern) (start : Nat) : Option (Option Span) :=
  firstFrom data p (data.size + 1 - start) start 0

/-! ## What cannot be matched -/

/-- Why a node cannot be matched in this way. -/
def fault? (p : Pattern) : Option Error :=
  match p with
  | .chars loc ranges _ => (Pattern.charRangeFault? ranges).map (·.toError loc)
  | .bytes loc ranges => (Pattern.byteRangeFault? ranges).map (·.toError loc)
  | p => p.construct?.map fun c => .unsupported c.family p.loc

/-- Fails for the first node that cannot be matched. -/
def check (p : Pattern) : Except Error Unit :=
  match p.nodes.findSome? fault? with
  | some e => .error e
  | none => .ok ()

end ByteRegex.Matcher
