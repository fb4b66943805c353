-- Sets of code points, kept as disjoint closed intervals in ascending order.
-- Intervals that touch are joined, so each set has one form.
import ByteRegex.Bytes

namespace ByteRegex

/-- The greatest code point. -/
def maxCodePoint : Nat := 0x10ffff

/-- The surrogates are code points that no text holds. -/
def firstSurrogate : Nat := 0xd800

def lastSurrogate : Nat := 0xdfff

def isSurrogate (c : Nat) : Bool := firstSurrogate ≤ c && c ≤ lastSurrogate

/-- The numbers from `lo` to `hi`, both included. -/
structure Interval where
  lo : Nat
  hi : Nat
deriving DecidableEq

namespace Interval

def contains (r : Interval) (c : Nat) : Bool := r.lo ≤ c && c ≤ r.hi

def size (r : Interval) : Nat := r.hi + 1 - r.lo

end Interval

/-- A set of code points. -/
structure CodePointSet where
  intervals : List Interval
deriving DecidableEq

namespace CodePointSet

def test (s : CodePointSet) (c : Nat) : Bool := s.intervals.any (·.contains c)

/-- The intervals are in order, none is empty, and at least one number lies
between any two. -/
def Canonical : List Interval → Prop
  | [] => True
  | [r] => r.lo ≤ r.hi
  | r :: s :: rest => r.lo ≤ r.hi ∧ r.hi + 1 < s.lo ∧ Canonical (s :: rest)

/-! ## Adding and removing an interval -/

/-- Adds an interval, and joins all that it touches. -/
def insertInto (new : Interval) : List Interval → List Interval
  | [] => [new]
  | r :: rest =>
    if r.hi + 1 < new.lo then r :: insertInto new rest
    else if new.hi + 1 < r.lo then new :: r :: rest
    else insertInto ⟨min r.lo new.lo, max r.hi new.hi⟩ rest

/-- Removes an interval, and keeps what stands out of it on either side. -/
def removeFrom (old : Interval) : List Interval → List Interval
  | [] => []
  | r :: rest =>
    if r.hi < old.lo then r :: removeFrom old rest
    else if old.hi < r.lo then r :: rest
    else
      (if r.lo < old.lo then [⟨r.lo, old.lo - 1⟩] else [])
        ++ (if old.hi < r.hi then [⟨old.hi + 1, r.hi⟩] else [])
        ++ removeFrom old rest

def insertRange (s : CodePointSet) (lo hi : Nat) : CodePointSet :=
  ⟨insertInto ⟨lo, hi⟩ s.intervals⟩

def removeRange (s : CodePointSet) (lo hi : Nat) : CodePointSet :=
  ⟨removeFrom ⟨lo, hi⟩ s.intervals⟩

/-! ## Set operations -/

/-- No code point. -/
def empty : CodePointSet := ⟨[]⟩

/-- Every code point. -/
def full : CodePointSet := ⟨[⟨0, maxCodePoint⟩]⟩

def union (a b : CodePointSet) : CodePointSet :=
  ⟨b.intervals.foldl (fun acc r => insertInto r acc) a.intervals⟩

/-- The members of `a` that are not in `b`. -/
def diff (a b : CodePointSet) : CodePointSet :=
  ⟨b.intervals.foldl (fun acc r => removeFrom r acc) a.intervals⟩

def compl (a : CodePointSet) : CodePointSet := full.diff a

def inter (a b : CodePointSet) : CodePointSet := a.diff (a.diff b)

/-! ## Questions -/

def isEmpty (s : CodePointSet) : Bool := s.intervals.isEmpty

/-- The number of members. -/
def count (s : CodePointSet) : Nat := s.intervals.foldr (fun r n => r.size + n) 0

/-- The number of rank `n` in a list of intervals. -/
def nthIn? : List Interval → Nat → Option Nat
  | [], _ => none
  | r :: rest, n => if n < r.size then some (r.lo + n) else nthIn? rest (n - r.size)

/-- The member of rank `n`, counted from 0 in ascending order. -/
def nth? (s : CodePointSet) (n : Nat) : Option Nat := nthIn? s.intervals n

/-- Every member of `b` is in `a`. -/
def includes (a b : CodePointSet) : Bool := a.union b == a

/-- Some code point is in both sets. -/
def overlaps (a b : CodePointSet) : Bool := !(a.inter b).isEmpty

end CodePointSet

end ByteRegex
