-- A compiled pattern: a forward and a reverse automaton, and the searches that
-- use them.
import ByteRegex.Table.Check
import ByteRegex.Table.Scan

namespace ByteRegex

/-- A match, from its first byte to the byte behind its last. -/
structure Span where
  start : Nat
  stop : Nat
deriving DecidableEq

def Span.isEmpty (m : Span) : Bool := m.start == m.stop

structure Database where
  forward : Table
  reverse : Table
  /-- A search reports the end of the preferred match, not the first end. -/
  longest : Bool
deriving DecidableEq

namespace Database

/-! ## Searching -/

/-- The pattern matches somewhere. -/
def isMatch (d : Database) (data : Bytes) : Bool := (d.forward.scanForward data 0 true).isSome

/-- The first end of a match that starts at or behind `start`. -/
def shortestMatch (d : Database) (data : Bytes) (start : Nat) : Option Nat :=
  if data.size < start then none else d.forward.scanForward data start true

/-- The leftmost match that starts at or behind `start`. -/
def find (d : Database) (data : Bytes) (start : Nat) : Option Span :=
  if data.size < start then none
  else
    match d.forward.scanForward data start (!d.longest) with
    | none => none
    | some stop =>
      match d.reverse.scanReverse data start stop with
      | none => none
      | some first => some ⟨first, stop⟩

/-- Where a scan goes on behind a match. An empty match is stepped over. -/
def resume (m : Span) : Nat := if m.isEmpty then m.stop + 1 else m.stop

/-- Scans from `pos` on. An empty match where the last match ended is passed
over. At most `fuel` searches are made. -/
def scanFrom (d : Database) (data : Bytes) : Nat → Nat → Option Nat → List Span
  | 0, _, _ => []
  | fuel + 1, pos, lastStop =>
    match d.find data pos with
    | none => []
    | some m =>
      if m.isEmpty ∧ lastStop = some m.start then scanFrom d data fuel (m.stop + 1) lastStop
      else m :: scanFrom d data fuel (resume m) (some m.stop)

/-- The matches that do not overlap, from left to right. Every search moves on
by a byte at least. -/
def scan (d : Database) (data : Bytes) : List Span := d.scanFrom data (data.size + 2) 0 none

/-- Hands matches to a receiver one by one, until it says stop. The receiver
keeps a state. Returns the last state, and whether all matches were handed
over without a stop. -/
def deliver {σ : Type} (receive : Span → σ → σ × Bool) : σ → List Span → σ × Bool
  | s, [] => (s, true)
  | s, m :: rest =>
    match receive m s with
    | (s', true) => (s', false)
    | (s', false) => deliver receive s' rest

/-- Scans for a receiver that may stop the scan. -/
def scanInto {σ : Type} (d : Database) (data : Bytes) (receive : Span → σ → σ × Bool) (s : σ) :
    σ × Bool := deliver receive s (d.scan data)

/-! ## Summary -/

/-- The bytes that both automata take. -/
def size (d : Database) : Nat := d.forward.length + d.reverse.length

/-- One automaton in the summary. -/
def tableInfo (t : Table) : String :=
  toString t.stateCount ++ " states, alpha " ++ toString t.alphaSize ++ ", "
    ++ toString (8 * t.width) ++ "-bit table"

/-- The summary of a database in one line. -/
def info (d : Database) : String :=
  "forward: " ++ tableInfo d.forward ++ "; reverse: " ++ tableInfo d.reverse ++ "; "
    ++ (if d.longest then "longest" else "shortest") ++ " match; " ++ toString d.size ++ " bytes"

end Database

end ByteRegex
