-- The stored form of a database: a header of eight words, and the blocks of
-- both automata. The two blocks may lie anywhere behind the header.
import ByteRegex.Database

namespace ByteRegex

namespace Stored

/-- The first word of a stored database. -/
def magic : Nat := 0xdbdfa5ca

/-- The second word: the version of the stored form. -/
def formVersion : Nat := 1

/-- The flag of a database that reports longest matches. -/
def longestFlag : Nat := 1

/-- The size of the header. -/
def headerSize : Nat := 32

/-- The header without its first two words. -/
structure Header where
  length : Nat
  flags : Nat
  forwardOffset : Nat
  forwardLength : Nat
  reverseOffset : Nat
  reverseLength : Nat
deriving DecidableEq

namespace Header

def toBytes (h : Header) : Bytes :=
  (word32 magic ++ word32 formVersion ++ word32 h.length ++ word32 h.flags
    ++ word32 h.forwardOffset ++ word32 h.forwardLength
    ++ word32 h.reverseOffset ++ word32 h.reverseLength).toArray

/-- The header at the start of a byte string. -/
def ofBytes (b : Bytes) : Header :=
  { length := b.at32 8
    flags := b.at32 12
    forwardOffset := b.at32 16
    forwardLength := b.at32 20
    reverseOffset := b.at32 24
    reverseLength := b.at32 28 }

/-- The header fits a byte string of a size: both blocks lie in it and behind
the header, and no unknown flag is set. -/
def fits (h : Header) (size : Nat) : Bool :=
  h.length == size && decide (headerSize ≤ h.forwardOffset)
    && decide (h.forwardOffset + h.forwardLength ≤ size)
    && decide (headerSize ≤ h.reverseOffset)
    && decide (h.reverseOffset + h.reverseLength ≤ size) && decide (h.flags ≤ longestFlag)

end Header

end Stored

namespace Database

open Stored

def storedFlags (longest : Bool) : Nat := if longest then longestFlag else 0

/-- The stored form with the forward block first. -/
def serialize (d : Database) : Bytes :=
  let forward := d.forward.bytes
  let reverse := d.reverse.bytes
  let header : Header :=
    { length := headerSize + forward.size + reverse.size
      flags := storedFlags d.longest
      forwardOffset := headerSize
      forwardLength := forward.size
      reverseOffset := headerSize + forward.size
      reverseLength := reverse.size }
  header.toBytes ++ forward ++ reverse

/-- A stored form with the reverse block first. -/
def serializeReverseFirst (d : Database) : Bytes :=
  let forward := d.forward.bytes
  let reverse := d.reverse.bytes
  let header : Header :=
    { length := headerSize + forward.size + reverse.size
      flags := storedFlags d.longest
      forwardOffset := headerSize + reverse.size
      forwardLength := forward.size
      reverseOffset := headerSize
      reverseLength := reverse.size }
  header.toBytes ++ reverse ++ forward

/-- Reads a stored form. -/
def deserialize (b : Bytes) : Except LoadFault Database :=
  if b.size < headerSize then .error .truncatedDatabase
  else if b.at32 0 ≠ magic then .error .notADatabase
  else if b.at32 4 ≠ formVersion then .error .wrongVersion
  else
    let h := Header.ofBytes b
    if !h.fits b.size then .error .badDatabaseHeader
    else
      match Table.load (b.extract h.forwardOffset (h.forwardOffset + h.forwardLength)) .forward with
      | .error f => .error f
      | .ok forward =>
        match
          Table.load (b.extract h.reverseOffset (h.reverseOffset + h.reverseLength)) .reverse with
        | .error f => .error f
        | .ok reverse => .ok ⟨forward, reverse, h.flags == longestFlag⟩

end Database

end ByteRegex
