-- Random numbers from a script, and the choices that are made with them.
import ByteRegex.Bytes

namespace ByteRegex

/-- A script of numbers, and the place of the next one. Behind the last number
comes the first. -/
structure Draws where
  script : Array Nat
  pos : Nat
deriving DecidableEq

/-- A choice made with draws. -/
abbrev Draw (α : Type) := StateM Draws α

namespace Draws

/-- The draws from a place that a seed names. -/
def seeded (script : Array Nat) (seed : Nat) : Draws := ⟨script, seed % script.size⟩

/-- A number from `lo` to `hi`. Where there is no choice the script stays. -/
def between (lo hi : Nat) : Draw Nat := fun d =>
  if lo = hi then (lo, d)
  else (lo + d.script.getD d.pos 0 % (hi - lo + 1), { d with pos := (d.pos + 1) % d.script.size })

/-- A member of a list, and `default` from an empty one. -/
def pick {α : Type} (default : α) (l : List α) : Draw α := do
  let i ← between 0 (l.length - 1)
  return l.getD i default

/-- Bytes that tend to show faults: word bytes and others, pieces of UTF-8, and
bytes that no UTF-8 holds. -/
def interestingBytes : List UInt8 :=
  [0x61, 0x62, 0x63, 0x7a, 0x41, 0x30, 0x39, 0x5f,
    0x20, 0x2d, 0x2e, 0x0a, 0x00, 0x21,
    0xc3, 0xa9, 0xe2, 0x82, 0xac, 0xf0, 0x9f,
    0x80, 0xbf, 0xc0, 0xed, 0xf5, 0xff]

/-- A byte: one in four times any, otherwise an interesting one. -/
def byte : Draw UInt8 := do
  if (← between 0 3) = 0 then return (← between 0 255).toUInt8
  else pick 0 interestingBytes

/-- So many bytes. -/
def noise : Nat → Draw (List UInt8)
  | 0 => pure []
  | n + 1 => do
    let b ← byte
    let rest ← noise n
    return b :: rest

end Draws

/-! ## Rolls -/

/-- What is put where a pattern wants a certain byte. -/
inductive Roll where
  /-- What the pattern wants. -/
  | matching
  /-- A byte that starts no code point. -/
  | mismatching
  /-- Any byte. -/
  | random
deriving DecidableEq, Repr

/-- How often each roll comes up, in percent. -/
structure Mix where
  matching : Nat := 100
  mismatching : Nat := 0
  random : Nat := 0
deriving DecidableEq

namespace Mix

/-- The mix with new shares, if they add up to 100 as 32-bit words. -/
def update? (matching mismatching random : Nat) : Option Mix :=
  if (matching + mismatching + random) % (maxWord + 1) = 100 then
    some ⟨matching, mismatching, random⟩
  else none

/-- The roll for a number below 100. -/
def rollFor (m : Mix) (outcome : Nat) : Roll :=
  if outcome < m.matching then .matching
  else if outcome < (m.matching + m.mismatching) % (maxWord + 1) then .mismatching
  else .random

/-- A roll. No number is drawn if one of the shares is 100. -/
def roll (m : Mix) : Draw Roll :=
  if m.matching = 100 then pure .matching
  else if m.mismatching = 100 then pure .mismatching
  else if m.random = 100 then pure .random
  else do return m.rollFor (← Draws.between 0 99)

end Mix

end ByteRegex
