-- The UTF-8 encoding of code points, its strict inverse, and the projection
-- of a range of code points onto sequences of byte ranges.
import ByteRegex.CodePointSet

namespace ByteRegex.Utf8

/-! ## One code point -/

/-- The continuation byte that holds the low six bits of a number. -/
def continuation (n : Nat) : UInt8 := (0x80 + n % 0x40).toUInt8

/-- The shortest encoding of a code point. -/
def encode (c : Nat) : List UInt8 :=
  if c < 0x80 then [c.toUInt8]
  else if c < 0x800 then [(0xc0 + c / 0x40).toUInt8, continuation c]
  else if c < 0x10000 then
    [(0xe0 + c / 0x1000).toUInt8, continuation (c / 0x40), continuation c]
  else
    [(0xf0 + c / 0x40000).toUInt8, continuation (c / 0x1000), continuation (c / 0x40),
      continuation c]

/-- What a lead byte says: how many continuation bytes follow it, and the bits
that it holds itself. -/
def lead? (b : UInt8) : Option (Nat × Nat) :=
  if b < 0x80 then some (0, b.toNat)
  else if b < 0xc0 then none
  else if b < 0xe0 then some (1, b.toNat - 0xc0)
  else if b < 0xf0 then some (2, b.toNat - 0xe0)
  else if b < 0xf8 then some (3, b.toNat - 0xf0)
  else none

/-- The six bits of a continuation byte. -/
def tail? (b : UInt8) : Option Nat :=
  if 0x80 ≤ b && b < 0xc0 then some (b.toNat - 0x80) else none

/-- The least code point whose encoding has `n` continuation bytes. -/
def leastWithTail : Nat → Nat
  | 0 => 0
  | 1 => 0x80
  | 2 => 0x800
  | _ => 0x10000

/-- Adds the bits of `n` continuation bytes, the first of them at `i`. -/
def readTail (data : Bytes) (i : Nat) : Nat → Nat → Option Nat
  | 0, acc => some acc
  | n + 1, acc => do readTail data (i + 1) n (acc * 0x40 + (← tail? (← data[i]?)))

/-- The code point whose encoding starts at `i`, with the length of that
encoding. Only the shortest encoding counts, and no surrogate has one. -/
def decodeAt (data : Bytes) (i : Nat) : Option (Nat × Nat) := do
  let (n, bits) ← lead? (← data[i]?)
  let c ← readTail data (i + 1) n bits
  if leastWithTail n ≤ c ∧ c ≤ maxCodePoint ∧ isSurrogate c = false then some (c, n + 1) else none

/-! ## Ranges of code points -/

/-- The bytes from `lo` to `hi`, both included. -/
structure ByteRange where
  lo : UInt8
  hi : UInt8
deriving DecidableEq

def ByteRange.contains (r : ByteRange) (b : UInt8) : Bool := r.lo ≤ b && b ≤ r.hi

/-- A sequence of byte ranges stands for the byte strings with one byte from
each range. -/
def admits : List ByteRange → List UInt8 → Bool
  | [], [] => true
  | r :: rs, b :: bs => r.contains b && admits rs bs
  | _, _ => false

/-- Where a range is cut because a block of `size` code points, which share
all but their last bytes, is only partly in it. The cut comes after the
returned code point. -/
def blockCut? (size lo hi : Nat) : Option Nat :=
  if lo / size = hi / size then none
  else if lo % size ≠ 0 then some (lo / size * size + (size - 1))
  else if hi % size ≠ size - 1 then some (hi / size * size - 1)
  else none

/-- Where a range must be cut before its two ends give the byte ranges: first
where the length of the encoding changes, then at partly covered blocks, the
small ones first. -/
def cut? (lo hi : Nat) : Option Nat :=
  match [0x7f, 0x7ff, 0xffff].find? fun m => decide (lo ≤ m) && decide (m < hi) with
  | some m => some m
  | none =>
    if hi < 0x80 then none
    else (blockCut? 0x40 lo hi).or ((blockCut? 0x1000 lo hi).or (blockCut? 0x40000 lo hi))

theorem blockCut?_bounds {size lo hi m : Nat} (hs : 0 < size) (hle : lo ≤ hi)
    (h : blockCut? size lo hi = some m) : lo ≤ m ∧ m < hi := by
  unfold blockCut? at h
  have hd : lo / size ≤ hi / size := Nat.div_le_div_right hle
  have hlo := Nat.div_add_mod' lo size
  have hhi := Nat.div_add_mod' hi size
  have hml := Nat.mod_lt lo hs
  split at h
  · simp at h
  · rename_i hne
    have hmul : lo / size * size + size ≤ hi / size * size := by
      have : lo / size + 1 ≤ hi / size := by omega
      simpa [Nat.add_mul] using Nat.mul_le_mul_right size this
    split at h
    · obtain rfl := Option.some.inj h
      omega
    · split at h
      · obtain rfl := Option.some.inj h
        omega
      · simp at h

theorem cut?_bounds {lo hi m : Nat} (hle : lo ≤ hi) (h : cut? lo hi = some m) :
    lo ≤ m ∧ m < hi := by
  unfold cut? at h
  split at h
  · rename_i n hn
    obtain rfl := Option.some.inj h
    simpa using List.find?_some hn
  · split at h
    · simp at h
    · rcases Option.or_eq_some_iff.1 h with h | ⟨_, h⟩
      · exact blockCut?_bounds (by decide) hle h
      · rcases Option.or_eq_some_iff.1 h with h | ⟨_, h⟩
        · exact blockCut?_bounds (by decide) hle h
        · exact blockCut?_bounds (by decide) hle h

/-- The sequences of byte ranges that stand for the encodings of the code
points from `lo` to `hi`, in ascending order. Surrogates have none. -/
def sequences (lo hi : Nat) : List (List ByteRange) :=
  if hle : hi < lo then []
  else if _ : lo ≤ lastSurrogate ∧ firstSurrogate ≤ hi then
    (if _ : lo < firstSurrogate then sequences lo (firstSurrogate - 1) else [])
      ++ (if _ : lastSurrogate < hi then sequences (lastSurrogate + 1) hi else [])
  else
    match h : cut? lo hi with
    | some m =>
      have := cut?_bounds (Nat.le_of_not_lt hle) h
      sequences lo m ++ sequences (m + 1) hi
    | none => [List.zipWith ByteRange.mk (encode lo) (encode hi)]
termination_by hi - lo
decreasing_by all_goals simp only [firstSurrogate, lastSurrogate] at *; omega

end ByteRegex.Utf8
