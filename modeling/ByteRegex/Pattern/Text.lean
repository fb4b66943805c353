-- The pieces of the text of a pattern: single characters and their escapes,
-- brackets, and quantifiers. Each reader takes the place where its piece
-- starts and returns the place behind it, which is further on.
import ByteRegex.Pattern
import ByteRegex.Utf8

namespace ByteRegex.Pattern

/-! ## Faults -/

/-- What can be wrong with the text of a pattern. -/
inductive SyntaxFault where
  | unmatchedParenthesis
  | missingParenthesis
  | nothingToRepeat
  | expectedNumber
  | numberTooLarge
  | unterminatedRepeat
  | unknownGroup
  | codePointTooLarge
  | malformedCodePoint
  | malformedByte
  | trailingBackslash
  | unterminatedClass
  | invalidUtf8
  | truncatedUtf8
deriving DecidableEq

def SyntaxFault.message : SyntaxFault → String
  | unmatchedParenthesis => "Unmatched parenthesis."
  | missingParenthesis => "Missing close parenthesis."
  | nothingToRepeat => "Quantifier does not follow a repeatable item."
  | expectedNumber => "Expected a number."
  | numberTooLarge => "Number too large."
  | unterminatedRepeat => "Unterminated repeat."
  | unknownGroup => "Unknown group type."
  | codePointTooLarge => "Code point out of range."
  | malformedCodePoint => "Malformed \\x\x7b...\x7d escape."
  | malformedByte => "Malformed \\xHH escape."
  | trailingBackslash => "Trailing backslash."
  | unterminatedClass => "Unterminated character class."
  | invalidUtf8 => "Invalid UTF-8 in pattern."
  | truncatedUtf8 => "Truncated UTF-8 in pattern."

/-- A fault, and the place where reading stopped. -/
structure SyntaxError where
  fault : SyntaxFault
  index : Nat
deriving DecidableEq

def SyntaxError.toError (e : SyntaxError) : Error := .malformed e.fault.message (some e.index)

/-! ## Places in the text -/

/-- A place in the text: its offset, and the bytes from there on. -/
structure Cursor where
  pos : Nat
  rest : List UInt8

namespace Cursor

/-- The place `n` bytes further on. -/
def skip (c : Cursor) (n : Nat) : Cursor := ⟨c.pos + n, c.rest.drop n⟩

def fail {α : Type} (c : Cursor) (f : SyntaxFault) : Except SyntaxError α := .error ⟨f, c.pos⟩

/-- The next byte, as a character. -/
def peek? (c : Cursor) : Option Char := c.rest.head?.map byteChar

/-- The next byte is this character. -/
def sees (c : Cursor) (ch : Char) : Bool := c.peek? == some ch

end Cursor

/-! ## Named classes -/

def digitRanges : List (Nat × Nat) := [(0x30, 0x39)]

def wordRanges : List (Nat × Nat) := [(0x30, 0x39), (0x41, 0x5a), (0x5f, 0x5f), (0x61, 0x7a)]

def spaceRanges : List (Nat × Nat) := [(0x09, 0x0d), (0x20, 0x20)]

/-- The ranges between ascending ranges, from `next` on. -/
def complementFrom (next : Nat) : List (Nat × Nat) → List (Nat × Nat)
  | [] => if next ≤ maxCodePoint then [(next, maxCodePoint)] else []
  | r :: rest => (if next < r.1 then [(next, r.1 - 1)] else []) ++ complementFrom (r.2 + 1) rest

/-- The ranges that a letter stands for after a backslash inside brackets. A
capital letter stands for the complement. -/
def shorthand? : Char → Option (List (Nat × Nat))
  | 'd' => some digitRanges
  | 'w' => some wordRanges
  | 's' => some spaceRanges
  | 'D' => some (complementFrom 0 digitRanges)
  | 'W' => some (complementFrom 0 wordRanges)
  | 'S' => some (complementFrom 0 spaceRanges)
  | _ => none

/-! ## One code point -/

/-- Reads hexadecimal digits, and fails at the digit that makes the number
exceed the greatest code point. -/
def hexRun (pos value : Nat) : List UInt8 → Except SyntaxError (Nat × Cursor)
  | [] => .ok (value, ⟨pos, []⟩)
  | b :: bs =>
    match hexValue? b with
    | none => .ok (value, ⟨pos, b :: bs⟩)
    | some d =>
      if maxCodePoint < value * 16 + d then .error ⟨.codePointTooLarge, pos⟩
      else hexRun (pos + 1) (value * 16 + d) bs

/-- Reads the number of a code point and the brace behind it. -/
def bracedCodePoint (c : Cursor) : Except SyntaxError (Nat × Cursor) :=
  match hexRun c.pos 0 c.rest with
  | .error e => .error e
  | .ok (value, d) =>
    if c.pos < d.pos ∧ d.sees '\x7d' then .ok (value, d.skip 1) else d.fail .malformedCodePoint

/-- Reads two hexadecimal digits. -/
def hexPair (c : Cursor) : Except SyntaxError (Nat × Cursor) :=
  match c.rest with
  | a :: b :: rest =>
    match hexValue? a, hexValue? b with
    | some m, some n => .ok (m * 16 + n, ⟨c.pos + 2, rest⟩)
    | _, _ => c.fail .malformedByte
  | _ => c.fail .malformedByte

/-- Reads one UTF-8 sequence. Its length must fit its lead byte, but longer
forms than needed, surrogates and numbers that are too large pass. -/
def rawCodePoint (pos : Nat) (b : UInt8) (bs : List UInt8) : Except SyntaxError (Nat × Cursor) :=
  match Utf8.lead? b with
  | none => .error ⟨.invalidUtf8, pos⟩
  | some (n, bits) =>
    if bs.length < n then .error ⟨.truncatedUtf8, pos⟩
    else
      match (bs.take n).mapM Utf8.tail? with
      | none => .error ⟨.invalidUtf8, pos⟩
      | some tails => .ok (tails.foldl (fun v t => v * 0x40 + t) bits, ⟨pos + (n + 1), bs.drop n⟩)

/-- The control character that a letter stands for after a backslash. -/
def control? : Char → Option Nat
  | 'n' => some 0x0a
  | 't' => some 0x09
  | 'r' => some 0x0d
  | 'f' => some 0x0c
  | 'v' => some 0x0b
  | _ => none

/-- Reads what stands behind a backslash as one code point. -/
def escapedCodePoint (c : Cursor) : Except SyntaxError (Nat × Cursor) :=
  match c.rest with
  | [] => c.fail .trailingBackslash
  | e :: rest =>
    match control? (byteChar e) with
    | some n => .ok (n, c.skip 1)
    | none =>
      if byteChar e = 'x' then
        if (c.skip 1).sees '\x7b' then bracedCodePoint (c.skip 2) else hexPair (c.skip 1)
      else rawCodePoint c.pos e rest

/-- Reads one code point, plain or escaped. The first byte is at hand. -/
def codePoint (pos : Nat) (b : UInt8) (bs : List UInt8) : Except SyntaxError (Nat × Cursor) :=
  if byteChar b = '\\' then escapedCodePoint ⟨pos + 1, bs⟩ else rawCodePoint pos b bs

/-! ## Brackets -/

/-- Reads one item of a bracket: a named class, a range, or one code point. A
dash before the closing bracket stands for itself. -/
def bracketItem (pos : Nat) (b : UInt8) (bs : List UInt8) :
    Except SyntaxError (List (Nat × Nat) × Cursor) :=
  match (if byteChar b = '\\' then (bs.head?.map byteChar).bind shorthand? else none) with
  | some ranges => .ok (ranges, ⟨pos + 2, bs.drop 1⟩)
  | none =>
    match codePoint pos b bs with
    | .error e => .error e
    | .ok (lo, c) =>
      match c.rest with
      | dash :: b' :: bs' =>
        if byteChar dash = '-' ∧ byteChar b' ≠ ']' then
          match codePoint (c.pos + 1) b' bs' with
          | .error e => .error e
          | .ok (hi, d) => .ok ([(lo, hi)], d)
        else .ok ([(lo, lo)], c)
      | _ => .ok ([(lo, lo)], c)

/-! ## Quantifiers -/

/-- Reads decimal digits, and fails at the digit that makes the number too
large for a bound. -/
def decimalRun (pos value : Nat) : List UInt8 → Except SyntaxError (Nat × Cursor)
  | [] => .ok (value, ⟨pos, []⟩)
  | b :: bs =>
    if isDigitByte b then
      if maxWord ≤ value * 10 + (b.toNat - 0x30) then .error ⟨.numberTooLarge, pos⟩
      else decimalRun (pos + 1) (value * 10 + (b.toNat - 0x30)) bs
    else .ok (value, ⟨pos, b :: bs⟩)

/-- The next byte is a digit. -/
def Cursor.seesDigit (c : Cursor) : Bool := c.rest.head?.any isDigitByte

/-- Reads a decimal number. -/
def bound (c : Cursor) : Except SyntaxError (Nat × Cursor) :=
  if c.seesDigit then decimalRun c.pos 0 c.rest else c.fail .expectedNumber

/-- Reads the bounds of a repeat behind their opening brace. -/
def bracedBounds (c : Cursor) : Except SyntaxError ((Nat × Option Nat) × Cursor) :=
  match bound c with
  | .error e => .error e
  | .ok (min, d) =>
    if d.sees ',' then
      if (d.skip 1).sees '\x7d' then .ok ((min, none), d.skip 2)
      else
        match bound (d.skip 1) with
        | .error e => .error e
        | .ok (max, e) =>
          if e.sees '\x7d' then .ok ((min, some max), e.skip 1) else e.fail .unterminatedRepeat
    else if d.sees '\x7d' then .ok ((min, some min), d.skip 1)
    else d.fail .unterminatedRepeat

/-- Reads the bounds of a repeat, if a quantifier starts here. A brace starts
one only before a digit. -/
def bounds? (c : Cursor) : Option (Except SyntaxError ((Nat × Option Nat) × Cursor)) :=
  if c.sees '*' then some (.ok ((0, none), c.skip 1))
  else if c.sees '+' then some (.ok ((1, none), c.skip 1))
  else if c.sees '?' then some (.ok ((0, some 1), c.skip 1))
  else if c.sees '\x7b' ∧ (c.skip 1).seesDigit then some (bracedBounds (c.skip 1))
  else none

/-! ## Progress -/

theorem hexRun_le {pos value v : Nat} {bs : List UInt8} {d : Cursor}
    (h : hexRun pos value bs = .ok (v, d)) : d.rest.length ≤ bs.length := by
  fun_induction hexRun pos value bs with
  | case1 => simp only [Except.ok.injEq, Prod.mk.injEq] at h; simp [← h.2]
  | case2 => simp only [Except.ok.injEq, Prod.mk.injEq] at h; simp [← h.2]
  | case3 => simp at h
  | case4 _ _ _ _ _ _ _ ih => exact Nat.le_succ_of_le (ih h)

theorem bracedCodePoint_le {c d : Cursor} {v : Nat} (h : bracedCodePoint c = .ok (v, d)) :
    d.rest.length ≤ c.rest.length := by
  unfold bracedCodePoint at h
  split at h
  · simp at h
  · rename_i e he
    split at h
    · have := hexRun_le he
      simp only [Except.ok.injEq, Prod.mk.injEq] at h
      simp [← h.2, Cursor.skip]
      omega
    · simp [Cursor.fail] at h

theorem hexPair_le {c d : Cursor} {v : Nat} (h : hexPair c = .ok (v, d)) :
    d.rest.length ≤ c.rest.length := by
  unfold hexPair at h
  split at h
  · rename_i heq
    split at h
    · simp only [Except.ok.injEq, Prod.mk.injEq] at h
      simp [← h.2, heq]
      omega
    · simp [Cursor.fail] at h
  · simp [Cursor.fail] at h

theorem rawCodePoint_le {pos v : Nat} {b : UInt8} {bs : List UInt8} {d : Cursor}
    (h : rawCodePoint pos b bs = .ok (v, d)) : d.rest.length ≤ bs.length := by
  unfold rawCodePoint at h
  split at h
  · simp at h
  · split at h
    · simp at h
    · split at h
      · simp at h
      · simp only [Except.ok.injEq, Prod.mk.injEq] at h
        simp [← h.2]

theorem escapedCodePoint_le {c d : Cursor} {v : Nat} (h : escapedCodePoint c = .ok (v, d)) :
    d.rest.length ≤ c.rest.length := by
  unfold escapedCodePoint at h
  split at h
  · simp [Cursor.fail] at h
  · rename_i e rest hc
    split at h
    · simp only [Except.ok.injEq, Prod.mk.injEq] at h
      simp [← h.2, Cursor.skip]
    · split at h
      · split at h
        · have := bracedCodePoint_le h
          simp [Cursor.skip] at this
          omega
        · have := hexPair_le h
          simp [Cursor.skip] at this
          omega
      · have := rawCodePoint_le h
        simp [hc]
        omega

theorem codePoint_le {pos v : Nat} {b : UInt8} {bs : List UInt8} {d : Cursor}
    (h : codePoint pos b bs = .ok (v, d)) : d.rest.length ≤ bs.length := by
  unfold codePoint at h
  split at h
  · exact escapedCodePoint_le h
  · exact rawCodePoint_le h

theorem bracketItem_le {pos : Nat} {b : UInt8} {bs : List UInt8} {ranges : List (Nat × Nat)}
    {d : Cursor} (h : bracketItem pos b bs = .ok (ranges, d)) : d.rest.length ≤ bs.length := by
  unfold bracketItem at h
  split at h
  · simp only [Except.ok.injEq, Prod.mk.injEq] at h
    simp [← h.2]
  · split at h
    · simp at h
    · rename_i lo c hc
      have h1 := codePoint_le hc
      split at h
      · rename_i heq
        rw [heq] at h1
        split at h
        · split at h
          · simp at h
          · rename_i hd
            have h2 := codePoint_le hd
            simp only [Except.ok.injEq, Prod.mk.injEq] at h
            simp [← h.2] at *
            omega
        · simp only [Except.ok.injEq, Prod.mk.injEq] at h
          rw [← h.2, heq]
          exact h1
      · simp only [Except.ok.injEq, Prod.mk.injEq] at h
        rw [← h.2]
        exact h1

theorem decimalRun_le {pos value v : Nat} {bs : List UInt8} {d : Cursor}
    (h : decimalRun pos value bs = .ok (v, d)) : d.rest.length ≤ bs.length := by
  fun_induction decimalRun pos value bs with
  | case1 => simp only [Except.ok.injEq, Prod.mk.injEq] at h; simp [← h.2]
  | case2 => simp at h
  | case3 _ _ _ _ _ _ ih => exact Nat.le_succ_of_le (ih h)
  | case4 => simp only [Except.ok.injEq, Prod.mk.injEq] at h; simp [← h.2]

theorem bound_le {c d : Cursor} {v : Nat} (h : bound c = .ok (v, d)) :
    d.rest.length ≤ c.rest.length := by
  unfold bound at h
  split at h
  · exact decimalRun_le h
  · simp [Cursor.fail] at h

theorem bracedBounds_le {c d : Cursor} {v : Nat × Option Nat} (h : bracedBounds c = .ok (v, d)) :
    d.rest.length ≤ c.rest.length := by
  unfold bracedBounds at h
  split at h
  · simp at h
  · rename_i hmin
    have h1 := bound_le hmin
    split at h
    · split at h
      · simp only [Except.ok.injEq, Prod.mk.injEq] at h
        simp [← h.2, Cursor.skip]
        omega
      · split at h
        · simp at h
        · rename_i hmax
          have h2 := bound_le hmax
          simp only [Cursor.skip, List.length_drop] at h2
          split at h
          · simp only [Except.ok.injEq, Prod.mk.injEq] at h
            simp [← h.2, Cursor.skip]
            omega
          · simp [Cursor.fail] at h
    · split at h
      · simp only [Except.ok.injEq, Prod.mk.injEq] at h
        simp [← h.2, Cursor.skip]
        omega
      · simp [Cursor.fail] at h

theorem Cursor.rest_ne_nil_of_sees {c : Cursor} {ch : Char} (h : c.sees ch = true) :
    c.rest ≠ [] := by
  intro hnil
  simp [Cursor.sees, Cursor.peek?, hnil] at h

theorem bounds?_lt {c d : Cursor} {v : Nat × Option Nat} (h : bounds? c = some (.ok (v, d))) :
    d.rest.length < c.rest.length := by
  have step : ∀ {ch : Char} {k : Cursor}, c.sees ch = true → k.rest.length ≤ c.rest.length - 1 →
      k.rest.length < c.rest.length := by
    intro ch k hs hk
    have := List.length_pos_iff.2 (Cursor.rest_ne_nil_of_sees hs)
    omega
  unfold bounds? at h
  split at h
  · rename_i hs
    simp only [Option.some.injEq, Except.ok.injEq, Prod.mk.injEq] at h
    exact step hs (by simp [← h.2, Cursor.skip])
  · split at h
    · rename_i hs
      simp only [Option.some.injEq, Except.ok.injEq, Prod.mk.injEq] at h
      exact step hs (by simp [← h.2, Cursor.skip])
    · split at h
      · rename_i hs
        simp only [Option.some.injEq, Except.ok.injEq, Prod.mk.injEq] at h
        exact step hs (by simp [← h.2, Cursor.skip])
      · split at h
        · rename_i hs
          have := bracedBounds_le (Option.some.inj h)
          exact step hs.1 (by simpa [Cursor.skip] using this)
        · simp at h

end ByteRegex.Pattern
