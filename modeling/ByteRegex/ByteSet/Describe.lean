-- How a set of bytes is shown in listings and in the labels of graphs. The
-- pieces are lists of characters, and the whole is one text.
import ByteRegex.ByteSet

namespace ByteRegex

/-- Where a description is put. Inside a quoted label of a graph every
backslash is doubled and a quote is escaped. -/
inductive LabelMode where
  | text
  | dot
deriving DecidableEq

/-- The backslash that starts an escape. -/
def LabelMode.backslash : LabelMode → List Char
  | .text => ['\\']
  | .dot => ['\\', '\\']

/-- The byte is a visible ASCII character. -/
def isGraphByte (c : UInt8) : Bool := 0x21 ≤ c && c ≤ 0x7e

/-- The visible bytes that mean something inside brackets: `^`, `-`, `[`, `]`
and the backslash. -/
def bracketBytes : List UInt8 := [0x5e, 0x2d, 0x5b, 0x5d, 0x5c]

/-- One byte, escaped where it could be read as something else. -/
def describeByte (mode : LabelMode) (c : UInt8) : List Char :=
  if isGraphByte c then
    if bracketBytes.contains c then mode.backslash ++ [Char.ofNat c.toNat]
    else if mode = .dot ∧ c = 0x22 then ['\\', '"']
    else [Char.ofNat c.toNat]
  else if c = 0x09 then mode.backslash ++ ['t']
  else if c = 0x0a then mode.backslash ++ ['n']
  else if c = 0x0d then mode.backslash ++ ['r']
  else mode.backslash ++ 'x' :: (hexByte c).toList

/-- One run: its only byte, its two bytes, or its ends with a dash between. -/
def describeRun (mode : LabelMode) (run : UInt8 × UInt8) : List Char :=
  if run.1 = run.2 then describeByte mode run.1
  else if run.2.toNat = run.1.toNat + 1 then describeByte mode run.1 ++ describeByte mode run.2
  else describeByte mode run.1 ++ '-' :: describeByte mode run.2

/-- At most `limit` runs, then dots for what is left out. -/
def describeRuns (mode : LabelMode) (limit : Nat) (runs : List (UInt8 × UInt8)) : List Char :=
  (runs.take limit).flatMap (describeRun mode)
    ++ if limit < runs.length then ['.', '.', '.'] else []

namespace ByteSet

/-- The characters of a description: a lone byte, or brackets around the runs
of the set or of its complement, whichever text is shorter. -/
def description (s : ByteSet) (limit : Nat) (mode : LabelMode) : List Char :=
  if s.isFull then ['<', 'a', 'n', 'y', '>']
  else
    match s.toList with
    | [] => ['<', 'e', 'm', 'p', 't', 'y', '>']
    | [c] => describeByte mode c
    | _ =>
      let plain := describeRuns mode limit s.runs
      let negated := describeRuns mode limit s.compl.runs
      if plain.length ≤ negated.length then '[' :: plain ++ [']']
      else '[' :: '^' :: negated ++ [']']

/-- The set in words, with at most `limit` runs spelled out. -/
def describe (s : ByteSet) (limit : Nat) (mode : LabelMode) : String :=
  String.ofList (s.description limit mode)

end ByteSet

end ByteRegex
