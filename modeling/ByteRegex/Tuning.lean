-- The knobs of the compiler, and the overrides that set them by name: a list
-- of items "key:number" with ';' or ',' between them.
import ByteRegex.Error
import ByteRegex.Bytes

namespace ByteRegex

/-- Which listings a compilation writes. -/
structure ListingFlags where
  bits : Nat
deriving DecidableEq

namespace ListingFlags

/-- The summary of the finished database. -/
def summary (f : ListingFlags) : Bool := f.bits.testBit 0

/-- The nondeterministic automata. -/
def graphs (f : ListingFlags) : Bool := f.bits.testBit 1

/-- The deterministic automata and the graphs of their tables. -/
def tables (f : ListingFlags) : Bool := f.bits.testBit 2

end ListingFlags

/-- The settings of a compilation that no caller needs to know. -/
structure Tuning where
  /-- Minimise both deterministic automata. -/
  minimize : Bool := true
  /-- Allow tables with one byte for each entry. -/
  narrowTable : Bool := true
  /-- Which listings are written. -/
  listings : ListingFlags := ⟨0⟩
  /-- The most states that a nondeterministic automaton may have. -/
  maxNfaStates : Nat := 500000
  /-- The most states that a deterministic automaton may have. -/
  maxDfaStates : Nat := 10000
  /-- The most table entries, states times symbol classes. -/
  maxTransitions : Nat := 16 * 1024 * 1024
deriving DecidableEq

namespace Tuning

/-! ## The keys -/

/-- The settings that an override can name. -/
inductive Key where
  | minimize
  | narrowTable
  | listings
  | maxNfaStates
  | maxDfaStates
  | maxTransitions
deriving DecidableEq

namespace Key

/-- Every key, in the order of the help text. -/
def all : List Key :=
  [minimize, narrowTable, listings, maxNfaStates, maxDfaStates, maxTransitions]

def name : Key → String
  | minimize => "minimizeDFA"
  | narrowTable => "allowNarrowTable"
  | listings => "dumpFlags"
  | maxNfaStates => "limitNFAStates"
  | maxDfaStates => "limitDFAStates"
  | maxTransitions => "limitDFATransitions"

/-- The key with a name. -/
def ofName? (name : List Char) : Option Key := all.find? fun k => k.name.toList == name

end Key

/-- The value of a setting as a number; a switch is 1 when it is on. -/
def get (t : Tuning) : Key → Nat
  | .minimize => t.minimize.toNat
  | .narrowTable => t.narrowTable.toNat
  | .listings => t.listings.bits
  | .maxNfaStates => t.maxNfaStates
  | .maxDfaStates => t.maxDfaStates
  | .maxTransitions => t.maxTransitions

/-- Sets one setting. A switch is on for every value but 0. -/
def set (t : Tuning) (value : Nat) : Key → Tuning
  | .minimize => { t with minimize := value != 0 }
  | .narrowTable => { t with narrowTable := value != 0 }
  | .listings => { t with listings := ⟨value⟩ }
  | .maxNfaStates => { t with maxNfaStates := value }
  | .maxDfaStates => { t with maxDfaStates := value }
  | .maxTransitions => { t with maxTransitions := value }

/-! ## Overrides -/

/-- Why an override is refused. -/
inductive OverrideFault where
  /-- No colon is left. -/
  | missingValue (rest : List Char)
  /-- What stands after the colon is no number below 2³². -/
  | badValue (key value : List Char)
  /-- No setting has this name. -/
  | badKey (key : List Char)
deriving DecidableEq

def OverrideFault.message : OverrideFault → String
  | .missingValue rest => "Grey override missing a value: " ++ String.ofList rest ++ "."
  | .badValue key value =>
    "Invalid grey override value " ++ String.ofList key ++ ":" ++ String.ofList value ++ "."
  | .badKey key => "Invalid grey override key " ++ String.ofList key ++ "."

def OverrideFault.toError (f : OverrideFault) : Error := .malformed f.message none

/-- Reads a decimal number that fits a 32-bit word. -/
def readWord? : List Char → Option Nat
  | [] => none
  | cs =>
    if cs.all Char.isDigit then
      let n := cs.foldl (fun n c => n * 10 + (c.toNat - '0'.toNat)) 0
      if n ≤ maxWord then some n else none
    else none

/-- A value ends at the next separator. -/
def isSeparator (c : Char) : Bool := c == ';' || c == ','

/-- The line of the help text for one key, with its default. -/
def helpLine (k : Key) : String :=
  "\t" ++ k.name ++ String.ofList (List.replicate (30 - k.name.length) ' ')
    ++ "\tdefault: " ++ toString (Tuning.get {} k) ++ "\n"

/-- The lines of the help text. -/
def helpLines : String := String.join (Key.all.map helpLine)

/-- The key that asks for help instead of naming a setting. -/
def helpKey : List Char := ['h', 'e', 'l', 'p']

/-- What a list of overrides does: the settings after it, what it printed, and
the fault that stopped it. Items before the fault have had their effect. -/
structure Outcome where
  tuning : Tuning
  printed : String := ""
  fault : Option OverrideFault := none

theorem length_rest_lt {text afterColon : List Char} {c : Char}
    (h : text.dropWhile (· != ':') = c :: afterColon) :
    ((afterColon.dropWhile fun c => !isSeparator c).drop 1).length < text.length := by
  have h1 := (List.dropWhile_suffix (fun c => !isSeparator c) (l := afterColon)).length_le
  have h2 := (List.dropWhile_suffix (· != ':') (l := text)).length_le
  rw [h, List.length_cons] at h2
  rw [List.length_drop]
  omega

/-- Applies the items of a list in order, up to the first bad one. A key runs
to the next colon, wherever that is. -/
def applyItems (t : Tuning) (printed : String) (text : List Char) : Outcome :=
  if text = [] then ⟨t, printed, none⟩
  else
    let key := text.takeWhile (· != ':')
    match hcolon : text.dropWhile (· != ':') with
    | [] => ⟨t, printed, some (.missingValue text)⟩
    | _ :: afterColon =>
      let value := afterColon.takeWhile fun c => !isSeparator c
      let rest := (afterColon.dropWhile fun c => !isSeparator c).drop 1
      have := length_rest_lt hcolon
      match readWord? value with
      | none => ⟨t, printed, some (.badValue key value)⟩
      | some n =>
        if key = helpKey then applyItems t (printed ++ helpLines) rest
        else
          match Key.ofName? key with
          | none => ⟨t, printed, some (.badKey key)⟩
          | some k => applyItems (t.set n k) printed rest
termination_by text.length
decreasing_by all_goals assumption

/-- Applies overrides. The text `help`, with or without a colon, prints the
names of all settings. -/
def applyOverrides (t : Tuning) (text : String) : Outcome :=
  if text = "help" ∨ text = "help:" then ⟨t, "Valid grey overrides:\n" ++ helpLines, none⟩
  else applyItems t "" text.toList

end Tuning

end ByteRegex
