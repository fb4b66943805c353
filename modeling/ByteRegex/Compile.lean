-- From a pattern to a database. On the way listings of the automata may be
-- written.
import ByteRegex.Database
import ByteRegex.Dfa.Minimize
import ByteRegex.Dfa.Subset
import ByteRegex.Listing
import ByteRegex.Nfa.Thompson
import ByteRegex.Tuning

namespace ByteRegex

/-- Where listings go. Each becomes a file of its own, which opens or does not. -/
structure Destination where
  /-- The names of all files start like this. -/
  path : String := ""
  /-- Why the file of a listing does not open, if it does not. -/
  fault : String → Option String := fun _ => none

/-- The text of a listing under its name. -/
structure ListingFile where
  name : String
  content : String
deriving DecidableEq

/-- The steps of a compilation. Listings that were written before a failure
stay. -/
abbrev Compile := ExceptT Error (StateM (Array ListingFile))

namespace Compile

/-- Writes a listing, if its file opens. -/
def write (dest : Destination) (name : String) (content : Unit → String) : Compile Unit :=
  match dest.fault name with
  | none => modify (·.push ⟨name, content ()⟩)
  | some reason => throw (Error.unopened (dest.path ++ name) reason)

/-- Lists a nondeterministic automaton, if that is asked for. -/
def listNfa (dest : Destination) (tuning : Tuning) (name : String) (n : Nfa) : Compile Unit := do
  if tuning.listings.graphs then
    write dest (name ++ ".txt") fun _ => n.text
    write dest (name ++ ".dot") fun _ => n.graph

/-- Lists a deterministic automaton, if that is asked for. -/
def listDfa (dest : Destination) (tuning : Tuning) (name : String) (d : Dfa) : Compile Unit := do
  if tuning.listings.tables then
    write dest (name ++ ".txt") fun _ => d.text
    write dest (name ++ ".dot") fun _ => d.graph

/-- Lists the finished database, if that is asked for. -/
def listDatabase (dest : Destination) (tuning : Tuning) (d : Database) : Compile Unit := do
  if tuning.listings.summary then
    write dest "database.txt" fun _ =>
      d.info ++ "\n\n" ++ d.forward.text ++ "\n" ++ d.reverse.text
    if tuning.listings.tables then
      write dest "dfa_fwd.dot" fun _ => d.forward.graph
      write dest "dfa_rev.dot" fun _ => d.reverse.graph

end Compile

open Compile

namespace Tuning

/-- The most states that a deterministic automaton may have. -/
def stateLimit (t : Tuning) (classes : Nat) : Nat :=
  Dfa.stateLimit t.maxDfaStates t.maxTransitions classes

/-- The automaton that is encoded: minimised, if that is asked for. -/
def minimized (t : Tuning) (d : Dfa) : Dfa := if t.minimize then d.minimize else d

end Tuning

/-- The kind of matches that the automaton of a direction follows. Only the
forward automaton has to find the preferred end. -/
def Direction.matchKind : Direction → Dfa.MatchKind
  | forward => .leftmostFirst
  | reverse => .all

/-- The names of the listings of the automaton of a direction start so. -/
def Direction.listingName : Direction → String
  | forward => "dfa_fwd"
  | reverse => "dfa_rev"

/-- Builds the table of one direction. -/
def compileTable (dest : Destination) (tuning : Tuning) (n : Nfa) (alpha : Alphabet)
    (direction : Direction) : Compile Table := do
  let d ← Dfa.ofNfa n alpha direction direction.matchKind (tuning.stateLimit alpha.size)
  listDfa dest tuning (direction.listingName ++ "_raw") d
  let d := tuning.minimized d
  listDfa dest tuning (direction.listingName ++ "_min") d
  d.encode tuning.narrowTable

/-- Compiles a pattern. -/
def compileListing (dest : Destination) (p : Pattern) (longest : Bool) (tuning : Tuning) :
    Compile Database := do
  p.checkSupported
  let alpha ← Alphabet.ofPattern p
  let n ← Nfa.ofPattern p alpha tuning.maxNfaStates
  listNfa dest tuning "nfa_fwd" n
  let back := n.reverse
  listNfa dest tuning "nfa_rev" back
  let forward ← compileTable dest tuning n alpha .forward
  let reverse ← compileTable dest tuning back alpha .reverse
  let d : Database := ⟨forward, reverse, longest⟩
  listDatabase dest tuning d
  return d

/-- The listings of a compilation, and what came of it. -/
def compileWithListings (dest : Destination) (p : Pattern) (longest : Bool) (tuning : Tuning) :
    Except Error Database × List ListingFile :=
  let (result, files) := (compileListing dest p longest tuning).run #[]
  (result, files.toList)

/-- Compiles a pattern without regard to listings. -/
def compileTuned (p : Pattern) (longest : Bool) (tuning : Tuning) : Except Error Database :=
  (compileWithListings {} p longest { tuning with listings := ⟨0⟩ }).1

/-- What a caller may choose. -/
structure Options where
  /-- The most states of each deterministic automaton. -/
  maxStates : Nat := 10000
  /-- Report the end of the preferred match, not the first end. -/
  longest : Bool := true
deriving DecidableEq

/-- Compiles a pattern. The options say how many states there may be. -/
def compile (p : Pattern) (options : Options := {}) (tuning : Tuning := {}) :
    Except Error Database :=
  compileTuned p options.longest { tuning with maxDfaStates := options.maxStates }

/-- The version of the library. -/
def version : String := "1.0.0"

end ByteRegex
