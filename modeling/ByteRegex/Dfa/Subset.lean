-- From a nondeterministic automaton to a deterministic one. A state of the
-- result stands for the threads that are alive, in their order of preference,
-- and for what the next byte needs to know about the place. Looks wait until
-- that byte is seen, and are then resolved.
import ByteRegex.Dfa.Worklist
import ByteRegex.Nfa
import ByteRegex.Sorted

namespace ByteRegex.Dfa

/-- Which matches an automaton follows. -/
inductive MatchKind where
  /-- Only those that no preferred match shuts out. -/
  | leftmostFirst
  /-- All of them. -/
  | all
deriving DecidableEq

/-- A place of the text, as far as looks can tell. -/
structure LookContext where
  atStart : Bool
  atEnd : Bool
  wordBefore : Bool
  wordAfter : Bool
deriving DecidableEq

/-- The look holds at the place. -/
def LookContext.holds (ctx : LookContext) : Look → Bool
  | .textStart => ctx.atStart
  | .textEnd => ctx.atEnd
  | .wordEdge => ctx.wordBefore != ctx.wordAfter
  | .notWordEdge => ctx.wordBefore == ctx.wordAfter

/-- The threads that are alive, and what is known about the place: whether the
text starts there, whether a word byte came before, and whether the text has
ended in a match. -/
structure ThreadSet where
  threads : List Nat
  atStart : Bool := false
  wordBefore : Bool := false
  final : Bool := false
deriving DecidableEq, Hashable

namespace ThreadSet

/-- No thread is alive. -/
def dead : ThreadSet := { threads := [] }

/-- The place before a byte of the given kind, or at the end of the text. -/
def context (s : ThreadSet) (atEnd wordAfter : Bool) : LookContext :=
  ⟨s.atStart, atEnd, s.wordBefore, wordAfter⟩

end ThreadSet

/-- What a construction starts from. -/
structure Subset where
  nfa : Nfa
  alpha : Alphabet
  kind : MatchKind
  /-- Some edge asks where words start and end. -/
  words : Bool
  /-- Some edge asks where the text starts. -/
  startLooks : Bool

namespace Subset

def ofNfa (nfa : Nfa) (alpha : Alphabet) (kind : MatchKind) : Subset :=
  ⟨nfa, alpha, kind, nfa.usesWordEdges, nfa.uses .textStart⟩

/-! ## Closures -/

/-- Where an edge leads without consuming a byte. Looks are passed only at a
known place. -/
def freeTarget? (ctx : Option LookContext) : Nfa.Edge → Option Nat
  | .eps t => some t
  | .bytes _ _ _ => none
  | .look k t => if ctx.any (·.holds k) then some t else none

/-- The states one free edge away, the preferred ones first. -/
def freeTargets (nfa : Nfa) (ctx : Option LookContext) (s : Nat) : List Nat :=
  (nfa.state s).edges.toList.filterMap (freeTarget? ctx)

/-- The state accepts, and shuts out all that is less preferred. -/
def shutsOut (c : Subset) (s : Nat) : Bool :=
  c.kind == .leftmostFirst && (c.nfa.state s).accept.isSome

/-- The states that matter among those that free edges reach from the seeds, in
order of preference. -/
def closure (c : Subset) (ctx : Option LookContext) (seeds : List Nat) : List Nat :=
  (Walk.orderUntil (freeTargets c.nfa ctx) c.shutsOut c.nfa.size seeds).filter
    fun s => (c.nfa.state s).important

/-- The form in which threads are compared. Their order counts only if some
matches are preferred. -/
def canonical (c : Subset) (threads : List Nat) : List Nat :=
  match c.kind with
  | .leftmostFirst => threads
  | .all => sortUnique threads

/-! ## Accepting -/

/-- The priority of the accepting thread that counts: the first one or, among
all matches, the one with the lowest priority. -/
def acceptance? (c : Subset) (threads : List Nat) : Option (Nat × Nat) :=
  let accepting := threads.filterMap fun s => (c.nfa.state s).accept.map fun p => (s, p)
  match c.kind with
  | .leftmostFirst => accepting.head?
  | .all =>
    match accepting with
    | [] => none
    | a :: rest => some (rest.foldl (fun best x => if x.2 < best.2 then x else best) a)

/-- The priority with which a set accepts before a byte of the given kind. -/
def acceptsBefore? (c : Subset) (s : ThreadSet) (wordAfter : Bool) : Option Nat :=
  (c.acceptance? (c.closure (some (s.context false wordAfter)) s.threads)).map (·.2)

/-- When a set accepts, and with which priority. The kind of the next byte
counts only if some edge asks for it. -/
def report (c : Subset) (s : ThreadSet) : AcceptFlags × Nat :=
  if s.final then
    (.always, ((s.threads.head?.bind fun t => (c.nfa.state t).accept)).getD 0)
  else if s.threads.isEmpty then (.never, 0)
  else if c.words then
    match c.acceptsBefore? s true, c.acceptsBefore? s false with
    | none, none => (.never, 0)
    | some p, none => (.beforeWord, p)
    | none, some q => (.beforeOther, q)
    | some p, some q => (.always, min p q)
  else
    match c.acceptsBefore? s false with
    | none => (.never, 0)
    | some p => (.always, p)

/-! ## Successors -/

/-- The state that an edge leads to with a byte. -/
def byteTarget? (b : UInt8) : Nfa.Edge → Option Nat
  | .bytes lo hi t => if lo ≤ b && b ≤ hi then some t else none
  | _ => none

/-- The threads behind a byte, where looks have been resolved before it. -/
def afterByte (c : Subset) (resolved : List Nat) (b : UInt8) : ThreadSet :=
  let moving := resolved.takeWhile fun s => !c.shutsOut s
  let targets := moving.flatMap fun s => (c.nfa.state s).edges.toList.filterMap (byteTarget? b)
  let threads := c.canonical (c.closure none targets)
  if threads.isEmpty then .dead
  else { threads := threads, wordBefore := c.words && isWordByte b }

/-- The set in which a search starts behind a byte that is no word byte. -/
def startOther (c : Subset) : ThreadSet :=
  { threads := c.canonical (c.closure none [c.nfa.floating]) }

/-- The set in which a search starts behind a word byte. -/
def startWord (c : Subset) : ThreadSet := { c.startOther with wordBefore := c.words }

/-- Only the set of the start takes the start of the text, and remembers it if
some edge asks for it. -/
def afterStart (c : Subset) (start s : ThreadSet) : ThreadSet :=
  if s = start then { s with atStart := c.startLooks } else .dead

/-- At the end of the text only the accepting thread that counts is kept. -/
def afterEnd (c : Subset) (s : ThreadSet) : ThreadSet :=
  match c.acceptance? (c.closure (some (s.context true false)) s.threads) with
  | some (t, _) => { threads := [t], final := true }
  | none => .dead

/-- A byte of the class. -/
def sampleByte (c : Subset) (cls : Nat) : UInt8 := (c.alpha.leader.getD cls 0).toUInt8

/-- The sets behind all classes of symbols. The bytes of one kind share the
looks that hold before them. -/
def successors (c : Subset) (start s : ThreadSet) : List ThreadSet :=
  if s.final then List.replicate c.alpha.size .dead
  else
    let beforeOther := c.closure (some (s.context false false)) s.threads
    let beforeWord := if c.words then c.closure (some (s.context false true)) s.threads
      else beforeOther
    (List.range c.alpha.byteClassCount).map (fun cls =>
      let b := c.sampleByte cls
      c.afterByte (if isWordByte b then beforeWord else beforeOther) b)
      ++ [c.afterStart start s, c.afterEnd s]

def automaton (c : Subset) : SetAutomaton ThreadSet :=
  let start := c.startOther
  { dead := .dead
    initial := if c.words then [start, c.startWord] else [start]
    successors := c.successors start
    report := c.report }

end Subset

/-- The deterministic automaton of a nondeterministic one, with at most `limit`
states. -/
def ofNfa (nfa : Nfa) (alpha : Alphabet) (direction : Direction) (kind : MatchKind)
    (limit : Nat) : Except Error Dfa :=
  let c := Subset.ofNfa nfa alpha kind
  match determinize c.automaton alpha.size limit with
  | .error _ => .error (.stateLimit "DFA state" limit)
  | .ok (states, sets) =>
    .ok
      { direction := direction
        alphaSize := alpha.size
        symbolClass := alpha.symbolClass
        startOther := (sets.idxOf c.startOther)
        startWord := (sets.idxOf c.startWord)
        wordSensitive := c.words
        states := states }

end ByteRegex.Dfa
