-- The nondeterministic automaton of a pattern. Each node becomes a fragment
-- with one entry and one exit, and nothing leads out of the exit until the
-- node around it adds the way on. A walk over the tree keeps the fragments of
-- the nodes that it has left on a stack.
import ByteRegex.Alphabet
import ByteRegex.Nfa

namespace ByteRegex.Nfa

/-! ## Building blocks -/

/-- A step of a construction. It changes the states made so far, or fails. -/
abbrev Build := StateT Arena (Except Error)

/-- Makes a state, unless there are `limit` states already. -/
def newState (limit : Nat) : Build Nat := fun a =>
  if limit ≤ a.size then .error (.stateLimit "NFA state" limit) else .ok (a.size, a.push {})

def addEdge (source : Nat) (e : Edge) : Build Unit := modify (·.addEdge source e)

def addEps (source target : Nat) : Build Unit := addEdge source (.eps target)

/-- Adds an edge for each run of a set, in ascending order. -/
def addByteSet (source : Nat) (s : ByteSet) (target : Nat) : Build Unit :=
  s.runs.forM fun r => addEdge source (.bytes r.1 r.2 target)

/-- The part of an automaton that stands for one node. -/
structure Fragment where
  entry : Nat
  exit : Nat
deriving DecidableEq

/-- A fragment of two states, joined by an edge. -/
def edgeFragment (limit : Nat) (edge : Nat → Edge) : Build Fragment := do
  let entry ← newState limit
  let exit ← newState limit
  addEdge entry (edge exit)
  return ⟨entry, exit⟩

/-! ## Code points -/

/-- The state behind an edge of `source` with the range `r` that does not lead
to the exit. -/
def child? (a : Arena) (source : Nat) (r : Utf8.ByteRange) (exit : Nat) : Option Nat :=
  ((a.getD source {}).edges.find? fun
    | .bytes lo hi t => lo == r.lo && hi == r.hi && t != exit
    | _ => false).map Edge.target

/-- The state behind `source` and a range, made when it is first needed. -/
def child (limit source : Nat) (r : Utf8.ByteRange) (exit : Nat) : Build Nat := fun a =>
  match child? a source r exit with
  | some t => .ok (t, a)
  | none =>
    (do
      let t ← newState limit
      addEdge source (.bytes r.lo r.hi t)
      return t : Build Nat) a

/-- Adds a path for a sequence of byte ranges. Sequences that start with the
same ranges share the states behind them. -/
def addSequence (limit exit : Nat) : Nat → List Utf8.ByteRange → Build Unit
  | _, [] => pure ()
  | source, [r] => addEdge source (.bytes r.lo r.hi exit)
  | source, r :: rs => do addSequence limit exit (← child limit source r exit) rs

/-! ## Repeats

The copies of the body of a repeat come from a step of any kind that can build. -/

/-- Adds the two ways out of a state where a repeat may go on or stop. -/
def addChoice (greedy : Bool) (source onward stop : Nat) : Build Unit := do
  if greedy then
    addEps source onward
    addEps source stop
  else
    addEps source stop
    addEps source onward

section Repeats

variable {m : Type → Type} [Monad m] [MonadLiftT Build m]

/-- Adds `n` copies behind a fragment, and returns the last one. -/
def chain (copy : m Fragment) : Nat → Fragment → m Fragment
  | 0, f => pure f
  | n + 1, f => do
    let g ← copy
    addEps f.exit g.entry
    chain copy n g

/-- Adds `n` copies behind a state, each of which may be left out together with
the copies behind it. Returns the exit of the last one. -/
def optionalCopies (greedy : Bool) (copy : m Fragment) (stop : Nat) : Nat → Nat → m Nat
  | 0, cur => pure cur
  | n + 1, cur => do
    let g ← copy
    addChoice greedy cur g.entry stop
    optionalCopies greedy copy stop n g.exit

/-- The repeat of a body of which one copy has been built. Without a maximum
the last copy leads back to itself. -/
def repeatFragment (limit : Nat) (copy : m Fragment) (first : Fragment) (min : Nat)
    (max : Option Nat) (greedy : Bool) : m Fragment := do
  let entry ← newState limit
  match min, max with
  | 0, none =>
    let stop ← newState limit
    addChoice greedy entry first.entry stop
    addEps first.exit entry
    return ⟨entry, stop⟩
  | m + 1, none =>
    addEps entry first.entry
    let last ← chain copy m first
    let stop ← newState limit
    addChoice greedy last.exit last.entry stop
    return ⟨entry, stop⟩
  | 0, some 0 => return ⟨entry, entry⟩
  | 0, some (n + 1) =>
    let stop ← newState limit
    addChoice greedy entry first.entry stop
    let last ← optionalCopies greedy copy stop n first.exit
    addEps last stop
    return ⟨entry, stop⟩
  | m + 1, some n =>
    addEps entry first.entry
    let last ← chain copy m first
    if n ≤ m + 1 then return ⟨entry, last.exit⟩
    else
      let stop ← newState limit
      let cur ← optionalCopies greedy copy stop (n - (m + 1)) last.exit
      addEps cur stop
      return ⟨entry, stop⟩

end Repeats

/-! ## Sequences and alternations -/

/-- Leads from each fragment to the next. -/
def link : List Fragment → Build Unit
  | f :: g :: rest => do
    addEps f.exit g.entry
    link (g :: rest)
  | _ => pure ()

/-- The fragments one after another. -/
def seqFragment (limit : Nat) : List Fragment → Build Fragment
  | [] => do
    let s ← newState limit
    return ⟨s, s⟩
  | f :: rest => do
    link (f :: rest)
    return ⟨f.entry, ((f :: rest).getLast (by simp)).exit⟩

/-- One of the fragments, the earlier the better. -/
def altFragment (limit : Nat) (parts : List Fragment) : Build Fragment := do
  let entry ← newState limit
  let exit ← newState limit
  parts.forM fun f => do
    addEps entry f.entry
    addEps f.exit exit
  return ⟨entry, exit⟩

/-! ## Leaves -/

/-- The fragment of a class node. The states are made before the set is read. -/
def charsFragment (limit : Nat) (alpha : Alphabet) (set : Except Error CodePointSet) :
    Build Fragment := do
  let entry ← newState limit
  let exit ← newState limit
  let s ← set
  (alpha.classesIn s).forM fun i =>
    (alpha.sequences.getD i []).forM fun seq => addSequence limit exit entry seq
  return ⟨entry, exit⟩

/-- The fragment of a byte node. -/
def bytesFragment (limit : Nat) (set : Except Error ByteSet) : Build Fragment := do
  let entry ← newState limit
  let exit ← newState limit
  addByteSet entry (← set) exit
  return ⟨entry, exit⟩

/-- The fragment of an anchor. -/
def anchorFragment (limit : Nat) (atEnd : Bool) : Build Fragment :=
  edgeFragment limit (.look (if atEnd then .textEnd else .textStart))

/-- The fragment of a word boundary. -/
def wordEdgeFragment (limit : Nat) (negated : Bool) : Build Fragment :=
  edgeFragment limit (.look (if negated then .notWordEdge else .wordEdge))

/-- The fragment that leads nowhere. -/
def emptyFragment (limit : Nat) : Build Fragment := do
  let s ← newState limit
  return ⟨s, s⟩

/-! ## Walks over trees -/

/-- A step of a walk over a tree. The fragments of the nodes that the walk has left, and that no
node around them has taken yet, are on a stack. -/
abbrev Visit := StateT (List Fragment) Build

def push (f : Fragment) : Visit Unit := modify (f :: ·)

/-- Takes the fragment on top. No walk takes one from an empty stack. -/
def pop : Visit Fragment := modifyGet fun stack => (stack.headD ⟨0, 0⟩, stack.tail)

/-- Takes the last `n` fragments, the oldest first. -/
def popMany (n : Nat) : Visit (List Fragment) :=
  modifyGet fun stack => ((stack.take n).reverse, stack.drop n)

mutual

/-- Walks over a pattern. A repeat walks over its body again for each further copy. -/
def visit (limit : Nat) (alpha : Alphabet) : Pattern → Visit Unit
  | .chars loc ranges negated => do
    push (← charsFragment limit alpha (Pattern.charSet? loc ranges negated))
  | .bytes loc ranges => do push (← bytesFragment limit (Pattern.byteSet? loc ranges))
  | .seq _ parts => do
    visitAll limit alpha parts
    push (← seqFragment limit (← popMany parts.length))
  | .alt _ parts => do
    visitAll limit alpha parts
    push (← altFragment limit (← popMany parts.length))
  | .rep _ body min max greedy => do
    visit limit alpha body
    let first ← pop
    let copy : Visit Fragment := do
      visit limit alpha body
      pop
    push (← repeatFragment limit copy first min max greedy)
  | .anchor _ atEnd => do push (← anchorFragment limit atEnd)
  | .wordEdge _ negated => do push (← wordEdgeFragment limit negated)
  | .empty _ => do push (← emptyFragment limit)
  | .backref loc group => throw (.unsupported (Pattern.Construct.backref group).family loc)
  | .around loc _ behind negated =>
    throw (.unsupported (Pattern.Construct.around behind negated).family loc)

def visitAll (limit : Nat) (alpha : Alphabet) : List Pattern → Visit Unit
  | [] => pure ()
  | p :: ps => do
    visit limit alpha p
    visitAll limit alpha ps

end

/-- Walks over a whole tree, and takes the fragment that is left on the stack. -/
def visitRoot (limit : Nat) (alpha : Alphabet) (p : Pattern) : Build Fragment :=
  (do
    visit limit alpha p
    pop : Visit Fragment).run' []

/-! ## The whole automaton -/

/-- Completes an automaton around a fragment: an accepting state behind the
exit, and a start that would rather begin a match than skip a byte. -/
def close (limit : Nat) (f : Fragment) : Build (Nat × Nat) := do
  let accept ← newState limit
  addEps f.exit accept
  modify (·.setAccept accept 0)
  let floating ← newState limit
  let skip ← newState limit
  addEps floating f.entry
  addEps floating skip
  addEdge skip (.bytes 0x00 0xff floating)
  return (f.entry, floating)

/-- The automaton that a construction leaves behind. -/
def ofBuild (a : Arena) (b : Build (Nat × Nat)) : Except Error Nfa :=
  match b a with
  | .error e => .error e
  | .ok ((anchored, floating), states) => .ok ⟨states, anchored, floating⟩

/-- The automaton of a pattern, with at most `limit` states. -/
def ofPattern (p : Pattern) (alpha : Alphabet) (limit : Nat) : Except Error Nfa :=
  ofBuild #[] do close limit (← visitRoot limit alpha p)

end ByteRegex.Nfa
