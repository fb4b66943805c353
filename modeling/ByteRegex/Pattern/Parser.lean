-- Reading the text of a pattern: the text is cut into tokens, and a stack of
-- open groups collects the nodes that the tokens stand for. Each node keeps
-- the place where it starts.
import ByteRegex.Pattern.Text

namespace ByteRegex.Pattern

/-! ## Tokens -/

/-- The kinds of groups: plain, or one that only looks ahead or behind. -/
inductive Group where
  | plain
  | around (behind negated : Bool)
deriving DecidableEq

inductive Token where
  /-- A node without parts. -/
  | leaf (p : Pattern)
  /-- A quantifier for the item before it. -/
  | quantifier (min : Nat) (max : Option Nat) (greedy : Bool)
  | opening (group : Group)
  | closing
  | bar

/-- Reads a bracket up to its end. The first byte is never the end. -/
def bracketRanges (c : Cursor) (first : Bool) (ranges : List (Nat × Nat)) :
    Except SyntaxError (List (Nat × Nat) × Cursor) :=
  match hrest : c.rest with
  | [] => c.fail .unterminatedClass
  | b :: bs =>
    if byteChar b = ']' ∧ first = false then .ok (ranges, c.skip 1)
    else
      match hitem : bracketItem c.pos b bs with
      | .error e => .error e
      | .ok (new, d) =>
        have : d.rest.length < c.rest.length := by
          rw [hrest]
          exact Nat.lt_succ_of_le (bracketItem_le hitem)
        bracketRanges d false (ranges ++ new)
termination_by c.rest.length

/-- Reads a bracket behind its opening byte. -/
def bracket (loc : Location) (c : Cursor) : Except SyntaxError (Token × Cursor) :=
  let negated := c.sees '^'
  match bracketRanges (if negated then c.skip 1 else c) true [] with
  | .error e => .error e
  | .ok (ranges, d) => .ok (.leaf (.chars loc ranges negated), d)

/-- The node that a letter or a digit stands for after a backslash. -/
def escapedNode? (loc : Location) : Char → Option Pattern
  | 'd' => some (.chars loc digitRanges false)
  | 'D' => some (.chars loc digitRanges true)
  | 'w' => some (.chars loc wordRanges false)
  | 'W' => some (.chars loc wordRanges true)
  | 's' => some (.chars loc spaceRanges false)
  | 'S' => some (.chars loc spaceRanges true)
  | 'b' => some (.wordEdge loc false)
  | 'B' => some (.wordEdge loc true)
  | 'C' => some (.bytes loc [(0x00, 0xff)])
  | c => if '1' ≤ c ∧ c ≤ '9' then some (.backref loc (c.toNat - '0'.toNat)) else none

/-- Reads what stands behind a backslash. Two hexadecimal digits name a raw
byte, and a number in braces a code point. -/
def escapedToken (loc : Location) (c : Cursor) : Except SyntaxError (Token × Cursor) :=
  match c.peek?.bind (escapedNode? loc) with
  | some p => .ok (.leaf p, c.skip 1)
  | none =>
    if c.sees 'x' ∧ (c.skip 1).sees '\x7b' = false then
      match hexPair (c.skip 1) with
      | .error e => .error e
      | .ok (n, d) => .ok (.leaf (.bytes loc [(n.toUInt8, n.toUInt8)]), d)
    else
      match escapedCodePoint c with
      | .error e => .error e
      | .ok (n, d) => .ok (.leaf (.chars loc [(n, n)] false), d)

/-- Reads the kind of a group behind its opening parenthesis. -/
def groupToken (c : Cursor) : Except SyntaxError (Token × Cursor) :=
  if c.sees '?' then
    match (c.skip 1).peek?, (c.skip 2).peek? with
    | some ':', _ => .ok (.opening .plain, c.skip 2)
    | some '=', _ => .ok (.opening (.around false false), c.skip 2)
    | some '!', _ => .ok (.opening (.around false true), c.skip 2)
    | some '<', some '=' => .ok (.opening (.around true false), c.skip 3)
    | some '<', some '!' => .ok (.opening (.around true true), c.skip 3)
    | _, _ => c.fail .unknownGroup
  else .ok (.opening .plain, c)

/-- Reads the token that starts with byte `b`, where no quantifier may stand. -/
def itemToken (pos : Nat) (b : UInt8) (bs : List UInt8) : Except SyntaxError (Token × Cursor) :=
  let loc := some pos
  let next : Cursor := ⟨pos + 1, bs⟩
  match byteChar b with
  | '|' => .ok (.bar, next)
  | ')' => .ok (.closing, next)
  | '(' => groupToken next
  | '[' => bracket loc next
  | '.' => .ok (.leaf (.chars loc [(0, maxCodePoint)] false), next)
  | '^' => .ok (.leaf (.anchor loc false), next)
  | '$' => .ok (.leaf (.anchor loc true), next)
  | '\\' => escapedToken loc next
  | '*' => .error ⟨.nothingToRepeat, pos⟩
  | '+' => .error ⟨.nothingToRepeat, pos⟩
  | '?' => .error ⟨.nothingToRepeat, pos⟩
  | _ =>
    match rawCodePoint pos b bs with
    | .error e => .error e
    | .ok (n, d) => .ok (.leaf (.chars loc [(n, n)] false), d)

/-- Reads one token. A quantifier may stand only behind an item. A question
mark behind the bounds makes it lazy. -/
def token (behindItem : Bool) (pos : Nat) (b : UInt8) (bs : List UInt8) :
    Except SyntaxError (Token × Cursor) :=
  match (if behindItem then bounds? ⟨pos, b :: bs⟩ else none) with
  | some (.error e) => .error e
  | some (.ok ((min, max), d)) =>
    if d.sees '?' then .ok (.quantifier min max false, d.skip 1)
    else .ok (.quantifier min max true, d)
  | none => itemToken pos b bs

/-! ## Every token moves on -/

theorem bracketRanges_le {c d : Cursor} {first : Bool} {rs ranges : List (Nat × Nat)}
    (h : bracketRanges c first rs = .ok (ranges, d)) : d.rest.length ≤ c.rest.length := by
  fun_induction bracketRanges c first rs with
  | case1 => simp [Cursor.fail] at h
  | case2 =>
    simp only [Except.ok.injEq, Prod.mk.injEq] at h
    simp [← h.2, Cursor.skip]
  | case3 => simp at h
  | case4 _ _ _ _ _ _ _ _ _ _ hlt ih => exact Nat.le_trans (ih h) (Nat.le_of_lt hlt)

theorem escapedToken_le {loc : Location} {c d : Cursor} {t : Token}
    (h : escapedToken loc c = .ok (t, d)) : d.rest.length ≤ c.rest.length := by
  unfold escapedToken at h
  split at h
  · simp only [Except.ok.injEq, Prod.mk.injEq] at h
    simp [← h.2, Cursor.skip]
  · split at h
    · split at h
      · simp at h
      · rename_i hd
        have := hexPair_le hd
        simp only [Cursor.skip, List.length_drop] at this
        simp only [Except.ok.injEq, Prod.mk.injEq] at h
        rw [← h.2]
        omega
    · split at h
      · simp at h
      · rename_i hd
        have := escapedCodePoint_le hd
        simp only [Except.ok.injEq, Prod.mk.injEq] at h
        rw [← h.2]
        exact this

theorem groupToken_le {c d : Cursor} {t : Token} (h : groupToken c = .ok (t, d)) :
    d.rest.length ≤ c.rest.length := by
  unfold groupToken at h
  split at h
  · split at h <;> simp only [Except.ok.injEq, Prod.mk.injEq, Cursor.fail, reduceCtorEq] at h <;>
      simp [← h.2, Cursor.skip]
  · simp only [Except.ok.injEq, Prod.mk.injEq] at h
    simp [← h.2]

theorem itemToken_le {pos : Nat} {b : UInt8} {bs : List UInt8} {t : Token} {d : Cursor}
    (h : itemToken pos b bs = .ok (t, d)) : d.rest.length ≤ bs.length := by
  unfold itemToken at h
  split at h
  case h_3 => exact groupToken_le h
  case h_4 =>
    unfold bracket at h
    simp only at h
    split at h
    · simp at h
    · rename_i hr
      have := bracketRanges_le hr
      simp only [Except.ok.injEq, Prod.mk.injEq] at h
      rw [← h.2]
      split at this <;> simp [Cursor.skip] at this <;> omega
  case h_8 => exact escapedToken_le h
  case h_12 =>
    split at h
    · simp at h
    · rename_i hr
      simp only [Except.ok.injEq, Prod.mk.injEq] at h
      rw [← h.2]
      exact rawCodePoint_le hr
  all_goals
    simp only [Except.ok.injEq, Prod.mk.injEq, reduceCtorEq] at h
    try simp [← h.2]

theorem token_le {behindItem : Bool} {pos : Nat} {b : UInt8} {bs : List UInt8} {t : Token}
    {d : Cursor} (h : token behindItem pos b bs = .ok (t, d)) : d.rest.length ≤ bs.length := by
  unfold token at h
  split at h
  · simp at h
  · rename_i hb
    have hlt := bounds?_lt (Option.ite_none_right_eq_some.1 hb).2
    simp only [List.length_cons] at hlt
    split at h <;> simp only [Except.ok.injEq, Prod.mk.injEq] at h <;> rw [← h.2]
    · simp [Cursor.skip]
      omega
    · omega
  · exact itemToken_le h

/-! ## Open groups -/

/-- An alternation that is being read. Both lists hold the newest first, and
each item keeps the place where it starts. -/
structure Level where
  start : Nat
  branches : List Pattern := []
  branchStart : Nat
  items : List (Nat × Pattern) := []

namespace Level

/-- An alternation that starts at `pos`. -/
def begin (pos : Nat) : Level := { start := pos, branchStart := pos }

/-- The branch that is being read. -/
def branch (l : Level) : Pattern := .seq (some l.branchStart) (l.items.reverse.map (·.2))

/-- The node that the level stands for: its only branch, or an alternation. -/
def node (l : Level) : Pattern :=
  if l.branches.isEmpty then l.branch
  else .alt (some l.start) (l.branch :: l.branches).reverse

def push (l : Level) (pos : Nat) (p : Pattern) : Level := { l with items := (pos, p) :: l.items }

/-- Repeats the newest item. The repeat starts where the item does. -/
def repeatLast (l : Level) (min : Nat) (max : Option Nat) (greedy : Bool) : Level :=
  match l.items with
  | [] => l
  | (pos, p) :: items => { l with items := (pos, .rep (some pos) p min max greedy) :: items }

/-- Ends the branch, and starts the next one at `pos`. -/
def nextBranch (l : Level) (pos : Nat) : Level :=
  { l with branches := l.branch :: l.branches, branchStart := pos, items := [] }

end Level

/-- A group that is still open: its kind, its place, and the alternation that
it stands in. -/
structure OpenGroup where
  group : Group
  pos : Nat
  outer : Level

/-- The innermost alternation and the groups around it, the innermost first. -/
structure ParseState where
  level : Level
  groups : List OpenGroup

/-- The node of a group that starts at `pos`. A plain group is its content. -/
def Group.node (pos : Nat) (content : Pattern) : Group → Pattern
  | plain => content
  | around behind negated => .around (some pos) (some content) behind negated

namespace ParseState

/-- Takes in the token that starts at `pos` and ends before `next`. -/
def step (s : ParseState) (pos : Nat) (t : Token) (next : Nat) : Except SyntaxError ParseState :=
  match t with
  | .leaf p => .ok { s with level := s.level.push pos p }
  | .quantifier min max greedy => .ok { s with level := s.level.repeatLast min max greedy }
  | .bar => .ok { s with level := s.level.nextBranch next }
  | .opening group => .ok ⟨.begin next, ⟨group, pos, s.level⟩ :: s.groups⟩
  | .closing =>
    match s.groups with
    | [] => .error ⟨.unmatchedParenthesis, pos⟩
    | g :: groups => .ok ⟨g.outer.push g.pos (g.group.node g.pos s.level.node), groups⟩

/-- Takes in the rest of the text. -/
def run (s : ParseState) (c : Cursor) : Except SyntaxError Pattern :=
  match hrest : c.rest with
  | [] =>
    match s.groups with
    | [] => .ok s.level.node
    | _ :: _ => c.fail .missingParenthesis
  | b :: bs =>
    match htoken : token (!s.level.items.isEmpty) c.pos b bs with
    | .error e => .error e
    | .ok (t, d) =>
      have : d.rest.length < c.rest.length := by
        rw [hrest]
        exact Nat.lt_succ_of_le (token_le htoken)
      match s.step c.pos t d.pos with
      | .error e => .error e
      | .ok s' => run s' d
termination_by c.rest.length

end ParseState

/-- Reads the text of a pattern. -/
def parse (text : List UInt8) : Except SyntaxError Pattern :=
  ParseState.run ⟨.begin 0, []⟩ ⟨0, text⟩

end ByteRegex.Pattern
