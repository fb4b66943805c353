-- Random patterns are always meaningful. Whatever is drawn, the text is read as
-- a tree that an automaton can match, with valid ranges and bounds, in which
-- nothing is repeated that can match the empty string. The flag of each piece
-- bounds the flag of what is read from it, although a quantifier behind several
-- letters takes hold of the last one only.
import ByteRegex.Proofs.Draws
import ByteRegex.Proofs.Matches
import ByteRegex.Proofs.Pattern.RoundTrip
import ByteRegex.Sample.PatternText

namespace ByteRegex

open Pattern (Level OpenGroup ParseState Token)

namespace Pattern

/-- The node repeats only what consumes something. -/
def RepeatsConsuming : Pattern → Prop
  | rep _ body _ _ _ => body.nullable = false
  | _ => True

/-- An automaton can match every node, all ranges and bounds are valid, and every pass of a repeat
consumes something. -/
def Meaningful (p : Pattern) : Prop :=
  p.AllNodes fun n => n.construct? = none ∧ n.rangeFault? = none ∧ n.RepeatsConsuming

theorem meaningful_leaf {p : Pattern} (hnodes : p.nodes = [p]) (hconstruct : p.construct? = none)
    (hranges : p.rangeFault? = none) (hrepeat : p.RepeatsConsuming) : p.Meaningful := by
  intro n hn
  rw [hnodes, List.mem_singleton] at hn
  exact hn ▸ ⟨hconstruct, hranges, hrepeat⟩

theorem meaningful_rep {loc : Location} {body : Pattern} {min : Nat} {max : Option Nat}
    {greedy : Bool} (hbody : body.Meaningful) (hn : body.nullable = false)
    (hmax : ∀ m, max = some m → min ≤ m) : (rep loc body min max greedy).Meaningful := by
  refine allNodes_rep.2 ⟨⟨rfl, ?_, hn⟩, hbody⟩
  cases max with
  | none => rfl
  | some m => exact if_neg (Nat.not_lt_of_le (hmax m rfl))

/-! ## Levels -/

/-- The level with further items, the newest first. -/
def Level.add (l : Level) (items : List (Nat × Pattern)) : Level :=
  { l with items := items ++ l.items }

theorem Level.add_add (l : Level) (items items' : List (Nat × Pattern)) :
    (l.add items).add items' = l.add (items' ++ items) := by
  simp [add]

/-- A branch that was empty holds just what is added. -/
theorem meaningful_branch {l : Level} (hl : l.items = []) {items : List (Nat × Pattern)}
    (h : ∀ item ∈ items, item.2.Meaningful) : (l.add items).branch.Meaningful := by
  refine allNodes_seq.2 ⟨⟨rfl, rfl, trivial⟩, fun p hp => ?_⟩
  simp only [Level.add, hl, List.append_nil, List.map_reverse, List.mem_reverse,
    List.mem_map] at hp
  obtain ⟨item, hitem, rfl⟩ := hp
  exact h item hitem

theorem nullable_branch {l : Level} (hl : l.items = []) {items : List (Nat × Pattern)} :
    (l.add items).branch.nullable = true ↔ ∀ item ∈ items, item.2.nullable = true := by
  simp [Level.branch, Level.add, hl, nullable, allNullable_eq_all]

theorem meaningful_node {l : Level} (h : ∀ p ∈ l.parts, p.Meaningful) : l.node.Meaningful := by
  unfold Level.node
  split
  · exact h _ (by simp [Level.parts])
  · exact allNodes_alt.2 ⟨⟨rfl, rfl, trivial⟩, h⟩

theorem exists_nullable_part {l : Level} (h : l.node.nullable = true) :
    ∃ p ∈ l.parts, p.nullable = true := by
  unfold Level.node at h
  split at h
  · exact ⟨_, by simp [Level.parts], h⟩
  · rw [nullable, anyNullable_eq_any] at h
    exact List.any_eq_true.1 h

/-- The first branch of a level is its only part. -/
theorem parts_begin (pos : Nat) (items : List (Nat × Pattern)) :
    ((Level.begin pos).add items).parts = [((Level.begin pos).add items).branch] := rfl

theorem parts_nextBranch (l : Level) (pos : Nat) (items : List (Nat × Pattern)) :
    ((l.nextBranch pos).add items).parts =
      l.parts ++ [((l.nextBranch pos).add items).branch] := by
  simp [Level.parts, Level.nextBranch, Level.add]

end Pattern

namespace Sample

/-! ## How pieces are read -/

/-- The next byte is no question mark, which would make a quantifier before it lazy. -/
def NoMark (rest : List UInt8) : Prop := rest.head? ≠ some 0x3f

theorem noMark_cons {b : UInt8} {bs : List UInt8} (h : b ≠ 0x3f) : NoMark (b :: bs) :=
  fun heq => h (Option.some.inj heq)

/-- Before `rest` the text adds at least one item to the level. All of them are meaningful, and the
newest one is nullable only if the flag is set. -/
def Adds (bs : List UInt8) (flag : Bool) (rest : List UInt8) : Prop :=
  ∀ (l : Level) (groups : List OpenGroup) (pos : Nat), ∃ start q older next,
    q.Meaningful ∧ (q.nullable = true → flag = true) ∧
    (∀ item ∈ older, item.2.Meaningful) ∧
    ParseState.run ⟨l, groups⟩ ⟨pos, bs ++ rest⟩ =
      ParseState.run ⟨l.add ((start, q) :: older), groups⟩ ⟨next, rest⟩

/-- An item without a quantifier, which any text may follow. -/
structure ReadsAtom (bs : List UInt8) (flag : Bool) : Prop where
  head : ∀ rest, NoMark (bs ++ rest)
  adds : ∀ rest, Adds bs flag rest

/-- An item that may have a quantifier. -/
structure ReadsPiece (bs : List UInt8) (flag : Bool) : Prop where
  head : ∀ rest, NoMark (bs ++ rest)
  adds : ∀ rest, NoMark rest → Adds bs flag rest

/-- Items one after another. If all of them are nullable, the flag is set. -/
structure ReadsRow (bs : List UInt8) (flag : Bool) : Prop where
  head : ∀ rest, NoMark rest → NoMark (bs ++ rest)
  run : ∀ (l : Level) (groups : List OpenGroup) (pos : Nat) (rest : List UInt8), NoMark rest →
    ∃ items next, (∀ item ∈ items, item.2.Meaningful) ∧
      ((∀ item ∈ items, item.2.nullable = true) → flag = true) ∧
      ParseState.run ⟨l, groups⟩ ⟨pos, bs ++ rest⟩ =
        ParseState.run ⟨l.add items, groups⟩ ⟨next, rest⟩

/-- Branches with bars between them. If one of them is nullable, the flag is set. -/
structure ReadsBranches (bs : List UInt8) (flag : Bool) : Prop where
  head : ∀ rest, NoMark rest → NoMark (bs ++ rest)
  run : ∀ (groups : List OpenGroup) (pos : Nat) (rest : List UInt8), NoMark rest →
    ∃ l next, (∀ p ∈ l.parts, p.Meaningful) ∧
      ((∃ p ∈ l.parts, p.nullable = true) → flag = true) ∧
      ParseState.run ⟨.begin pos, groups⟩ ⟨pos, bs ++ rest⟩ =
        ParseState.run ⟨l, groups⟩ ⟨next, rest⟩

/-! ## Items without a quantifier -/

/-- The text is read as one leaf, whatever stands around it. -/
def LeafText (bs : List UInt8) (leaf : Location → Pattern) : Prop :=
  ∀ (behind : Bool) (pos : Nat) (rest : List UInt8), ∃ b tail next, bs ++ rest = b :: tail ∧
    Pattern.token behind pos b tail = .ok (.leaf (leaf (some pos)), ⟨next, rest⟩)

theorem LeafText.atom {bs : List UInt8} {leaf : Location → Pattern} {flag : Bool}
    (h : LeafText bs leaf) (hleaf : ∀ loc, (leaf loc).Meaningful)
    (hflag : ∀ loc, (leaf loc).nullable = true → flag = true) : ReadsAtom bs flag := by
  refine ⟨fun rest hhead => ?_, fun rest l groups pos => ?_⟩
  · obtain ⟨b, tail, next, htext, htoken⟩ := h false 0 rest
    rw [htext] at hhead
    obtain rfl := Option.some.inj hhead
    cases htoken
  · obtain ⟨b, tail, next, htext, htoken⟩ := h (!l.items.isEmpty) pos rest
    refine ⟨pos, leaf (some pos), [], next, hleaf _, hflag _, nofun, ?_⟩
    rw [htext]
    exact Pattern.run_token htoken rfl

/-- Of two items one after the other the second is the newest. -/
theorem ReadsAtom.append {bs bs' : List UInt8} {flag flag' : Bool} (h : ReadsAtom bs flag)
    (h' : ReadsAtom bs' flag') : ReadsAtom (bs ++ bs') flag' := by
  refine ⟨fun rest => List.append_assoc bs bs' rest ▸ h.head _, fun rest l groups pos => ?_⟩
  obtain ⟨start, q, older, next, hq, _, holder, hrun⟩ := h.adds (bs' ++ rest) l groups pos
  obtain ⟨start', q', older', next', hq', hflag', holder', hrun'⟩ :=
    h'.adds rest (l.add ((start, q) :: older)) groups next
  refine ⟨start', q', older' ++ (start, q) :: older, next', hq', hflag', ?_, ?_⟩
  · intro item hitem
    rcases List.mem_append.1 hitem with hitem | hitem
    · exact holder' item hitem
    · rcases List.mem_cons.1 hitem with rfl | hitem
      · exact hq
      · exact holder item hitem
  · rw [List.append_assoc, hrun, hrun', Level.add_add]
    rfl

theorem ReadsAtom.piece {bs : List UInt8} {flag : Bool} (h : ReadsAtom bs flag) :
    ReadsPiece bs flag :=
  ⟨h.head, fun rest _ => h.adds rest⟩

theorem readsAtom_chars {bs : List UInt8} (ranges : List (Nat × Nat)) (negated : Bool)
    (hranges : Pattern.charRangeFault? ranges = none)
    (h : LeafText bs fun loc => .chars loc ranges negated) : ReadsAtom bs false :=
  h.atom (fun _ => Pattern.meaningful_leaf rfl rfl hranges trivial) fun _ => id

theorem readsAtom_bytes {bs : List UInt8} (ranges : List (UInt8 × UInt8))
    (hranges : Pattern.byteRangeFault? ranges = none)
    (h : LeafText bs fun loc => .bytes loc ranges) : ReadsAtom bs false :=
  h.atom (fun _ => Pattern.meaningful_leaf rfl rfl hranges trivial) fun _ => id

theorem readsAtom_anchor {bs : List UInt8} (atEnd : Bool)
    (h : LeafText bs fun loc => .anchor loc atEnd) : ReadsAtom bs true :=
  h.atom (fun _ => Pattern.meaningful_leaf rfl rfl rfl trivial) fun _ _ => rfl

theorem readsAtom_wordEdge {bs : List UInt8} (negated : Bool)
    (h : LeafText bs fun loc => .wordEdge loc negated) : ReadsAtom bs true :=
  h.atom (fun _ => Pattern.meaningful_leaf rfl rfl rfl trivial) fun _ _ => rfl

/-- The bracket `[a-c]`. -/
theorem leafText_lettersInBrackets :
    LeafText [0x5b, 0x61, 0x2d, 0x63, 0x5d] fun loc => .chars loc [(0x61, 0x63)] false := by
  intro behind pos rest
  have hitem : Pattern.bracketItem (pos + 1) 0x61 (0x2d :: 0x63 :: 0x5d :: rest)
      = .ok ([(0x61, 0x63)], ⟨pos + 4, 0x5d :: rest⟩) := rfl
  have hranges : Pattern.bracketRanges ⟨pos + 1, 0x61 :: 0x2d :: 0x63 :: 0x5d :: rest⟩ true []
      = .ok ([(0x61, 0x63)], ⟨pos + 5, rest⟩) := by
    rw [Pattern.bracketRanges_item (by decide) hitem]
    exact Pattern.bracketRanges_close (pos + 4) rest _
  refine ⟨_, _, pos + 5, rfl, ?_⟩
  cases behind <;> exact Pattern.bracket_of_ranges hranges

/-- The bracket `[^a]`. -/
theorem leafText_otherThanLetter :
    LeafText [0x5b, 0x5e, 0x61, 0x5d] fun loc => .chars loc [(0x61, 0x61)] true := by
  intro behind pos rest
  have hitem : Pattern.bracketItem (pos + 2) 0x61 (0x5d :: rest)
      = .ok ([(0x61, 0x61)], ⟨pos + 3, 0x5d :: rest⟩) := by
    -- no dash follows the letter, whatever stands behind the bracket
    cases rest <;> rfl
  have hranges : Pattern.bracketRanges ⟨pos + 2, 0x61 :: 0x5d :: rest⟩ true []
      = .ok ([(0x61, 0x61)], ⟨pos + 4, rest⟩) := by
    rw [Pattern.bracketRanges_item (by decide) hitem]
    exact Pattern.bracketRanges_close (pos + 3) rest _
  refine ⟨_, _, pos + 4, rfl, ?_⟩
  cases behind <;> exact Pattern.bracket_of_ranges hranges

/-- Every item that consumes something is read as such an item. The only one that is read as two is
`ab`. -/
theorem readsAtom_consuming {s : String} (hs : s ∈ Piece.consumingItems) :
    ReadsAtom (utf8Bytes s).toList false := by
  have ha : ReadsAtom [0x61] false := by
    refine readsAtom_chars [(0x61, 0x61)] false rfl fun behind pos rest => ?_
    cases behind <;> exact ⟨_, _, _, rfl, rfl⟩
  have hb : ReadsAtom [0x62] false := by
    refine readsAtom_chars [(0x62, 0x62)] false rfl fun behind pos rest => ?_
    cases behind <;> exact ⟨_, _, _, rfl, rfl⟩
  simp only [Piece.consumingItems, List.mem_cons, List.not_mem_nil, or_false] at hs
  rcases hs with rfl | rfl | rfl | rfl | rfl | rfl | rfl | rfl | rfl | rfl | rfl | rfl | rfl | rfl |
    rfl
  · exact ha
  · exact hb
  · refine readsAtom_chars [(0x63, 0x63)] false rfl fun behind pos rest => ?_
    cases behind <;> exact ⟨_, _, _, rfl, rfl⟩
  · exact ha.append hb
  · refine readsAtom_chars [(0xe9, 0xe9)] false rfl fun behind pos rest => ?_
    cases behind <;> exact ⟨_, _, _, rfl, rfl⟩
  · refine readsAtom_chars [(0x20ac, 0x20ac)] false rfl fun behind pos rest => ?_
    cases behind <;> exact ⟨_, _, _, rfl, rfl⟩
  · refine readsAtom_chars [(0x1f600, 0x1f600)] false rfl fun behind pos rest => ?_
    cases behind <;> exact ⟨_, _, _, rfl, rfl⟩
  · exact readsAtom_chars _ _ rfl leafText_lettersInBrackets
  · exact readsAtom_chars _ _ rfl leafText_otherThanLetter
  · refine readsAtom_chars Pattern.wordRanges false rfl fun behind pos rest => ?_
    cases behind <;> exact ⟨_, _, _, rfl, rfl⟩
  · refine readsAtom_chars Pattern.digitRanges false rfl fun behind pos rest => ?_
    cases behind <;> exact ⟨_, _, _, rfl, rfl⟩
  · refine readsAtom_chars [(0, maxCodePoint)] false rfl fun behind pos rest => ?_
    cases behind <;> exact ⟨_, _, _, rfl, rfl⟩
  · refine readsAtom_bytes [(0x00, 0xff)] rfl fun behind pos rest => ?_
    cases behind <;> exact ⟨_, _, _, rfl, rfl⟩
  · refine readsAtom_bytes [(0xff, 0xff)] rfl fun behind pos rest => ?_
    cases behind <;> exact ⟨_, _, _, rfl, rfl⟩
  · refine readsAtom_chars [(0x20, 0x20)] false rfl fun behind pos rest => ?_
    cases behind <;> exact ⟨_, _, _, rfl, rfl⟩

/-- Every item that only looks at the text is read as such an item. -/
theorem readsAtom_empty {s : String} (hs : s ∈ Piece.emptyItems) :
    ReadsAtom (utf8Bytes s).toList true := by
  simp only [Piece.emptyItems, List.mem_cons, List.not_mem_nil, or_false] at hs
  rcases hs with rfl | rfl | rfl | rfl
  · refine readsAtom_anchor false fun behind pos rest => ?_
    cases behind <;> exact ⟨_, _, _, rfl, rfl⟩
  · refine readsAtom_anchor true fun behind pos rest => ?_
    cases behind <;> exact ⟨_, _, _, rfl, rfl⟩
  · refine readsAtom_wordEdge false fun behind pos rest => ?_
    cases behind <;> exact ⟨_, _, _, rfl, rfl⟩
  · refine readsAtom_wordEdge true fun behind pos rest => ?_
    cases behind <;> exact ⟨_, _, _, rfl, rfl⟩

/-! ## Quantifiers -/

theorem bounds_quantifier {q : String × Bool} (hq : q ∈ Piece.quantifiers) :
    ∃ b tail min max, (utf8Bytes q.1).toList = b :: tail ∧ (∀ m, max = some m → min ≤ m) ∧
      (min = 0 → q.2 = true) ∧ ∀ pos rest, ∃ next,
        Pattern.bounds? ⟨pos, b :: (tail ++ rest)⟩ = some (.ok ((min, max), ⟨next, rest⟩)) := by
  simp only [Piece.quantifiers, List.mem_cons, List.not_mem_nil, or_false] at hq
  rcases hq with rfl | rfl | rfl | rfl | rfl | rfl | rfl
  · exact ⟨_, [], 0, none, rfl, by decide, by decide, fun pos rest => ⟨_, rfl⟩⟩
  · exact ⟨_, [], 1, none, rfl, by decide, by decide, fun pos rest => ⟨_, rfl⟩⟩
  · exact ⟨_, [], 0, some 1, rfl, by decide, by decide, fun pos rest => ⟨_, rfl⟩⟩
  · exact ⟨_, [_, _], 2, some 2, rfl, by decide, by decide, fun pos rest => ⟨_, rfl⟩⟩
  · exact ⟨_, [_, _, _, _], 0, some 2, rfl, by decide, by decide, fun pos rest => ⟨_, rfl⟩⟩
  · exact ⟨_, [_, _, _, _], 1, some 3, rfl, by decide, by decide, fun pos rest => ⟨_, rfl⟩⟩
  · exact ⟨_, [_, _, _], 2, none, rfl, by decide, by decide, fun pos rest => ⟨_, rfl⟩⟩

/-- The question mark that makes a quantifier lazy. -/
def lazyMark (lazy : Bool) : List UInt8 := if lazy then [0x3f] else []

/-- A quantifier is read as such behind an item, and as lazy just if its mark is there. -/
theorem token_quantifier {q : String × Bool} (hq : q ∈ Piece.quantifiers) :
    ∃ min max, (∀ m, max = some m → min ≤ m) ∧ (min = 0 → q.2 = true) ∧
      ∀ (lazy : Bool) (pos : Nat) (rest : List UInt8), NoMark rest →
        ∃ b tail next, (utf8Bytes q.1).toList ++ (lazyMark lazy ++ rest) = b :: tail ∧
          Pattern.token true pos b tail = .ok (.quantifier min max !lazy, ⟨next, rest⟩) := by
  obtain ⟨b, tail, min, max, htext, hmax, hflag, hbounds⟩ := bounds_quantifier hq
  refine ⟨min, max, hmax, hflag, fun lazy pos rest hrest => ?_⟩
  obtain ⟨next, hnext⟩ := hbounds pos (lazyMark lazy ++ rest)
  cases lazy with
  | false =>
    refine ⟨b, tail ++ (lazyMark false ++ rest), next, by rw [htext]; rfl, ?_⟩
    rw [Pattern.token_of_bounds hnext, if_neg]
    · rfl
    · exact Bool.eq_false_iff.1 (Pattern.not_sees_question hrest next)
  | true =>
    refine ⟨b, tail ++ (lazyMark true ++ rest), next + 1, by rw [htext]; rfl, ?_⟩
    rw [Pattern.token_of_bounds hnext]
    rfl

/-- A quantifier takes hold of the newest item, which consumes something. -/
theorem ReadsAtom.quantified {bs : List UInt8} {q : String × Bool} (h : ReadsAtom bs false)
    (hq : q ∈ Piece.quantifiers) (lazy : Bool) :
    ReadsPiece (bs ++ ((utf8Bytes q.1).toList ++ lazyMark lazy)) q.2 := by
  obtain ⟨min, max, hmax, hflag, htoken⟩ := token_quantifier hq
  refine ⟨fun rest => List.append_assoc bs _ rest ▸ h.head _, fun rest hrest l groups pos => ?_⟩
  obtain ⟨start, x, older, next, hx, hconsumes, holder, hrun⟩ :=
    h.adds ((utf8Bytes q.1).toList ++ (lazyMark lazy ++ rest)) l groups pos
  obtain ⟨b, tail, next', htext, htoken⟩ := htoken lazy next rest hrest
  have hbody : x.nullable = false := Bool.eq_false_iff.2 fun hn => by cases hconsumes hn
  refine ⟨start, .rep (some start) x min max !lazy, older, next',
    Pattern.meaningful_rep hx hbody hmax, fun hn => hflag ?_, holder, ?_⟩
  · simpa [Pattern.nullable, hbody] using hn
  · rw [List.append_assoc, List.append_assoc, hrun, htext]
    exact Pattern.run_token htoken rfl

/-! ## Groups -/

/-- Any group of a pattern opens an empty level, if no question mark follows. -/
theorem run_opening (capturing : Bool) (l : Level) (groups : List OpenGroup) (pos : Nat)
    {rest : List UInt8} (hrest : NoMark rest) : ∃ next,
    ParseState.run ⟨l, groups⟩
        ⟨pos, (utf8Bytes (if capturing then "(" else "(?:")).toList ++ rest⟩ =
      ParseState.run ⟨.begin next, ⟨.plain, pos, l⟩ :: groups⟩ ⟨next, rest⟩ := by
  cases capturing with
  | false => exact Pattern.run_opening .plain l groups pos rest
  | true =>
    have hgroup : Pattern.groupToken ⟨pos + 1, rest⟩ = .ok (.opening .plain, ⟨pos + 1, rest⟩) := by
      unfold Pattern.groupToken
      rw [if_neg]
      exact Bool.eq_false_iff.1 (Pattern.not_sees_question hrest _)
    have htoken : ∀ behind, Pattern.token behind pos 0x28 rest
        = .ok (.opening .plain, ⟨pos + 1, rest⟩) := by
      intro behind
      cases behind <;> exact hgroup
    exact ⟨pos + 1, Pattern.run_token (htoken _) rfl⟩

theorem utf8Bytes_append (s t : String) :
    (utf8Bytes (s ++ t)).toList = (utf8Bytes s).toList ++ (utf8Bytes t).toList := by
  simp [utf8Bytes]

theorem ReadsBranches.grouped {p : Piece} (h : ReadsBranches (utf8Bytes p.text).toList p.nullable)
    (capturing : Bool) :
    ReadsAtom (utf8Bytes (Piece.grouped capturing p).text).toList p.nullable := by
  have htext : ∀ rest, (utf8Bytes (Piece.grouped capturing p).text).toList ++ rest =
      (utf8Bytes (if capturing then "(" else "(?:")).toList ++
        ((utf8Bytes p.text).toList ++ 0x29 :: rest) := by
    intro rest
    rw [Piece.grouped, utf8Bytes_append, utf8Bytes_append, List.append_assoc, List.append_assoc]
    rfl
  have hclose : ∀ rest, NoMark (0x29 :: rest) := fun rest => noMark_cons (by decide)
  refine ⟨fun rest => ?_, fun rest l groups pos => ?_⟩
  · rw [htext]
    cases capturing <;> exact noMark_cons (by decide)
  · rw [htext]
    obtain ⟨next, hopen⟩ := run_opening capturing l groups pos (h.head _ (hclose rest))
    obtain ⟨inner, next', hparts, hflag, hrun⟩ :=
      h.run (⟨.plain, pos, l⟩ :: groups) next (0x29 :: rest) (hclose rest)
    refine ⟨pos, inner.node, [], next' + 1, Pattern.meaningful_node hparts,
      fun hn => hflag (Pattern.exists_nullable_part hn), nofun, ?_⟩
    rw [hopen, hrun]
    exact Pattern.run_closing inner l .plain pos groups next' rest

/-! ## Rows and branches -/

theorem ReadsRow.nil : ReadsRow [] true :=
  ⟨fun _ => id, fun _ _ pos _ _ => ⟨[], pos, nofun, fun _ => rfl, rfl⟩⟩

theorem ReadsRow.snoc {bs bs' : List UInt8} {flag flag' : Bool} (h : ReadsRow bs flag)
    (h' : ReadsPiece bs' flag') : ReadsRow (bs ++ bs') (flag && flag') := by
  refine ⟨fun rest _ => List.append_assoc bs bs' rest ▸ h.head _ (h'.head rest), ?_⟩
  intro l groups pos rest hrest
  obtain ⟨items, next, hitems, hflag, hrun⟩ := h.run l groups pos (bs' ++ rest) (h'.head rest)
  obtain ⟨start, q, older, next', hq, hflag', holder, hrun'⟩ :=
    h'.adds rest hrest (l.add items) groups next
  refine ⟨(start, q) :: (older ++ items), next', ?_, fun hall => ?_, ?_⟩
  · intro item hitem
    rcases List.mem_cons.1 hitem with rfl | hitem
    · exact hq
    · rcases List.mem_append.1 hitem with hitem | hitem
      · exact holder item hitem
      · exact hitems item hitem
  · have hnewest := hflag' (hall (start, q) List.mem_cons_self)
    have hfirst := hflag fun item hitem =>
      hall item (List.mem_cons_of_mem _ (List.mem_append_right older hitem))
    rw [hfirst, hnewest]
    rfl
  · rw [List.append_assoc, hrun, hrun', Level.add_add]
    rfl

theorem ReadsRow.branches {bs : List UInt8} {flag : Bool} (h : ReadsRow bs flag) :
    ReadsBranches bs flag := by
  refine ⟨h.head, fun groups pos rest hrest => ?_⟩
  obtain ⟨items, next, hitems, hflag, hrun⟩ := h.run (.begin pos) groups pos rest hrest
  refine ⟨(Level.begin pos).add items, next, ?_, ?_, hrun⟩
  · intro p hp
    rw [Pattern.parts_begin, List.mem_singleton] at hp
    exact hp ▸ Pattern.meaningful_branch rfl hitems
  · rintro ⟨p, hp, hn⟩
    rw [Pattern.parts_begin, List.mem_singleton] at hp
    exact hflag ((Pattern.nullable_branch rfl).1 (hp ▸ hn))

theorem ReadsBranches.snoc {bs bs' : List UInt8} {flag flag' : Bool} (h : ReadsBranches bs flag)
    (h' : ReadsRow bs' flag') : ReadsBranches (bs ++ 0x7c :: bs') (flag || flag') := by
  have hbar : ∀ rest, NoMark (0x7c :: rest) := fun rest => noMark_cons (by decide)
  refine ⟨fun rest _ => List.append_assoc bs _ rest ▸ h.head _ (hbar _), ?_⟩
  intro groups pos rest hrest
  obtain ⟨l, next, hparts, hflag, hrun⟩ := h.run groups pos (0x7c :: (bs' ++ rest)) (hbar _)
  obtain ⟨items, next', hitems, hflag', hrun'⟩ :=
    h'.run (l.nextBranch (next + 1)) groups (next + 1) rest hrest
  refine ⟨(l.nextBranch (next + 1)).add items, next', ?_, ?_, ?_⟩
  · intro p hp
    rw [Pattern.parts_nextBranch, List.mem_append, List.mem_singleton] at hp
    rcases hp with hp | rfl
    · exact hparts p hp
    · exact Pattern.meaningful_branch rfl hitems
  · rintro ⟨p, hp, hn⟩
    rw [Pattern.parts_nextBranch, List.mem_append, List.mem_singleton] at hp
    rcases hp with hp | rfl
    · rw [hflag ⟨p, hp, hn⟩]
      rfl
    · rw [hflag' ((Pattern.nullable_branch rfl).1 hn), Bool.or_true]
  · rw [List.append_assoc]
    exact hrun.trans ((Pattern.run_bar l groups next _).trans hrun')

/-! ## What is drawn -/

/-- Whatever numbers are drawn, a choice that comes to an end makes something with the property. -/
def Always {α : Type} (g : Piece.Gen α) (P : α → Prop) : Prop :=
  ∀ ⦃d : Draws⦄ ⦃a : α⦄ ⦃d' : Draws⦄, g d = some (a, d') → P a

namespace Always

variable {α β : Type} {P : α → Prop} {Q : β → Prop}

theorem pure {a : α} (h : P a) : Always (pure a) P := by
  intro d a' d' heq
  cases heq
  exact h

theorem bind {g : Piece.Gen α} {f : α → Piece.Gen β} (hg : Always g P)
    (hf : ∀ a, P a → Always (f a) Q) : Always (g >>= f) Q := by
  intro d b d' heq
  cases hgd : g d with
  | none => simp [Bind.bind, StateT.bind, hgd] at heq
  | some made =>
    simp only [Bind.bind, StateT.bind, hgd] at heq
    exact hf made.1 (hg hgd) heq

theorem draw {c : Draw α} (h : ∀ d, P (c d).1) : Always (Piece.draw c) P := by
  intro d a d' heq
  obtain rfl : (c d).1 = a := congrArg Prod.fst (Option.some.inj heq)
  exact h d

/-- A number whose value does not matter. -/
theorem roll {c : Draw α} {f : α → Piece.Gen β} (hf : ∀ a, Always (f a) Q) :
    Always (Piece.draw c >>= f) Q :=
  bind (draw (P := fun _ => True) fun _ => trivial) fun a _ => hf a

end Always

/-- The text of the piece is read in such a way, and its flag is right about it. -/
def Piece.Reads (how : List UInt8 → Bool → Prop) (p : Piece) : Prop :=
  how (utf8Bytes p.text).toList p.nullable

variable {group : Option (Piece.Gen Piece)}

theorem always_item (hgroup : ∀ g, group = some g → Always g (Piece.Reads ReadsBranches)) :
    Always (Piece.item group) (Piece.Reads ReadsAtom) := by
  unfold Piece.item
  refine Always.roll fun roll => ?_
  split
  · refine Always.bind (Always.draw fun d => Draws.pick_mem (by decide) d) fun s hs => ?_
    exact Always.pure (readsAtom_empty hs)
  · split
    next inner _ =>
      refine Always.bind (hgroup inner rfl) fun content hcontent => ?_
      exact Always.roll fun capturing => Always.pure (hcontent.grouped _)
    next =>
      refine Always.bind (Always.draw fun d => Draws.pick_mem (by decide) d) fun s hs => ?_
      exact Always.pure (readsAtom_consuming hs)

theorem always_quantify {p : Piece} (hp : p.Reads ReadsAtom) :
    Always (Piece.quantify p) (Piece.Reads ReadsPiece) := by
  unfold Piece.quantify
  split
  · exact Always.pure hp.piece
  next hn =>
    refine Always.roll fun roll => ?_
    split
    · exact Always.pure hp.piece
    · refine Always.bind (Always.draw fun d => Draws.pick_mem (by decide) d) fun q hq => ?_
      refine Always.roll fun mark => Always.pure ?_
      have hatom : ReadsAtom (utf8Bytes p.text).toList false := Bool.eq_false_iff.2 hn ▸ hp
      have hmark : (utf8Bytes (if mark = 0 then "?" else "")).toList = lazyMark (mark == 0) := by
        cases mark <;> rfl
      unfold Piece.Reads
      rw [utf8Bytes_append, utf8Bytes_append, List.append_assoc, hmark]
      exact hatom.quantified hq (mark == 0)

/-- Each further item goes behind the row. -/
theorem always_items (hgroup : ∀ g, group = some g → Always g (Piece.Reads ReadsBranches))
    (n : Nat) {row : Piece} (hrow : row.Reads ReadsRow) :
    Always (Piece.items group n row) (Piece.Reads ReadsRow) := by
  induction n generalizing row with
  | zero => exact Always.pure hrow
  | succ n ih =>
    refine Always.bind (always_item hgroup) fun atom hatom => ?_
    refine Always.bind (always_quantify hatom) fun p hp => ih ?_
    unfold Piece.Reads
    rw [utf8Bytes_append]
    exact ReadsRow.snoc hrow hp

theorem always_sequence (hgroup : ∀ g, group = some g → Always g (Piece.Reads ReadsBranches)) :
    Always (Piece.sequence group) (Piece.Reads ReadsRow) :=
  Always.roll fun n => always_items hgroup n ReadsRow.nil

theorem always_branches (hgroup : ∀ g, group = some g → Always g (Piece.Reads ReadsBranches))
    (n : Nat) {first : Piece} (hfirst : first.Reads ReadsBranches) :
    Always (Piece.branches group n first) (Piece.Reads ReadsBranches) := by
  induction n generalizing first with
  | zero => exact fun _ _ _ heq => nomatch heq
  | succ n ih =>
    unfold Piece.branches
    refine Always.roll fun roll => ?_
    split
    · exact Always.pure hfirst
    · refine Always.bind (always_sequence hgroup) fun row hrow => ih ?_
      unfold Piece.Reads
      rw [utf8Bytes_append, utf8Bytes_append, List.append_assoc]
      exact ReadsBranches.snoc hfirst hrow

theorem always_alternationOf (hgroup : ∀ g, group = some g → Always g (Piece.Reads ReadsBranches)) :
    Always (Piece.alternationOf group) (Piece.Reads ReadsBranches) := by
  refine Always.bind (always_sequence hgroup) fun row hrow => ?_
  refine Always.bind (P := fun _ => True) (fun _ _ _ _ => trivial) fun d _ => ?_
  exact always_branches hgroup _ (ReadsRow.branches hrow)

/-- Groups hold what is drawn one level deeper. -/
theorem always_alternation (depth : Nat) :
    Always (Piece.alternation depth) (Piece.Reads ReadsBranches) := by
  induction depth with
  | zero => exact always_alternationOf nofun
  | succ depth ih =>
    refine always_alternationOf fun g hg => ?_
    obtain rfl := Option.some.inj hg
    exact ih

theorem always_patternText (depth : Nat) :
    Always (patternText depth) fun text => ∃ flag, ReadsBranches (utf8Bytes text).toList flag :=
  Always.bind (always_alternation depth) fun p hp => Always.pure ⟨p.nullable, hp⟩

/-- A text that is read as branches is a pattern. -/
theorem ReadsBranches.parse {bs : List UInt8} {flag : Bool} (h : ReadsBranches bs flag) :
    ∃ p, Pattern.parse bs = .ok p ∧ p.Meaningful := by
  obtain ⟨l, next, hparts, _, hrun⟩ := h.run [] 0 [] nofun
  refine ⟨l.node, ?_, Pattern.meaningful_node hparts⟩
  rw [List.append_nil] at hrun
  exact hrun.trans (Pattern.run_end l next)

/-- A random pattern is read as a tree without back-references and assertions, with valid ranges and
bounds, and no repeat in it has a body that can match the empty string. This is so for any depth and
any numbers that are drawn, if the making comes to an end. -/
theorem patternText_meaningful (depth : Nat) {d d' : Draws} {text : String}
    (h : patternText depth d = some (text, d')) :
    ∃ p, Pattern.parse (utf8Bytes text).toList = .ok p ∧ p.Supported ∧ p.Ranged ∧
      p.AllNodes Pattern.RepeatsConsuming := by
  obtain ⟨flag, hreads⟩ := always_patternText depth h
  obtain ⟨p, hp, hnodes⟩ := hreads.parse
  exact ⟨p, hp, fun n hn => (hnodes n hn).1, fun n hn => (hnodes n hn).2.1,
    fun n hn => (hnodes n hn).2.2⟩

/-- Numbers that draw a repeated group with a lazy quantifier in it. -/
def groupDraws : Draws :=
  ⟨#[1, 1, 1, 2, 0, 1, 0, 2, 0, 0, 2, 3, 0, 3, 0, 1, 0, 0, 0, 1, 2, 4, 1, 1], 0⟩

theorem patternText_meaningful_group :
    patternText 1 groupDraws = some ("(?:a\\b|ab\x7b2\x7d?)*é", groupDraws) ∧
      ∃ p, Pattern.parse (utf8Bytes "(?:a\\b|ab\x7b2\x7d?)*é").toList = .ok p ∧ p.Supported ∧
        p.Ranged ∧ p.AllNodes Pattern.RepeatsConsuming :=
  have h : patternText 1 groupDraws = some ("(?:a\\b|ab\x7b2\x7d?)*é", groupDraws) := by
    decide +kernel
  ⟨h, patternText_meaningful 1 h⟩

end Sample

end ByteRegex
