-- Where the nodes of a tree that was read stand in the text. Every node has a place in it,
-- the places do not fall when the tree is walked in order, and no two parts of a sequence
-- share one. What carries this through a run is that an item lies between the place where it
-- starts and the place where the next one does.
import ByteRegex.Proofs.Matches
import ByteRegex.Proofs.Pattern.Guard

namespace ByteRegex.Pattern

variable {r : Nat → Nat → Prop} {lo mid hi hi' : Nat} {p : Pattern} {ps qs : List Pattern}

/-! ## Nodes in a stretch of the text -/

/-- The nodes have places from `lo` on and before `hi`, and each two of them are in the order. -/
def Placed (r : Nat → Nat → Prop) (lo hi : Nat) (ps : List Pattern) : Prop :=
  ∃ places : List Nat, ps.map loc = places.map some ∧ places.Pairwise r ∧
    ∀ i ∈ places, lo ≤ i ∧ i < hi

theorem placed_nil : Placed r lo hi [] := ⟨[], rfl, List.Pairwise.nil, by simp⟩

theorem placed_single {i : Nat} (hp : p.loc = some i) (hlo : lo ≤ i) (hhi : i < hi) :
    Placed r lo hi [p] :=
  ⟨[i], by simp [hp], List.pairwise_singleton _ _, by simp [hlo, hhi]⟩

namespace Placed

theorem mem (h : Placed r lo hi ps) (hp : p ∈ ps) : ∃ i, p.loc = some i ∧ lo ≤ i ∧ i < hi := by
  obtain ⟨places, hplaces, _, hbounds⟩ := h
  have hmem : p.loc ∈ places.map some := hplaces ▸ List.mem_map_of_mem hp
  obtain ⟨i, hi, heq⟩ := List.mem_map.1 hmem
  exact ⟨i, heq.symm, hbounds i hi⟩

theorem mono {lo' : Nat} (h : Placed r lo hi ps) (hlo : lo' ≤ lo) (hhi : hi ≤ hi') :
    Placed r lo' hi' ps := by
  obtain ⟨places, hplaces, horder, hbounds⟩ := h
  refine ⟨places, hplaces, horder, fun i hi => ?_⟩
  have := hbounds i hi
  omega

/-- Of two stretches one after the other, the nodes of the first come first. -/
theorem append (h : Placed r lo mid ps) (h' : Placed r mid hi qs) (hlo : lo ≤ mid)
    (hhi : mid ≤ hi) (hr : ∀ i j, i < j → r i j) : Placed r lo hi (ps ++ qs) := by
  obtain ⟨places, hplaces, horder, hbounds⟩ := h
  obtain ⟨places', hplaces', horder', hbounds'⟩ := h'
  refine ⟨places ++ places', by simp [hplaces, hplaces'], ?_, fun i hi => ?_⟩
  · refine List.pairwise_append.2 ⟨horder, horder', fun i hi j hj => hr i j ?_⟩
    have := hbounds i hi
    have := hbounds' j hj
    omega
  · rcases List.mem_append.1 hi with hi | hi
    · have := hbounds i hi
      omega
    · have := hbounds' i hi
      omega

/-- A node before others that start no earlier. -/
theorem cons (h : Placed (· ≤ ·) lo hi ps) (hp : p.loc = some lo) (hlt : lo < hi) :
    Placed (· ≤ ·) lo hi (p :: ps) := by
  obtain ⟨places, hplaces, horder, hbounds⟩ := h
  refine ⟨lo :: places, by simp [hp, hplaces], ?_, ?_⟩
  · exact List.pairwise_cons.2 ⟨fun i hi => (hbounds i hi).1, horder⟩
  · exact List.forall_mem_cons.2 ⟨⟨Nat.le_refl lo, hlt⟩, hbounds⟩

end Placed

/-- The parts of a sequence stand at different places, in order. -/
def Spread : Pattern → Prop
  | seq _ parts => ∃ lo hi, Placed (· < ·) lo hi parts
  | _ => True

/-- An alternation has a branch. -/
def HasBranches : Pattern → Prop
  | alt _ parts => parts ≠ []
  | _ => True

/-- The whole tree lies in a stretch of the text. -/
structure Lies (lo hi : Nat) (p : Pattern) : Prop where
  nodes : Placed (· ≤ ·) lo hi p.nodes
  spread : p.AllNodes Spread

namespace Lies

theorem mono {lo' : Nat} (h : Lies lo hi p) (hlo : lo' ≤ lo) (hhi : hi ≤ hi') : Lies lo' hi' p :=
  ⟨h.nodes.mono hlo hhi, h.spread⟩

theorem root (h : Lies lo hi p) : ∃ i, p.loc = some i ∧ lo ≤ i ∧ i < hi := by
  refine h.nodes.mem ?_
  cases p <;> simp [Pattern.nodes]

theorem lt (h : Lies lo hi p) : lo < hi := by
  obtain ⟨i, _, hlo, hhi⟩ := h.root
  omega

end Lies

theorem lies_leaf {i : Nat} (hnodes : p.nodes = [p]) (hp : p.loc = some i) (hlt : i < hi) :
    Lies i hi p := by
  refine ⟨hnodes ▸ placed_single hp (Nat.le_refl i) hlt, fun n hn => ?_⟩
  obtain rfl : n = p := by simpa [hnodes] using hn
  cases n with
  | seq _ parts =>
    cases parts with
    | nil => exact ⟨0, 0, placed_nil⟩
    | cons q qs => cases q <;> simp [nodes, nodesOfList] at hnodes
  | _ => trivial

theorem lies_rep {min : Nat} {max : Option Nat} {greedy : Bool} (h : Lies lo hi p) :
    Lies lo hi (.rep (some lo) p min max greedy) :=
  ⟨h.nodes.cons rfl h.lt, allNodes_rep.2 ⟨trivial, h.spread⟩⟩

/-! ## Trees one after another -/

/-- Trees in a stretch of the text, the last one first. Each lies between the number that it is
marked with and that of the next one. -/
def Chain (lo : Nat) : Nat → List (Nat × Pattern) → Prop
  | hi, [] => lo ≤ hi
  | hi, (i, p) :: items => Lies i hi p ∧ Chain lo i items

namespace Chain

variable {items : List (Nat × Pattern)}

theorem le (h : Chain lo hi items) : lo ≤ hi := by
  induction items generalizing hi with
  | nil => exact h
  | cons item items ih =>
    have := ih h.2
    have := h.1.lt
    omega

theorem mono (h : Chain lo hi items) (hhi : hi ≤ hi') : Chain lo hi' items := by
  cases items with
  | nil => exact Nat.le_trans h hhi
  | cons item items => exact ⟨h.1.mono (Nat.le_refl _) hhi, h.2⟩

theorem nodes (h : Chain lo hi items) :
    Placed (· ≤ ·) lo hi (nodesOfList (items.reverse.map (·.2))) := by
  induction items generalizing hi with
  | nil => exact placed_nil
  | cons item items ih =>
    have hlast : nodesOfList ((item :: items).reverse.map (·.2)) =
        nodesOfList (items.reverse.map (·.2)) ++ item.2.nodes := by
      simp [nodesOfList_eq_flatMap]
    rw [hlast]
    exact (ih h.2).append h.1.nodes h.2.le (Nat.le_of_lt h.1.lt) fun _ _ => Nat.le_of_lt

theorem parts (h : Chain lo hi items) : Placed (· < ·) lo hi (items.reverse.map (·.2)) := by
  induction items generalizing hi with
  | nil => exact placed_nil
  | cons item items ih =>
    obtain ⟨i, hi, hlo, hlt⟩ := h.1.root
    rw [List.reverse_cons, List.map_append]
    exact (ih h.2).append (placed_single hi hlo hlt) h.2.le (Nat.le_of_lt h.1.lt) fun _ _ => id

theorem spread (h : Chain lo hi items) : ∀ q ∈ items.reverse.map (·.2), q.AllNodes Spread := by
  induction items generalizing hi with
  | nil => simp
  | cons item items ih =>
    intro q hq
    rw [List.reverse_cons, List.map_append] at hq
    rcases List.mem_append.1 hq with hq | hq
    · exact ih h.2 q hq
    · obtain rfl : q = item.2 := by simpa using hq
      exact h.1.spread

end Chain

/-! ## Levels -/

/-- What a level holds when the reader is at `pos`: the branches before its own branch, and the
items of this one. -/
structure Level.At (l : Level) (pos : Nat) : Prop where
  branches : ∃ marked, marked.map (·.2) = l.branches ∧ Chain l.start l.branchStart marked
  items : Chain l.branchStart pos l.items

namespace Level

variable {l : Level} {pos next : Nat}

theorem at_begin (pos : Nat) : (begin pos).At pos :=
  ⟨⟨[], rfl, Nat.le_refl pos⟩, Nat.le_refl pos⟩

namespace At

theorem start_le (h : l.At pos) : l.start ≤ l.branchStart := by
  obtain ⟨_, _, hchain⟩ := h.branches
  exact hchain.le

theorem mono (h : l.At pos) (hle : pos ≤ next) : l.At next := ⟨h.branches, h.items.mono hle⟩

/-- An empty branch stands where the reader is. -/
theorem branch (h : l.At pos) : Lies l.branchStart (pos + 1) l.branch := by
  have hitems := h.items.mono (Nat.le_succ pos)
  refine ⟨hitems.nodes.cons rfl (Nat.lt_succ_of_le h.items.le), ?_⟩
  exact allNodes_seq.2 ⟨⟨_, _, h.items.parts⟩, h.items.spread⟩

/-- The branches so far, and the one that is being read. -/
theorem all (h : l.At pos) : ∃ marked, marked.map (·.2) = l.branch :: l.branches ∧
    Chain l.start (pos + 1) marked := by
  obtain ⟨marked, hmarked, hchain⟩ := h.branches
  exact ⟨(l.branchStart, l.branch) :: marked, by simp [hmarked], h.branch, hchain⟩

theorem node (h : l.At pos) : Lies l.start (pos + 1) l.node := by
  unfold Level.node
  split
  · exact h.branch.mono h.start_le (Nat.le_refl _)
  · obtain ⟨marked, hmarked, hchain⟩ := h.all
    have hnodes := hchain.nodes
    have hspread := hchain.spread
    rw [List.map_reverse, hmarked] at hnodes hspread
    have hlt : l.start < pos + 1 := Nat.lt_succ_of_le (Nat.le_trans h.start_le h.items.le)
    exact ⟨hnodes.cons rfl hlt, allNodes_alt.2 ⟨trivial, hspread⟩⟩

theorem push {p : Pattern} (h : l.At pos) (hp : Lies pos next p) : (l.push pos p).At next :=
  ⟨h.branches, hp, h.items⟩

theorem repeatLast (h : l.At pos) (hle : pos ≤ next) (min : Nat) (max : Option Nat)
    (greedy : Bool) : (l.repeatLast min max greedy).At next := by
  have hnext := h.mono hle
  have hitems := hnext.items
  unfold Level.repeatLast
  split
  next => exact hnext
  next i p items heq =>
    rw [heq] at hitems
    exact ⟨h.branches, lies_rep hitems.1, hitems.2⟩

theorem nextBranch (h : l.At pos) (hlt : pos < next) : (l.nextBranch next).At next := by
  obtain ⟨marked, hmarked, hchain⟩ := h.all
  exact ⟨⟨marked, hmarked, hchain.mono hlt⟩, Nat.le_refl next⟩

end At

end Level

/-! ## Steps -/

/-- The groups around a level that starts at `start`. Each opened before that, where its own level
had come to. -/
def Nested : Nat → List OpenGroup → Prop
  | _, [] => True
  | start, g :: groups => g.pos < start ∧ g.outer.At g.pos ∧ Nested g.outer.start groups

/-- What the reader holds at `pos`. -/
structure ParseState.At (s : ParseState) (pos : Nat) : Prop where
  level : s.level.At pos
  groups : Nested s.level.start s.groups

/-- A group lies between its parenthesis and what follows it. -/
theorem lies_group {pos : Nat} (group : Group) (h : Lies lo hi p) (hpos : pos < lo) :
    Lies pos hi (group.node pos p) := by
  have houter := h.mono (Nat.le_of_lt hpos) (Nat.le_refl hi)
  cases group with
  | plain => exact houter
  | around behind negated =>
    refine ⟨houter.nodes.cons rfl houter.lt, fun n hn => ?_⟩
    rcases List.mem_cons.1 hn with rfl | hn
    · trivial
    · exact houter.spread n hn

/-- A token is taken in, from one place to the next. -/
theorem ParseState.At.step {s s' : ParseState} {pos next : Nat} {t : Token} (h : s.At pos)
    (hlt : pos < next) (hleaf : ∀ p, t = .leaf p → p.nodes = [p] ∧ p.loc = some pos)
    (hstep : s.step pos t next = .ok s') : s'.At next := by
  cases t with
  | leaf p =>
    cases hstep
    obtain ⟨hnodes, hp⟩ := hleaf p rfl
    exact ⟨h.level.push (lies_leaf hnodes hp hlt), h.groups⟩
  | quantifier min max greedy =>
    -- the repeat takes the place of its body, so only the end of the newest item moves
    cases hstep
    refine ⟨h.level.repeatLast (Nat.le_of_lt hlt) min max greedy, ?_⟩
    have hstart : (s.level.repeatLast min max greedy).start = s.level.start := by
      unfold Level.repeatLast
      split <;> rfl
    show Nested (s.level.repeatLast min max greedy).start s.groups
    rw [hstart]
    exact h.groups
  | bar =>
    cases hstep
    exact ⟨h.level.nextBranch hlt, h.groups⟩
  | opening group =>
    cases hstep
    exact ⟨Level.at_begin next, hlt, h.level, h.groups⟩
  | closing =>
    obtain ⟨level, groups⟩ := s
    cases groups with
    | nil => cases hstep
    | cons g groups =>
      cases hstep
      -- the content may end in an empty branch, which stands at the closing parenthesis
      obtain ⟨hpos, houter, hnested⟩ := h.groups
      have hnode := h.level.node.mono (Nat.le_refl _) hlt
      exact ⟨houter.push (lies_group g.group hnode hpos), hnested⟩

/-! ## Leaves -/

/-- A token that is a leaf stands where it was read, and is no alternation without branches. -/
def LeafAt (pos : Nat) (x : Except SyntaxError (Token × Cursor)) : Prop :=
  ∀ p d, x = .ok (.leaf p, d) → p.nodes = [p] ∧ p.loc = some pos ∧ p.HasBranches

theorem escapedNode?_leaf {loc : Location} {ch : Char} (h : escapedNode? loc ch = some p) :
    p.nodes = [p] ∧ p.loc = loc ∧ p.HasBranches := by
  unfold escapedNode? at h
  split at h
  case h_10 =>
    split at h
    · cases h
      exact ⟨rfl, rfl, trivial⟩
    · cases h
  all_goals
    cases h
    exact ⟨rfl, rfl, trivial⟩

theorem bracket_leaf (pos : Nat) (c : Cursor) : LeafAt pos (bracket (some pos) c) := by
  intro p d h
  unfold bracket at h
  dsimp only at h
  split at h
  · cases h
  · cases h
    exact ⟨rfl, rfl, trivial⟩

theorem escapedToken_leaf (pos : Nat) (c : Cursor) : LeafAt pos (escapedToken (some pos) c) := by
  intro p d h
  unfold escapedToken at h
  split at h
  next q hq =>
    cases h
    obtain ⟨ch, _, hch⟩ := Option.bind_eq_some_iff.1 hq
    exact escapedNode?_leaf hch
  next =>
    split at h
    all_goals
      split at h
      · cases h
      · cases h
        exact ⟨rfl, rfl, trivial⟩

theorem groupToken_leaf (pos : Nat) (c : Cursor) : LeafAt pos (groupToken c) := by
  intro p d h
  unfold groupToken at h
  split at h
  · split at h <;> cases h
  · cases h

theorem itemToken_leaf (pos : Nat) (b : UInt8) (bs : List UInt8) :
    LeafAt pos (itemToken pos b bs) := by
  intro p d h
  unfold itemToken at h
  split at h
  case h_3 => exact groupToken_leaf pos _ p d h
  case h_4 => exact bracket_leaf pos _ p d h
  case h_8 => exact escapedToken_leaf pos _ p d h
  case h_12 =>
    split at h
    · cases h
    · cases h
      exact ⟨rfl, rfl, trivial⟩
  all_goals
    cases h
    try exact ⟨rfl, rfl, trivial⟩

theorem token_leaf (behindItem : Bool) (pos : Nat) (b : UInt8) (bs : List UInt8) :
    LeafAt pos (token behindItem pos b bs) := by
  intro p d h
  unfold token at h
  split at h
  · cases h
  · split at h <;> cases h
  · exact itemToken_leaf pos b bs p d h

/-! ## Runs -/

/-- Reading a token moves on, and stays in the text. -/
theorem token_moves {text : Bytes} {behindItem : Bool} {pos : Nat} {b : UInt8} {bs : List UInt8}
    {t : Token} {d : Cursor} (h : (⟨pos, b :: bs⟩ : Cursor).In text)
    (htoken : token behindItem pos b bs = .ok (t, d)) : pos < d.pos ∧ d.In text := by
  have hmirror := Scanner.mirrors_token behindItem h
  rw [htoken] at hmirror
  exact ⟨(h.tail rfl).pos_le hmirror.2 (token_le htoken), hmirror.2⟩

/-- Whatever was held before, the tree at the end lies in the text. -/
theorem ParseState.At.run {text : Bytes} {s : ParseState} {c : Cursor} (h : s.At c.pos)
    (hc : c.In text) (hrun : s.run c = .ok p) : Lies 0 (text.size + 1) p := by
  fun_induction ParseState.run s c with
  | case1 s c =>
    cases hrun
    exact h.level.node.mono (Nat.zero_le _) (Nat.succ_le_succ hc.le)
  | case2 => cases hrun
  | case3 => cases hrun
  | case4 => cases hrun
  | case5 s c b bs hrest t d htoken _ s' hstep ih =>
    have hcons : (⟨c.pos, b :: bs⟩ : Cursor).In text := ⟨hc.le, hrest ▸ hc.rest⟩
    obtain ⟨hlt, hd⟩ := token_moves hcons htoken
    refine ih (h.step hlt (fun q hq => ?_) hstep) hd hrun
    obtain ⟨hnodes, hplace, _⟩ := token_leaf _ _ _ _ q d (hq ▸ htoken)
    exact ⟨hnodes, hplace⟩

/-! ## The whole text -/

/-- Every node has a place that is no further than `size`. The places do not fall from one node to
the next, and they rise from one part of a sequence to the next. -/
structure Located (size : Nat) (p : Pattern) : Prop where
  ordered : ∃ places : List Nat, p.nodes.map loc = places.map some ∧
    places.Pairwise (· ≤ ·) ∧ ∀ i ∈ places, i ≤ size
  spread : ∀ place parts, .seq place parts ∈ p.nodes →
    ∃ places : List Nat, parts.map loc = places.map some ∧ places.Pairwise (· < ·)

theorem Lies.located {size : Nat} (h : Lies lo (size + 1) p) : p.Located size := by
  constructor
  · obtain ⟨places, hplaces, horder, hbounds⟩ := h.nodes
    exact ⟨places, hplaces, horder, fun i hi => Nat.le_of_lt_succ (hbounds i hi).2⟩
  · intro place parts hseq
    obtain ⟨_, _, places, hplaces, horder, _⟩ := h.spread _ hseq
    exact ⟨places, hplaces, horder⟩

/-- A tree that was read lies in the text. -/
theorem lies_of_parse {text : Bytes} (h : parse text.toList = .ok p) :
    Lies 0 (text.size + 1) p :=
  ParseState.At.run (s := ⟨.begin 0, []⟩) ⟨Level.at_begin 0, trivial⟩ (Cursor.In.start text) h

/-- Reading a pattern ends, and no byte outside the text is read: with a guard on every read the
result is the same. It is an error whose index is in the text or just behind it, or a tree whose
nodes are located. As long as the text is shorter than the greatest word, the index and the places
are words, and no place is the word that stands for none. -/
theorem parse_located (text : Bytes) (h : text.size < maxWord) :
    parse? text = some (parse text.toList) ∧
      (∀ e, parse text.toList = .error e →
        ∃ i ≤ text.size, e.toError.index = some i ∧ i % (maxWord + 1) = i) ∧
      ∀ p, parse text.toList = .ok p → p.Located text.size ∧
        ∀ n ∈ p.nodes, ∃ i, n.loc = some i ∧ locationOfWord (i % (maxWord + 1)) = some i := by
  obtain ⟨hguard, herror⟩ := parse?_eq text
  refine ⟨hguard, fun e he => ?_, fun p hp => ?_⟩
  · have hle := herror e he
    exact ⟨e.index, hle, rfl, Nat.mod_eq_of_lt (by omega)⟩
  · have hlies := lies_of_parse hp
    refine ⟨hlies.located, fun n hn => ?_⟩
    obtain ⟨i, hi, _, hlt⟩ := hlies.nodes.mem hn
    have hmod : i % (maxWord + 1) = i := Nat.mod_eq_of_lt (by omega)
    refine ⟨i, hi, ?_⟩
    unfold locationOfWord
    rw [hmod, if_neg (by omega)]

/-- The text `a(b|)+`. -/
def groupText : Bytes := #[0x61, 0x28, 0x62, 0x7c, 0x29, 0x2b]

/-- The empty branch stands at the closing parenthesis. -/
theorem parse_located_group : groupText.size < maxWord ∧ ∃ p, parse groupText.toList = .ok p ∧
    p.Located groupText.size ∧
    p.nodes.map loc = [some 0, some 0, some 1, some 2, some 2, some 2, some 4] := by
  have hsize : groupText.size < maxWord := by decide
  obtain ⟨hguard, _, hlocated⟩ := parse_located groupText hsize
  have hparse := Option.some.inj (hguard.symm.trans (by rfl))
  exact ⟨hsize, _, hparse, (hlocated _ hparse).1, rfl⟩

end ByteRegex.Pattern
