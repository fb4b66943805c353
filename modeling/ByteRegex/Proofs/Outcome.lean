-- What comes of a compilation. A pattern that no automaton can match, or with
-- bad ranges, is refused for its first bad node. Every other pattern needs its
-- numbers of states, and is compiled under just those limits that allow for
-- them. Listings do not matter, as long as their files can be opened.
import ByteRegex.Proofs.Answers
import ByteRegex.Proofs.Dfa.Budget
import ByteRegex.Proofs.Nfa.Budget

namespace ByteRegex

open Alphabet (build)

variable {α β : Type} {p : Pattern} {longest : Bool} {tuning : Tuning} {dest : Destination}

/-! ## Bad nodes -/

namespace Pattern

/-- No automaton can match the node. -/
def Unmatchable : Pattern → Prop
  | around _ _ _ _ => True
  | backref _ _ => True
  | _ => False

/-- A range of the node is the wrong way round or too large, or its bounds are the wrong way
round. -/
def Misranged : Pattern → Prop
  | chars _ ranges _ => ∃ r ∈ ranges, r.2 < r.1 ∨ 0x10ffff < r.2
  | bytes _ ranges => ∃ r ∈ ranges, r.2 < r.1
  | rep _ _ min (some max) _ => max < min
  | _ => False

/-- The first node of the tree of which `P` holds, each node being before its parts. -/
def FirstNode (P : Pattern → Prop) (p n : Pattern) : Prop :=
  ∃ before after, p.nodes = before ++ n :: after ∧ P n ∧ ∀ m ∈ before, ¬ P m

theorem FirstNode.mem {P : Pattern → Prop} {n : Pattern} (h : FirstNode P p n) :
    n ∈ p.nodes ∧ P n := by
  obtain ⟨before, after, hnodes, hn, _⟩ := h
  exact ⟨hnodes ▸ List.mem_append_right _ List.mem_cons_self, hn⟩

theorem construct?_eq_none_iff {n : Pattern} : n.construct? = none ↔ ¬ n.Unmatchable := by
  cases n <;> simp [construct?, Unmatchable]

theorem rangeFault?_eq_none_iff {n : Pattern} : n.rangeFault? = none ↔ ¬ n.Misranged := by
  cases n with
  | chars loc ranges negated =>
    simp [rangeFault?, charRangeFault?, Misranged, show maxCodePoint = 0x10ffff from rfl]
  | bytes loc ranges => simp [rangeFault?, byteRangeFault?, Misranged]
  | rep loc body min max greedy => cases max <;> simp [rangeFault?, Misranged]
  | _ => simp [rangeFault?, Misranged]

/-- A check of all nodes passes, or it fails for the first bad one. -/
theorem findSome?_nodes {P : Pattern → Prop} {f : Pattern → Option Error}
    (hf : ∀ n, f n = none ↔ ¬ P n) :
    (p.nodes.findSome? f = none ∧ ∀ n ∈ p.nodes, ¬ P n) ∨
      ∃ n e, FirstNode P p n ∧ f n = some e ∧ p.nodes.findSome? f = some e := by
  cases hfind : p.nodes.findSome? f with
  | none => exact Or.inl ⟨rfl, fun n hn => (hf n).1 (List.findSome?_eq_none_iff.1 hfind n hn)⟩
  | some e =>
    obtain ⟨before, n, after, hnodes, he, hbefore⟩ := List.findSome?_eq_some_iff.1 hfind
    refine Or.inr ⟨n, e, ⟨before, after, hnodes, ?_, fun m hm => (hf m).1 (hbefore m hm)⟩, he, rfl⟩
    by_contra hn
    rw [(hf n).2 hn] at he
    cases he

theorem checkSupported_cases (p : Pattern) :
    (p.checkSupported = .ok () ∧ ∀ n ∈ p.nodes, ¬ n.Unmatchable) ∨
      ∃ n c, FirstNode Unmatchable p n ∧ n.construct? = some c ∧
        p.checkSupported = .error (.unsupported c.name n.loc) := by
  have hf : ∀ n : Pattern, (n.construct?.map fun c => Error.unsupported c.name n.loc) = none ↔
      ¬ n.Unmatchable := fun n => by rw [Option.map_eq_none_iff, construct?_eq_none_iff]
  rw [checkSupported]
  rcases findSome?_nodes (p := p) hf with ⟨hnone, hall⟩ | ⟨n, e, hfirst, he, hsome⟩
  · rw [hnone]
    exact Or.inl ⟨rfl, hall⟩
  · obtain ⟨c, hc, rfl⟩ := Option.map_eq_some_iff.1 he
    rw [hsome]
    exact Or.inr ⟨n, c, hfirst, hc, rfl⟩

theorem checkRanges_cases (p : Pattern) :
    (p.checkRanges = .ok () ∧ ∀ n ∈ p.nodes, ¬ n.Misranged) ∨
      ∃ n f, FirstNode Misranged p n ∧ n.rangeFault? = some f ∧
        p.checkRanges = .error (.invalidRange f.message n.loc) := by
  have hf : ∀ n : Pattern, (n.rangeFault?.map (·.toError n.loc)) = none ↔ ¬ n.Misranged :=
    fun n => by rw [Option.map_eq_none_iff, rangeFault?_eq_none_iff]
  rw [checkRanges]
  rcases findSome?_nodes (p := p) hf with ⟨hnone, hall⟩ | ⟨n, e, hfirst, he, hsome⟩
  · rw [hnone]
    exact Or.inl ⟨rfl, hall⟩
  · obtain ⟨f, hf, rfl⟩ := Option.map_eq_some_iff.1 he
    rw [hsome]
    exact Or.inr ⟨n, f, hfirst, hf, rfl⟩

theorem checkSupported_of_supported (h : p.Supported) : p.checkSupported = .ok () := by
  rcases p.checkSupported_cases with ⟨hok, _⟩ | ⟨n, c, hfirst, hc, _⟩
  · exact hok
  · rw [h n hfirst.mem.1] at hc
    cases hc

theorem checkRanges_of_ranged (h : p.Ranged) : p.checkRanges = .ok () := by
  rcases p.checkRanges_cases with ⟨hok, _⟩ | ⟨n, f, hfirst, hf, _⟩
  · exact hok
  · rw [h n hfirst.mem.1] at hf
    cases hf

end Pattern

/-! ## The steps without listings -/

namespace Tuning

/-- The table of one direction. -/
def table (t : Tuning) (n : Nfa) (alpha : Alphabet) (direction : Direction) :
    Except Error Table := do
  let d ← Dfa.ofNfa n alpha direction direction.matchKind (t.stateLimit alpha.size)
  (t.minimized d).encode t.narrowTable

/-- The database of a pattern. -/
def database (t : Tuning) (p : Pattern) (longest : Bool) : Except Error Database := do
  p.checkSupported
  let alpha ← Alphabet.ofPattern p
  let n ← Nfa.ofPattern p alpha t.maxNfaStates
  let forward ← t.table n alpha .forward
  let reverse ← t.table n.reverse alpha .reverse
  return ⟨forward, reverse, longest⟩

end Tuning

namespace Compile

/-- A step gives a result, whatever has been listed before, unless one of its files does not open.
It gives a value only if all of them open. -/
def Yields (dest : Destination) (files : List String) (x : Compile α) (r : Except Error α) : Prop :=
  ∀ s, ((x.run s).1 = r ∧ ∀ a, r = .ok a → dest.Opens files) ∨ Blocked dest files (x.run s).1

variable {files files' : List String}

theorem Yields.lift (x : Except Error α) : Yields dest [] (liftM x : Compile α) x := by
  intro s
  cases x <;> exact Or.inl ⟨rfl, nofun⟩

theorem Yields.bind {x : Compile α} {r : Except Error α} {f : α → Compile β}
    {g : α → Except Error β} (hx : Yields dest files x r)
    (hf : ∀ a, Yields dest files' (f a) (g a)) :
    Yields dest (files ++ files') (x >>= f) (r >>= g) := by
  intro s
  have hstep := hx s
  rw [bind_run]
  rcases hrun : x.run s with ⟨r1, s1⟩
  rw [hrun] at hstep
  rcases hstep with ⟨rfl, hopens⟩ | ⟨before, name, after, reason, rfl, hbefore, hname, rfl⟩
  · cases r1 with
    | error e => exact Or.inl ⟨rfl, nofun⟩
    | ok a =>
      have hfirst := hopens a rfl
      rcases hf a s1 with ⟨hsame, hopens'⟩ | hblocked
      · exact Or.inl ⟨hsame, fun b hb => Destination.opens_append.2 ⟨hfirst, hopens' b hb⟩⟩
      · exact Or.inr (hblocked.behind hfirst)
  · refine Or.inr ⟨before, name, after ++ files', reason, ?_, hbefore, hname, rfl⟩
    rw [List.append_assoc, List.cons_append]

theorem Yields.lift_bind {x : Except Error α} {f : α → Compile β} {g : α → Except Error β}
    (hf : ∀ a, Yields dest files (f a) (g a)) :
    Yields dest files ((liftM x : Compile α) >>= f) (x >>= g) := by
  have hlift : Yields dest [] (liftM x : Compile α) x := Yields.lift x
  have hboth := hlift.bind hf
  rwa [List.nil_append] at hboth

/-- A listing gives nothing, so what comes behind it decides. -/
theorem Yields.after {x : Compile Unit} {f : Unit → Compile β} {r : Except Error β}
    (hx : x.Gives (dest.openAll files)) (hf : Yields dest files' (f ()) r) :
    Yields dest (files ++ files') (x >>= f) r := by
  have hlist : Yields dest files x (.ok ()) := by
    intro s
    rw [hx s]
    exact (openAll_cases dest files).imp_left fun ⟨hopens, hall⟩ => ⟨hall, fun _ _ => hopens⟩
  exact hlist.bind fun _ => hf

theorem compileTable_yields (n : Nfa) (alpha : Alphabet) (direction : Direction) :
    Yields dest (tuning.listings.tableFiles direction) (compileTable dest tuning n alpha direction)
      (tuning.table n alpha direction) := by
  unfold compileTable Tuning.table
  refine Yields.lift_bind fun d => ?_
  refine Yields.after (listDfa_gives d) ?_
  rw [← List.append_nil (tuning.listings.dfaFiles _)]
  exact Yields.after (listDfa_gives _) (Yields.lift _)

theorem compileListing_yields :
    Yields dest tuning.listings.files (compileListing dest p longest tuning)
      (tuning.database p longest) := by
  unfold compileListing Tuning.database ListingFlags.files
  simp only [List.append_assoc]
  refine Yields.lift_bind fun _ => Yields.lift_bind fun alpha => Yields.lift_bind fun n => ?_
  refine Yields.after (listNfa_gives n) (Yields.after (listNfa_gives n.reverse) ?_)
  refine Yields.bind (compileTable_yields n alpha .forward) fun forward => ?_
  refine Yields.bind (compileTable_yields n.reverse alpha .reverse) fun reverse => ?_
  rw [← List.append_nil tuning.listings.databaseFiles]
  exact Yields.after (listDatabase_gives _) (Yields.lift (.ok _))

end Compile

open Compile (Blocked)

theorem compileWithListings_fst : (compileWithListings dest p longest tuning).1 =
    ((compileListing dest p longest tuning).run #[]).1 := rfl

/-- Listings change what comes of a compilation only if one of their files does not open. -/
theorem compileWithListings_cases (dest : Destination) (p : Pattern) (longest : Bool)
    (tuning : Tuning) :
    ((compileWithListings dest p longest tuning).1 = tuning.database p longest ∧
      ∀ d, tuning.database p longest = .ok d → tuning.Unblocked dest) ∨
      Blocked dest tuning.listings.files (compileWithListings dest p longest tuning).1 :=
  Compile.compileListing_yields #[]

theorem database_of_ok {d : Database}
    (h : (compileWithListings dest p longest tuning).1 = .ok d) :
    tuning.database p longest = .ok d := by
  rcases compileWithListings_cases dest p longest tuning with
    ⟨hsame, _⟩ | ⟨_, _, _, _, _, _, _, he⟩
  · exact hsame.symm.trans h
  · rw [h] at he
    cases he

theorem compileWithListings_of_unblocked (h : tuning.Unblocked dest) :
    (compileWithListings dest p longest tuning).1 = tuning.database p longest := by
  rcases compileWithListings_cases dest p longest tuning with ⟨hsame, _⟩ | hblocked
  · exact hsame
  · exact absurd h hblocked.not_opens

/-! ## What a pattern needs -/

/-- The automata that a pattern leads to. Each is made under just those limits that allow for its
states. -/
structure Needs (p : Pattern) (n : Nfa) (f r : Dfa) : Prop where
  nfa : ∀ limit, Nfa.ofPattern p (build p) limit =
    if n.size ≤ limit then .ok n else .error (Nfa.overLimit limit)
  forward : ∀ limit, Dfa.ofNfa n (build p) .forward .leftmostFirst limit =
    if f.size ≤ max 1 limit then .ok f else .error (Dfa.overLimit limit)
  reverse : ∀ limit, Dfa.ofNfa n.reverse (build p) .reverse .all limit =
    if r.size ≤ max 1 limit then .ok r else .error (Dfa.overLimit limit)
  /-- There is a state besides the dead one. -/
  alive : 2 ≤ f.size

theorem exists_needs (hs : p.Supported) (hr : p.Ranged) : ∃ n f r, Needs p n f r := by
  obtain ⟨n, hn⟩ := Nfa.exists_ofPattern hs hr (build p)
  obtain ⟨f, hf⟩ := Dfa.exists_ofNfa_eq n (build p) .forward .leftmostFirst
  obtain ⟨r, hback⟩ := Dfa.exists_ofNfa_eq n.reverse (build p) .reverse .all
  have hbuilt : Nfa.ofPattern p (build p) n.size = .ok n := by rw [hn, if_pos (Nat.le_refl _)]
  obtain ⟨out, goal, skipping, hclosed⟩ := Nfa.ofPattern_closed (Alphabet.build_fits hr) hr hbuilt
  have hmade : Dfa.ofNfa n (build p) .forward .leftmostFirst f.size = .ok f := by
    rw [hf, if_pos (Nat.le_max_right 1 _)]
  have hstart : (Dfa.Subset.ofNfa n (build p) .leftmostFirst).startOther ≠ .dead :=
    Nfa.Closed.startOther_ne_dead (c := Dfa.Subset.ofNfa n (build p) .leftmostFirst) hclosed
  exact ⟨n, f, r, hn, hf, hback, Dfa.two_le_size hmade hstart⟩

/-- A table comes of an automaton that the limit allows for. A limit of zero allows for one state
too, so the limit has to be positive or the automaton to have two states. -/
theorem Tuning.table_cases (tuning : Tuning) {n : Nfa} {direction : Direction} {d : Dfa}
    (hn : Nfa.Neat (build p).Same n)
    (hd : ∀ limit, Dfa.ofNfa n (build p) direction direction.matchKind limit =
      if d.size ≤ max 1 limit then .ok d else .error (Dfa.overLimit limit))
    (htold : 1 ≤ tuning.stateLimit (build p).size ∨ 2 ≤ d.size) :
    (d.size ≤ tuning.stateLimit (build p).size ∧
      ∃ table, (tuning.minimized d).encode tuning.narrowTable = .ok table ∧
        tuning.table n (build p) direction = .ok table) ∨
      ¬ d.size ≤ tuning.stateLimit (build p).size ∧ tuning.table n (build p) direction =
        .error (Dfa.overLimit (tuning.stateLimit (build p).size)) := by
  have hmost := tuning.stateLimit_le (build p).size
  have hmade := hd (tuning.stateLimit (build p).size)
  rw [Tuning.table]
  by_cases hfits : d.size ≤ tuning.stateLimit (build p).size
  · rw [if_pos (Nat.le_trans hfits (Nat.le_max_right 1 _))] at hmade
    obtain ⟨table, htable⟩ : ∃ table, (tuning.minimized d).encode tuning.narrowTable = .ok table :=
      exists_encode_minimized hn hmade hmost
    rw [hmade]
    exact Or.inl ⟨hfits, table, htable, htable⟩
  · rw [if_neg (by omega)] at hmade
    rw [hmade]
    exact Or.inr ⟨hfits, rfl⟩

/-- The limits allow for automata with these numbers of states, the deterministic ones over so many
classes of symbols. -/
structure Tuning.Allows (t : Tuning) (classes nfa forward reverse : Nat) : Prop where
  nfa : nfa ≤ t.maxNfaStates
  forward : forward ≤ min (min t.maxDfaStates 65535) (t.maxTransitions / classes)
  reverse : reverse ≤ min (min t.maxDfaStates 65535) (t.maxTransitions / classes)

namespace Needs

variable {n : Nfa} {f r : Dfa}

/-- A compilation without listings gives the tables of the automata, or it names the first limit
that does not allow for them. -/
theorem database_cases (h : Needs p n f r) (hs : p.Supported) (hr : p.Ranged) (longest : Bool)
    (t : Tuning) :
    (t.maxNfaStates < n.size ∧
      t.database p longest = .error (.stateLimit "NFA state" t.maxNfaStates)) ∨
    (n.size ≤ t.maxNfaStates ∧ ¬ t.Allows (build p).size n.size f.size r.size ∧
      t.database p longest = .error (.stateLimit "DFA state" (t.stateLimit (build p).size))) ∨
    (t.Allows (build p).size n.size f.size r.size ∧ ∃ table table',
      (t.minimized f).encode t.narrowTable = .ok table ∧
        (t.minimized r).encode t.narrowTable = .ok table' ∧
          t.database p longest = .ok ⟨table, table', longest⟩) := by
  have halpha : Alphabet.ofPattern p = .ok (build p) := by
    rw [Alphabet.ofPattern, Pattern.checkRanges_of_ranged hr]
  have hbuilt := h.nfa t.maxNfaStates
  rw [Tuning.database, Pattern.checkSupported_of_supported hs, halpha]
  simp only [bind, Except.bind]
  by_cases hn : n.size ≤ t.maxNfaStates
  swap
  · rw [if_neg hn] at hbuilt
    rw [hbuilt]
    exact Or.inl ⟨Nat.lt_of_not_le hn, rfl⟩
  rw [if_pos hn] at hbuilt
  rw [hbuilt]
  obtain ⟨hneat, hback⟩ := neat_of_ofPattern hr hbuilt
  rcases t.table_cases hneat h.forward (Or.inr h.alive) with
    ⟨hf, table, htable, hforward⟩ | ⟨hf, hforward⟩
  swap
  · refine Or.inr (Or.inl ⟨hn, fun hall => hf hall.forward, ?_⟩)
    simp only [hforward]
    rfl
  have htold : 1 ≤ t.stateLimit (build p).size := Nat.le_trans (by omega) (h.alive.trans hf)
  rcases t.table_cases hback h.reverse (Or.inl htold) with
    ⟨hr, table', htable', hreverse⟩ | ⟨hr, hreverse⟩
  · simp only [hforward, hreverse]
    exact Or.inr (Or.inr ⟨⟨hn, hf, hr⟩, table, table', htable, htable', rfl⟩)
  · refine Or.inr (Or.inl ⟨hn, fun hall => hr hall.reverse, ?_⟩)
    simp only [hforward, hreverse]
    rfl

/-- What a database is made of. -/
theorem database_ok (h : Needs p n f r) (hs : p.Supported) (hr : p.Ranged) {t : Tuning}
    {d : Database} (hd : t.database p longest = .ok d) :
    t.Allows (build p).size n.size f.size r.size ∧ ∃ table table',
      (t.minimized f).encode t.narrowTable = .ok table ∧
        (t.minimized r).encode t.narrowTable = .ok table' ∧ d = ⟨table, table', longest⟩ := by
  rcases h.database_cases hs hr longest t with ⟨_, he⟩ | ⟨_, _, he⟩ | ⟨hall, hok⟩
  · rw [hd] at he
    cases he
  · rw [hd] at he
    cases he
  · obtain ⟨table, table', htable, htable', hok⟩ := hok
    exact ⟨hall, table, table', htable, htable', Except.ok.inj (hd.symm.trans hok)⟩

end Needs

/-- A pattern that passes both checks is compiled, or some limit is too low for it. -/
theorem compile_cases (hs : p.Supported) (hr : p.Ranged) (options : Options) (tuning : Tuning) :
    (∃ d, compile p options tuning = .ok d) ∨
      ∃ what limit, compile p options tuning = .error (.stateLimit what limit) := by
  obtain ⟨n, f, r, hneeds⟩ := exists_needs hs hr
  rw [compile, compileTuned, compileWithListings_of_unblocked fun _ _ => rfl]
  rcases hneeds.database_cases hs hr options.longest _ with
    ⟨_, he⟩ | ⟨_, _, he⟩ | ⟨_, _, _, _, _, hok⟩
  · exact Or.inr ⟨_, _, he⟩
  · exact Or.inr ⟨_, _, he⟩
  · exact Or.inl ⟨_, hok⟩

/-! ## The laws -/

theorem compile_of_unsupported {e : Error} (h : p.checkSupported = .error e) :
    (compileWithListings dest p longest tuning).1 = .error e := by
  rw [compileWithListings_fst, compileListing, Compile.bind_run, h]
  rfl

theorem supported_of_compile {p : Pattern} {options : Options} {tuning : Tuning} {d : Database}
    (h : compile p options tuning = .ok d) : p.Supported := by
  cases hs : p.checkSupported with
  | ok => exact Pattern.supported_of_checkSupported hs
  | error e =>
    rw [compile, compileTuned, compile_of_unsupported hs] at h
    cases h

theorem compile_of_misranged {e : Error} (hs : p.checkSupported = .ok ())
    (h : p.checkRanges = .error e) : (compileWithListings dest p longest tuning).1 = .error e := by
  have halpha : Alphabet.ofPattern p = .error e := by rw [Alphabet.ofPattern, h]
  rw [compileWithListings_fst, compileListing, Compile.run_bind (Compile.run_lift hs),
    Compile.bind_run, halpha]
  rfl

/-- A pattern with a node that no automaton can match is refused for the first one, whatever else is
wrong. A pattern with bad ranges or bounds is refused for its first such node. Every other pattern
gives a database, and the files of all listings that are asked for open, or some limit is too low
for it, or the first of these files that does not open is named. -/
theorem compile_outcome (dest : Destination) (p : Pattern) (longest : Bool) (tuning : Tuning) :
    ((∃ m ∈ p.nodes, m.Unmatchable) → ∃ n c, Pattern.FirstNode Pattern.Unmatchable p n ∧
      n.construct? = some c ∧ (compileWithListings dest p longest tuning).1 =
        .error (.unsupported c.name n.loc)) ∧
    ((∀ m ∈ p.nodes, ¬ m.Unmatchable) → (∃ m ∈ p.nodes, m.Misranged) →
      ∃ n f, Pattern.FirstNode Pattern.Misranged p n ∧ n.rangeFault? = some f ∧
        (compileWithListings dest p longest tuning).1 = .error (.invalidRange f.message n.loc)) ∧
    ((∀ m ∈ p.nodes, ¬ m.Unmatchable) → (∀ m ∈ p.nodes, ¬ m.Misranged) →
      ((∃ d, (compileWithListings dest p longest tuning).1 = .ok d) ∧ tuning.Unblocked dest) ∨
      (compileWithListings dest p longest tuning).1 =
        .error (.stateLimit "NFA state" tuning.maxNfaStates) ∨
      (compileWithListings dest p longest tuning).1 =
        .error (.stateLimit "DFA state" (tuning.stateLimit (build p).size)) ∨
      Blocked dest tuning.listings.files (compileWithListings dest p longest tuning).1) := by
  rcases p.checkSupported_cases with ⟨hs, hall⟩ | ⟨n, c, hfirst, hc, hs⟩
  swap
  · obtain ⟨hmem, hn⟩ := hfirst.mem
    exact ⟨fun _ => ⟨n, c, hfirst, hc, compile_of_unsupported hs⟩,
      fun hnone => absurd hn (hnone n hmem), fun hnone => absurd hn (hnone n hmem)⟩
  refine ⟨fun ⟨m, hm, hbad⟩ => absurd hbad (hall m hm), ?_⟩
  rcases p.checkRanges_cases with ⟨hr, hall'⟩ | ⟨n, f, hfirst, hf, hr⟩
  swap
  · obtain ⟨hmem, hn⟩ := hfirst.mem
    exact ⟨fun _ _ => ⟨n, f, hfirst, hf, compile_of_misranged hs hr⟩,
      fun _ hnone => absurd hn (hnone n hmem)⟩
  refine ⟨fun _ ⟨m, hm, hbad⟩ => absurd hbad (hall' m hm), fun _ _ => ?_⟩
  have hsupported := Pattern.supported_of_checkSupported hs
  have hranged := Pattern.ranged_of_checkRanges hr
  obtain ⟨n, f, r, hneeds⟩ := exists_needs hsupported hranged
  rcases compileWithListings_cases dest p longest tuning with ⟨hdatabase, hopens⟩ | hblocked
  swap
  · exact Or.inr (Or.inr (Or.inr hblocked))
  rw [hdatabase]
  rcases hneeds.database_cases hsupported hranged longest tuning with
    ⟨_, hnfa⟩ | ⟨_, _, hdfa⟩ | ⟨_, table, table', _, _, hok⟩
  · exact Or.inr (Or.inl hnfa)
  · exact Or.inr (Or.inr (Or.inl hdfa))
  · exact Or.inl ⟨⟨_, hok⟩, hopens _ hok⟩

/-- Files that are to be in a directory that is missing. -/
def missingDirectory : Destination where
  path := "no/such/dir/"
  fault _ := some "No such file or directory"

/-- The file of the first listing cannot be opened, although nothing is wrong with the pattern. -/
theorem compile_letters_blocked :
    (∀ m ∈ letters.nodes, ¬ m.Unmatchable ∧ ¬ m.Misranged) ∧
    (compileWithListings missingDirectory letters true { listings := ⟨2⟩ }).1 =
      .error (.cannotOpen "no/such/dir/nfa_fwd.txt" "No such file or directory") ∧
    ¬ ((∃ d, (compileWithListings missingDirectory letters true { listings := ⟨2⟩ }).1 = .ok d) ∨
      ∃ what limit, (compileWithListings missingDirectory letters true { listings := ⟨2⟩ }).1 =
        .error (.stateLimit what limit)) := by
  have hgood : ∀ m ∈ letters.nodes, ¬ m.Unmatchable ∧ ¬ m.Misranged := by
    simp [letters, letter, Pattern.nodes, Pattern.Unmatchable, Pattern.Misranged]
  have hsupported : letters.checkSupported = .ok () := rfl
  have halpha : Alphabet.ofPattern letters = .ok (build letters) := rfl
  have hresult : (compileWithListings missingDirectory letters true { listings := ⟨2⟩ }).1 =
      .error (.cannotOpen "no/such/dir/nfa_fwd.txt" "No such file or directory") := by
    rw [compileWithListings_fst, compileListing, Compile.run_bind (Compile.run_lift hsupported),
      Compile.run_bind (Compile.run_lift halpha),
      Compile.run_bind (Compile.run_lift (ofPattern_letters _)), Compile.bind_run]
    rfl
  refine ⟨hgood, hresult, ?_⟩
  rintro (⟨d, hd⟩ | ⟨what, limit, he⟩)
  · rw [hresult] at hd
    cases hd
  · rw [hresult] at he
    cases he

/-- How limits decide what comes of a compilation, where no listing can fail. -/
structure Thresholds (p : Pattern) (n : Nfa) (f r : Dfa) : Prop where
  needs : Needs p n f r
  /-- It succeeds just under the limits that allow for the automata. -/
  compiles : ∀ {dest tuning} longest, tuning.Unblocked dest →
    ((∃ d, (compileWithListings dest p longest tuning).1 = .ok d) ↔
      tuning.Allows (build p).size n.size f.size r.size)
  nfaLimit : ∀ {dest tuning} longest, tuning.Unblocked dest → tuning.maxNfaStates < n.size →
    (compileWithListings dest p longest tuning).1 =
      .error (.stateLimit "NFA state" tuning.maxNfaStates)
  dfaLimit : ∀ {dest tuning} longest, tuning.Unblocked dest → n.size ≤ tuning.maxNfaStates →
    ¬ tuning.Allows (build p).size n.size f.size r.size →
      (compileWithListings dest p longest tuning).1 =
        .error (.stateLimit "DFA state" (tuning.stateLimit (build p).size))
  /-- The limits do not show in what it gives. -/
  same : ∀ {dest dest' t t' d d'} longest, t.minimize = t'.minimize →
    t.narrowTable = t'.narrowTable → (compileWithListings dest p longest t).1 = .ok d →
      (compileWithListings dest' p longest t').1 = .ok d' → d = d'

/-- Every pattern that passes both checks has its numbers of states, which no limit changes. It is
compiled under just those limits that allow for them, and always to the same database. -/
theorem exists_thresholds (hs : p.Supported) (hr : p.Ranged) : ∃ n f r, Thresholds p n f r := by
  obtain ⟨n, f, r, hneeds⟩ := exists_needs hs hr
  have hcases := fun longest tuning => hneeds.database_cases hs hr longest tuning
  refine ⟨n, f, r, { needs := hneeds, compiles := ?_, nfaLimit := ?_, dfaLimit := ?_, same := ?_ }⟩
  · intro dest tuning longest hfree
    rw [compileWithListings_of_unblocked hfree]
    refine ⟨fun ⟨d, hd⟩ => (hneeds.database_ok hs hr hd).1, fun hall => ?_⟩
    rcases hcases longest tuning with ⟨hover, _⟩ | ⟨_, hnot, _⟩ | ⟨_, _, _, _, _, hok⟩
    · exact absurd hall.nfa (Nat.not_le_of_lt hover)
    · exact absurd hall hnot
    · exact ⟨_, hok⟩
  · intro dest tuning longest hfree hover
    rw [compileWithListings_of_unblocked hfree]
    rcases hcases longest tuning with ⟨_, he⟩ | ⟨hn, _⟩ | ⟨hall, _⟩
    · exact he
    · exact absurd hn (Nat.not_le_of_lt hover)
    · exact absurd hall.nfa (Nat.not_le_of_lt hover)
  · intro dest tuning longest hfree hn hnot
    rw [compileWithListings_of_unblocked hfree]
    rcases hcases longest tuning with ⟨hover, _⟩ | ⟨_, _, he⟩ | ⟨hall, _⟩
    · exact absurd hn (Nat.not_le_of_lt hover)
    · exact he
    · exact absurd hall hnot
  · intro dest dest' t t' d d' longest hminimize hnarrow hd hd'
    have hsame : ∀ a : Dfa, t.minimized a = t'.minimized a := fun a => by
      rw [Tuning.minimized, hminimize, Tuning.minimized]
    obtain ⟨_, forward, reverse, hforward, hreverse, rfl⟩ :=
      hneeds.database_ok hs hr (database_of_ok hd)
    obtain ⟨_, forward', reverse', hforward', hreverse', rfl⟩ :=
      hneeds.database_ok hs hr (database_of_ok hd')
    rw [hsame, hnarrow, hforward'] at hforward
    rw [hsame, hnarrow, hreverse'] at hreverse
    rw [Except.ok.inj hforward, Except.ok.inj hreverse]

/-- The automaton of `a*` has seven states. -/
theorem exists_thresholds_letters : letters.Supported ∧ letters.Ranged ∧
    (∃ f r, Thresholds letters lettersNfa f r) ∧
    (compileWithListings {} letters true { maxNfaStates := 6 }).1 =
      .error (.stateLimit "NFA state" 6) ∧
    ∃ d, (compileWithListings {} letters true { maxNfaStates := 7 }).1 = .ok d := by
  have hs : letters.Supported := Pattern.supported_of_checkSupported rfl
  have hr : letters.Ranged := Pattern.ranged_of_checkRanges rfl
  obtain ⟨n, f, r, h⟩ := exists_thresholds hs hr
  obtain ⟨d, hd⟩ := exists_compile_letters
  have hrun : (compileWithListings {} letters true {}).1 = .ok d := hd
  have hopens : ∀ {t : Tuning}, t.Unblocked {} := fun _ _ => rfl
  have hall := (h.compiles true hopens).1 ⟨d, hrun⟩
  have hbuilt := h.needs.nfa ({} : Tuning).maxNfaStates
  rw [ofPattern_letters, if_pos hall.nfa] at hbuilt
  obtain rfl := Except.ok.inj hbuilt
  refine ⟨hs, hr, ⟨f, r, h⟩, h.nfaLimit true hopens (by decide), ?_⟩
  exact (h.compiles true hopens).2 ⟨by decide, hall.forward, hall.reverse⟩

end ByteRegex
