-- The sequences of a class node grow into a tree. Each state made on the way
-- is labelled with the ranges that lead there, and a sequence that starts with
-- the same ranges goes through the same states.
import ByteRegex.Proofs.Nfa.Build

namespace ByteRegex.Nfa

open Utf8 (ByteRange)

variable {R : UInt8 → UInt8 → Prop} {c c' : Arena}

/-- The states of an arena, as an automaton. -/
def ofArena (c : Arena) : Nfa := ⟨c, 0, 0⟩

theorem state_ofArena (c : Arena) (t : Nat) : (ofArena c).state t = stateIn c t := rfl

theorem Spells.mono {n n' : Nfa} {x s : Nat} {rs : List ByteRange} (h : Spells n x s rs)
    (hn : ∀ t, ∀ e ∈ (n.state t).edges.toList, e ∈ (n'.state t).edges.toList) :
    Spells n' x s rs := by
  induction h with
  | last he => exact .last (hn _ _ he)
  | more he hne _ ih => exact .more (hn _ _ he) hne ih

/-- A tree from `entry` on has grown in the arena. All its states come from `lo` on, nothing leads
out of the exit yet, and only sequences of a list end there. -/
structure Growing (c : Arena) (lo entry exit : Nat) (label : Nat → Option (List ByteRange))
    (done : List (List ByteRange)) : Prop where
  root : label entry = some []
  inside : ∀ t before, label t = some before → lo ≤ t ∧ t < c.size ∧ t ≠ exit
  closed : lo ≤ exit ∧ exit < c.size ∧ stateIn c exit = {}
  plain : ∀ t before, label t = some before → (stateIn c t).accept = none
  branches : ∀ t before, label t = some before → Branches (ofArena c) exit label done t before

/-- The arena has grown by states and edges of the tree only. -/
structure Extends (R : UInt8 → UInt8 → Prop) (lo : Nat) (c c' : Arena) : Prop where
  size_le : c.size ≤ c'.size
  keeps : ∀ t < lo, stateIn c' t = stateIn c t
  edges : ∀ t, ∀ e ∈ (stateIn c t).edges.toList, e ∈ (stateIn c' t).edges.toList
  tidy : AllTidy R c → AllTidy R c'

theorem Extends.refl (lo : Nat) (c : Arena) : Extends R lo c c :=
  ⟨Nat.le_refl _, fun _ _ => rfl, fun _ _ => id, id⟩

theorem Extends.trans {lo : Nat} {c'' : Arena} (h : Extends R lo c c')
    (h' : Extends R lo c' c'') : Extends R lo c c'' :=
  ⟨Nat.le_trans h.size_le h'.size_le, fun t ht => (h'.keeps t ht).trans (h.keeps t ht),
    fun t e he => h'.edges t e (h.edges t e he), h'.tidy ∘ h.tidy⟩

theorem Extends.newState (lo : Nat) (hlo : lo ≤ c.size) : Extends R lo c (c.push {}) := by
  refine ⟨by simp, fun t ht => ?_, fun t e he => ?_, AllTidy.newState⟩
  · rw [stateIn_push, if_neg (by omega)]
  · rw [stateIn_push]
    split
    · rename_i heq
      rw [heq] at he
      simp [stateIn] at he
    · exact he

theorem mem_edges_addEdge {s t : Nat} {e e' : Edge} (hs : s < c.size) :
    e' ∈ (stateIn (c.addEdge s e) t).edges.toList ↔
      e' ∈ (stateIn c t).edges.toList ∨ (t = s ∧ e' = e) := by
  rw [stateIn_addEdge hs]
  split
  · rename_i heq
    subst heq
    simp
  · rename_i hne
    simp [hne]

theorem Extends.addEdge {lo s : Nat} {e : Edge} (hlo : lo ≤ s) (hs : s < c.size)
    (ht : e.target < c.size) (he : e.Even R)
    (hp : ∀ e' ∈ (stateIn c s).edges.toList, e'.isByte = e.isByte) :
    Extends R lo c (c.addEdge s e) := by
  refine ⟨by simp, fun t htlt => ?_, fun t e' he' => (mem_edges_addEdge hs).2 (Or.inl he'),
    fun hc => hc.addEdge hs ht he hp⟩
  rw [stateIn_addEdge hs, if_neg (by omega)]

/-- One more edge from a state of the tree, to the exit or to another of its states. -/
theorem Growing.addEdge {lo entry exit s t : Nat} {label : Nat → Option (List ByteRange)}
    {done done' : List (List ByteRange)} {before : List ByteRange} {r : ByteRange}
    (h : Growing c lo entry exit label done) (hs : label s = some before)
    (ht : (t = exit ∧ before ++ [r] ∈ done') ∨ (t ≠ exit ∧ label t = some (before ++ [r])))
    (hd : ∀ rs ∈ done, rs ∈ done') :
    Growing (c.addEdge s (.bytes r.lo r.hi t)) lo entry exit label done' := by
  have hin := h.inside s before hs
  refine ⟨h.root, fun u b hu => ?_, ?_, fun u b hu => ?_, fun u b hu => ?_⟩
  · rw [size_addEdge]
    exact h.inside u b hu
  · rw [size_addEdge, stateIn_addEdge hin.2.1, if_neg hin.2.2.symm]
    exact h.closed
  · rw [stateIn_addEdge hin.2.1]
    split
    · exact h.plain s before hs
    · exact h.plain u b hu
  · intro e he
    rcases (mem_edges_addEdge hin.2.1).1 he with he | ⟨rfl, rfl⟩
    · obtain ⟨r', t', rfl, ht'⟩ := h.branches u b hu e he
      exact ⟨r', t', rfl, ht'.imp_left fun h => ⟨h.1, hd _ h.2⟩⟩
    · rw [hs, Option.some.injEq] at hu
      exact ⟨r, t, rfl, hu ▸ ht⟩

/-- All edges of the tree consume a byte. -/
theorem Growing.isByte {lo entry exit s : Nat} {label : Nat → Option (List ByteRange)}
    {done : List (List ByteRange)} {before : List ByteRange}
    (h : Growing c lo entry exit label done) (hs : label s = some before) :
    ∀ e ∈ (stateIn c s).edges.toList, e.isByte = true := by
  intro e he
  obtain ⟨_, _, rfl, _⟩ := h.branches s before hs e he
  rfl

/-- One more state, with a label of its own. -/
theorem Growing.newState {lo entry exit : Nat} {label : Nat → Option (List ByteRange)}
    {done : List (List ByteRange)} (h : Growing c lo entry exit label done)
    (before : List ByteRange) :
    Growing (c.push {}) lo entry exit (fun t => if t = c.size then some before else label t)
      done := by
  have hlt : ∀ t b, label t = some b → t < c.size := fun t b ht => (h.inside t b ht).2.1
  have hlo := h.closed
  refine ⟨?_, fun t b ht => ?_, ?_, fun t b ht => ?_, fun t b ht => ?_⟩
  · rw [if_neg (Nat.ne_of_lt (hlt entry [] h.root))]
    exact h.root
  · rw [Array.size_push]
    split at ht
    · omega
    · have := h.inside t b ht
      omega
  · rw [Array.size_push, stateIn_push, if_neg (by omega)]
    exact ⟨hlo.1, by omega, hlo.2.2⟩
  · rw [stateIn_push]
    split at ht
    · rename_i heq
      rw [if_pos heq]
    · rename_i hne
      rw [if_neg hne]
      exact h.plain t b ht
  · intro e he
    rw [state_ofArena, stateIn_push] at he
    split at ht
    · rename_i heq
      rw [if_pos heq] at he
      simp at he
    · rename_i hne
      rw [if_neg hne] at he
      obtain ⟨r, u, rfl, hu⟩ := h.branches t b ht e he
      exact ⟨r, u, rfl, hu.imp_right fun hu =>
        ⟨hu.1, (if_neg (Nat.ne_of_lt (hlt u _ hu.2))).trans hu.2⟩⟩

section Sequence

variable {lo entry exit : Nat}

/-- The state behind a state and a range is one that is there already, or a new one. -/
theorem child_ok {limit s t : Nat} {label : Nat → Option (List ByteRange)}
    {done : List (List ByteRange)} {before : List ByteRange} {r : ByteRange}
    (h : Growing c lo entry exit label done) (hs : label s = some before)
    (heven : ∀ t, (Edge.bytes r.lo r.hi t).Even R)
    (hc : child limit s r exit c = .ok (t, c')) :
    Extends R lo c c' ∧ t ≠ exit ∧ .bytes r.lo r.hi t ∈ (stateIn c' s).edges.toList ∧
      ∃ label', Growing c' lo entry exit label' done ∧ label' t = some (before ++ [r]) := by
  have hin := h.inside s before hs
  unfold child at hc
  split at hc
  · rename_i u hu
    simp only [Except.ok.injEq, Prod.mk.injEq] at hc
    obtain ⟨rfl, rfl⟩ := hc
    unfold child? at hu
    obtain ⟨e, he, rfl⟩ := Option.map_eq_some_iff.1 hu
    have hmem := Array.mem_of_find?_eq_some he
    have hp := Array.find?_some he
    rw [← Array.mem_toList_iff] at hmem
    obtain ⟨r', t, rfl, ht⟩ := h.branches s before hs e hmem
    simp only [Bool.and_eq_true, beq_iff_eq, bne_iff_ne, ne_eq] at hp
    obtain ⟨⟨h1, h2⟩, h3⟩ := hp
    obtain rfl : r' = r := by cases r; cases r'; simp_all
    rcases ht with ⟨rfl, _⟩ | ⟨_, ht⟩
    · exact absurd rfl h3
    · exact ⟨Extends.refl lo _, h3, hmem, label, h, ht⟩
  · obtain ⟨u, c1, h1, hc⟩ := Build.bind_ok hc
    obtain ⟨_, c2, h2, hc⟩ := Build.bind_ok hc
    obtain ⟨rfl, rfl⟩ := Build.pure_ok hc
    obtain ⟨rfl, rfl⟩ := newState_ok h1
    obtain rfl := addEdge_ok h2
    have hs' : s < Array.size (Array.push c {}) := by simp; omega
    have hnew := h.newState (before ++ [r])
    have hls : (if s = c.size then some (before ++ [r]) else label s) = some before := by
      rw [if_neg (by omega), hs]
    have hclosed := h.closed
    refine ⟨(Extends.newState lo (by omega)).trans
      (Extends.addEdge hin.1 hs' (by simp [Edge.target])
      (heven _) (hnew.isByte hls)), by omega, (mem_edges_addEdge hs').2 (Or.inr ⟨rfl, rfl⟩), _,
      hnew.addEdge hls (Or.inr ⟨by omega, if_pos rfl⟩) fun _ => id, if_pos rfl⟩

/-- A sequence is added behind a state. -/
theorem addSequence_ok {limit s : Nat} {label : Nat → Option (List ByteRange)}
    {done : List (List ByteRange)} {before rs : List ByteRange} {u : Unit}
    (h : Growing c lo entry exit label done) (hs : label s = some before) (hne : rs ≠ [])
    (heven : ∀ r ∈ rs, ∀ t, (Edge.bytes r.lo r.hi t).Even R)
    (hc : addSequence limit exit s rs c = .ok (u, c')) :
    Extends R lo c c' ∧ Spells (ofArena c') exit s rs ∧
      ∃ label', Growing c' lo entry exit label' (done ++ [before ++ rs]) := by
  induction rs generalizing s before label c with
  | nil => exact absurd rfl hne
  | cons r rs ih =>
    have hin := h.inside s before hs
    cases rs with
    | nil =>
      obtain rfl := addEdge_ok hc
      refine ⟨Extends.addEdge hin.1 hin.2.1 h.closed.2.1 (heven r (by simp) _) (h.isByte hs),
        .last ?_, label, ?_⟩
      · exact (mem_edges_addEdge hin.2.1).2 (Or.inr ⟨rfl, rfl⟩)
      · exact h.addEdge hs (Or.inl ⟨rfl, by simp⟩) (by simp +contextual)
    | cons r' rs =>
      obtain ⟨t, c1, h1, hc⟩ := Build.bind_ok hc
      obtain ⟨hext, htne, hedge, label', hgrow, hlt⟩ :=
        child_ok (R := R) h hs (heven r (by simp)) h1
      obtain ⟨hext', hspells, hgrow'⟩ :=
        ih hgrow hlt (by simp) (fun r hr => heven r (by simp [hr])) hc
      refine ⟨hext.trans hext', .more (hext'.edges s _ hedge) htne hspells, ?_⟩
      rwa [List.append_assoc, List.singleton_append] at hgrow'

/-- Sequences are added one after another. -/
theorem addSequences_ok {limit : Nat} {seqs done : List (List ByteRange)} {u : PUnit}
    (h : ∃ label, Growing c lo entry exit label done)
    (hdone : ∀ rs ∈ done, Spells (ofArena c) exit entry rs)
    (heven : ∀ rs ∈ seqs, rs ≠ [] ∧ ∀ r ∈ rs, ∀ t, (Edge.bytes r.lo r.hi t).Even R)
    (hc : (seqs.forM fun rs => addSequence limit exit entry rs) c = .ok (u, c')) :
    Extends R lo c c' ∧ (∃ label, Growing c' lo entry exit label (done ++ seqs)) ∧
      ∀ rs ∈ done ++ seqs, Spells (ofArena c') exit entry rs := by
  induction seqs generalizing c done with
  | nil =>
    obtain ⟨_, rfl⟩ := Build.pure_ok hc
    rw [List.append_nil]
    exact ⟨Extends.refl lo _, h, hdone⟩
  | cons rs seqs ih =>
    obtain ⟨_, c1, h1, hc⟩ := Build.bind_ok hc
    obtain ⟨label, hgrow⟩ := h
    obtain ⟨hne, hev⟩ := heven rs (by simp)
    obtain ⟨hext, hspells, hgrow'⟩ := addSequence_ok hgrow hgrow.root hne hev h1
    have hdone' : ∀ rs' ∈ done ++ [[] ++ rs], Spells (ofArena c1) exit entry rs' := by
      intro rs' hrs'
      rcases List.mem_append.1 hrs' with hrs' | hrs'
      · exact (hdone rs' hrs').mono hext.edges
      · rw [List.mem_singleton.1 hrs']
        exact hspells
    obtain ⟨hext', hgrow'', hall⟩ :=
      ih hgrow' hdone' (fun rs' hrs' => heven rs' (by simp [hrs'])) hc
    rw [List.nil_append, List.append_assoc, List.singleton_append] at hgrow'' hall
    exact ⟨hext.trans hext', hgrow'', hall⟩

/-- The sequences of some classes are added, those of one class after another. -/
theorem addClasses_ok {limit : Nat} {seqsOf : Nat → List (List ByteRange)} {classes : List Nat}
    {done : List (List ByteRange)} {u : PUnit} (h : ∃ label, Growing c lo entry exit label done)
    (hdone : ∀ rs ∈ done, Spells (ofArena c) exit entry rs)
    (heven : ∀ rs ∈ classes.flatMap seqsOf,
      rs ≠ [] ∧ ∀ r ∈ rs, ∀ t, (Edge.bytes r.lo r.hi t).Even R)
    (hc : (classes.forM fun i => (seqsOf i).forM fun rs => addSequence limit exit entry rs) c =
      .ok (u, c')) :
    Extends R lo c c' ∧
      (∃ label, Growing c' lo entry exit label (done ++ classes.flatMap seqsOf)) ∧
      ∀ rs ∈ done ++ classes.flatMap seqsOf, Spells (ofArena c') exit entry rs := by
  induction classes generalizing c done with
  | nil =>
    obtain ⟨_, rfl⟩ := Build.pure_ok hc
    rw [List.flatMap_nil, List.append_nil]
    exact ⟨Extends.refl lo _, h, hdone⟩
  | cons i classes ih =>
    obtain ⟨_, c1, h1, hc⟩ := Build.bind_ok hc
    rw [List.flatMap_cons] at heven ⊢
    obtain ⟨hext, hgrow, hall⟩ :=
      addSequences_ok h hdone (fun rs hrs => heven rs (List.mem_append_left _ hrs)) h1
    obtain ⟨hext', hgrow', hall'⟩ :=
      ih hgrow hall (fun rs hrs => heven rs (List.mem_append_right _ hrs)) hc
    rw [List.append_assoc] at hgrow' hall'
    exact ⟨hext.trans hext', hgrow', hall'⟩

end Sequence

/-- A tree starts with its root and its exit. -/
theorem Growing.start {exit : Nat} (hlo : c.size < exit)
    (hexit : exit < c'.size) (hroot : stateIn c' c.size = {}) (hclosed : stateIn c' exit = {}) :
    Growing c' c.size c.size exit (fun t => if t = c.size then some [] else none) [] := by
  have hlabel : ∀ t (b : List ByteRange), (if t = c.size then some [] else none) = some b →
      t = c.size := by
    intro t b ht
    by_contra hne
    rw [if_neg hne] at ht
    cases ht
  refine ⟨if_pos rfl, fun t b ht => ?_, ⟨Nat.le_of_lt hlo, hexit, hclosed⟩, fun t b ht => ?_,
    fun t b ht => ?_⟩
  · have := hlabel t b ht
    omega
  · rw [hlabel t b ht, hroot]
  · intro e he
    rw [hlabel t b ht, state_ofArena, hroot] at he
    simp at he

/-- A tree that has grown in the arena is a tree of every automaton with the same states. -/
theorem Growing.trie {n : Nfa} {lo entry exit : Nat} {label : Nat → Option (List ByteRange)}
    {seqs : List (List ByteRange)} (h : Growing c lo entry exit label seqs)
    (hspells : ∀ rs ∈ seqs, Spells (ofArena c) exit entry rs)
    (hn : Like n c fun t => lo ≤ t ∧ t < c.size ∧ t ≠ exit) : Trie n entry exit seqs := by
  have hstate : ∀ t b, label t = some b → n.state t = stateIn c t :=
    fun t b ht => hn t (h.inside t b ht)
  -- all states on the way to the exit have a label
  have hpath : ∀ s rs, Spells (ofArena c) exit s rs → ∀ b, label s = some b →
      Spells n exit s rs := by
    intro s rs hs
    induction hs with
    | last he =>
      intro b hb
      exact .last (by rw [hstate _ b hb]; exact he)
    | more he hne _ ih =>
      intro b hb
      obtain ⟨r', t', heq, ht'⟩ := h.branches _ b hb _ he
      simp only [Edge.bytes.injEq] at heq
      obtain ⟨_, _, rfl⟩ := heq
      rcases ht' with ⟨heq, _⟩ | ⟨_, hlabel⟩
      · exact absurd heq hne
      · exact .more (by rw [hstate _ b hb]; exact he) hne (ih _ hlabel)
  refine ⟨label, h.root, fun t b ht => ⟨?_, ?_⟩, fun rs hrs => ?_⟩
  · rw [Accepting, hstate t b ht, h.plain t b ht]
    simp
  · intro e he
    rw [hstate t b ht] at he
    exact h.branches t b ht e he
  · exact hpath entry rs (hspells rs hrs) [] h.root

/-- The fragment of a class node is a tree of the sequences of its classes. -/
theorem charsFragment_built {limit : Nat} {alpha : Alphabet} {set : Except Error CodePointSet}
    {s : CodePointSet} {f : Fragment} {a a' : Arena} (hset : set = .ok s)
    (heven : ∀ rs ∈ (alpha.classesIn s).flatMap fun i => alpha.sequences.getD i [],
      rs ≠ [] ∧ ∀ r ∈ rs, ∀ t, (Edge.bytes r.lo r.hi t).Even R)
    (h : charsFragment limit alpha set a = .ok (f, a')) :
    Built R a a' f fun n => Trie n f.entry f.exit
      ((alpha.classesIn s).flatMap fun i => alpha.sequences.getD i []) := by
  obtain ⟨entry, a1, h1, h⟩ := Build.bind_ok h
  obtain ⟨exit, a2, h2, h⟩ := Build.bind_ok h
  obtain ⟨s', a3, h3, h⟩ := Build.bind_ok h
  obtain ⟨_, a4, h4, h⟩ := Build.bind_ok h
  obtain ⟨rfl, rfl⟩ := Build.pure_ok h
  obtain ⟨hs', rfl⟩ := Build.lift_ok h3
  obtain rfl := Except.ok.inj (hset.symm.trans hs')
  obtain ⟨rfl, rfl, hsize2, hentry, hexit, hnew⟩ := newState_two_ok (R := R) h1 h2
  have hstart := Growing.start (Nat.lt_succ_self _) (by omega) hentry hexit
  obtain ⟨hext, ⟨label, hgrow⟩, hspells⟩ := addClasses_ok (R := R) ⟨_, hstart⟩ (by simp) heven h4
  rw [List.nil_append] at hgrow hspells
  have hsize := hext.size_le
  refine ⟨⟨by omega, fun t ht => ?_, fun ha => hext.tidy (hnew.tidy ha)⟩,
    ⟨Nat.le_refl _, by simp only; omega⟩,
    ⟨Nat.le_succ _, by simp only; omega⟩, hgrow.closed.2.2, fun n hn => hgrow.trie hspells hn⟩
  rw [hext.keeps t ht, hnew.keeps t ht]

end ByteRegex.Nfa
