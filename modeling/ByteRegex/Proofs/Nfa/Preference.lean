-- The matcher tries ends in the order in which the automaton prefers its
-- paths: a search for the first end is a search of the automaton, depth first
-- and without marks. This asks that no pass through an unbounded repeat is
-- empty.
import ByteRegex.Proofs.Matcher
import ByteRegex.Proofs.Nfa.Fragment

namespace ByteRegex

/-- Every repeat without a maximum has a body that is not nullable. -/
def Pattern.LoopsConsume (p : Pattern) : Prop :=
  p.AllNodes fun
    | .rep _ body _ none _ => body.nullable = false
    | _ => True

namespace Nfa

open Matcher (Search)
open Utf8 (ByteRange)

variable {n : Nfa} {data : Bytes}

/-! ## Searches for one place -/

namespace First

theorem none_of_all {cs : List (Nat × Nat)} (h : ∀ c ∈ cs, First n data [c] none) :
    First n data cs none := by
  induction cs with
  | nil => exact .nil
  | cons c cs ih =>
    exact (h c (by simp)).append_none (ih fun d hd => h d (by simp [hd]))

/-- A stack on which every entry finds `r` or nothing, and some entry finds `r`. -/
theorem of_some {cs : List (Nat × Nat)} {r : Option Nat}
    (h : ∀ c ∈ cs, First n data [c] r ∨ First n data [c] none)
    (hex : ∃ c ∈ cs, First n data [c] r) : First n data cs r := by
  cases r with
  | none => exact none_of_all fun c hc => (h c hc).elim id id
  | some e =>
    induction cs with
    | nil => simp at hex
    | cons c cs ih =>
      rcases h c (by simp) with hc | hc
      · exact hc.append_some
      · refine hc.append_none (ih (fun d hd => h d (by simp [hd])) ?_)
        obtain ⟨d, hd, hf⟩ := hex
        rcases List.mem_cons.1 hd with rfl | hd
        · cases hf.unique hc
        · exact ⟨d, hd, hf⟩

end First

/-- A run that finishes finds what the automaton finds from a stack. -/
def Finds (n : Nfa) (data : Bytes) (cs : List (Nat × Nat)) (t : Search (Option Nat)) : Prop :=
  ∀ m s b m' r, t m s = some (b, m', r) →
    (b = true ∧ ∃ e, r = some e ∧ First n data cs (some e)) ∨
      (b = false ∧ r = s ∧ First n data cs none)

namespace Finds

variable {cs ds : List (Nat × Nat)} {t u : Search (Option Nat)}

theorem of_eq (h : Finds n data cs u) (htu : ∀ m s, t m s = u m s) : Finds n data cs t := by
  intro m s b m' r hr
  exact h m s b m' r (htu m s ▸ hr)

theorem count (h : Finds n data cs t) :
    Finds n data cs fun m s => if Matcher.maxSteps ≤ m then none else t (m + 1) s := by
  intro m s b m' r hr
  dsimp only at hr
  split at hr
  · cases hr
  · exact h _ _ _ _ _ hr

theorem fail (h : First n data cs none) : Finds n data cs fun m s => some (false, m, s) := by
  intro m s b m' r hr
  simp only [Option.some.injEq, Prod.mk.injEq] at hr
  obtain ⟨rfl, _, rfl⟩ := hr
  exact Or.inr ⟨rfl, rfl, h⟩

theorem map (h : Finds n data ds t) (hcs : ∀ r, First n data ds r → First n data cs r) :
    Finds n data cs t := by
  intro m s b m' r hr
  rcases h m s b m' r hr with ⟨hb, e, he, hf⟩ | ⟨hb, hs, hf⟩
  · exact Or.inl ⟨hb, e, he, hcs _ hf⟩
  · exact Or.inr ⟨hb, hs, hcs _ hf⟩

theorem orElse (ht : Finds n data cs t) (hu : Finds n data ds u) :
    Finds n data (cs ++ ds) (Matcher.orElse t u) := by
  intro m s b m' r hr
  unfold Matcher.orElse at hr
  split at hr
  · rename_i m1 s1 h1
    rcases ht m s false m1 s1 h1 with ⟨hb, _⟩ | ⟨_, rfl, hnone⟩
    · cases hb
    · rcases hu _ _ _ _ _ hr with ⟨hb, e, he, hf⟩ | ⟨hb, hs, hf⟩
      · exact Or.inl ⟨hb, e, he, hnone.append_none hf⟩
      · exact Or.inr ⟨hb, hs, hnone.append_none hf⟩
  · rename_i hne
    rcases ht m s b m' r hr with ⟨hb, e, he, hf⟩ | ⟨rfl, _, _⟩
    · exact Or.inl ⟨hb, e, he, hf.append_some⟩
    · exact absurd hr (hne m' r)

theorem enter {c : Nat × Nat} (hc : ¬ n.Accepting c.1) (h : Finds n data (n.moves data c) t) :
    Finds n data [c] t :=
  h.map fun r hr => .enter hc (by rwa [List.append_nil])

theorem eps {s x i : Nat} (hw : Wired n s [.eps x]) (h : Finds n data [(x, i)] t) :
    Finds n data [(s, i)] t :=
  enter hw.not_accepting (by rw [hw.moves]; exact h)

theorem prefer {s onward stop i : Nat} {greedy : Bool}
    (hw : Wired n s (choice greedy onward stop)) (ht : Finds n data [(onward, i)] t)
    (hu : Finds n data [(stop, i)] u) : Finds n data [(s, i)] (Matcher.prefer greedy t u) := by
  refine enter hw.not_accepting ?_
  rw [hw.moves]
  cases greedy with
  | true => exact ht.orElse hu
  | false => exact hu.orElse ht

theorem look {s x i : Nat} {kind : Look} (hw : Wired n s [.look kind x]) {holds : Bool}
    (hkind : (placeOf data i).holds kind = holds) {k : Nat → Search (Option Nat)}
    (hk : holds = true → Finds n data [(x, i)] (k i)) :
    Finds n data [(s, i)] (Matcher.proceed holds k i) := by
  refine enter hw.not_accepting ?_
  rw [hw.moves, List.filterMap_cons, Edge.next?, hkind]
  cases holds with
  | true => exact hk rfl
  | false => exact fail .nil

end Finds

/-! ## Code points -/

/-- A sequence of the tree goes on from the state over the bytes before `i`, and ends before
`j`. -/
def SpellsTo (n : Nfa) (data : Bytes) (x s i j : Nat) : Prop :=
  ∃ rs bs, Spells n x s rs ∧ Utf8.admits rs bs = true ∧ Utf8.StandsAt data i bs ∧
    j = i + bs.length

/-- Behind a byte a sequence has come to its end or goes on from the next state. -/
theorem spellsTo_iff {x s i j : Nat} :
    SpellsTo n data x s i j ↔ ∃ (r : ByteRange) (t : Nat) (b : UInt8),
      .bytes r.lo r.hi t ∈ (n.state s).edges.toList ∧ data[i]? = some b ∧ r.contains b = true ∧
        ((t = x ∧ j = i + 1) ∨ (t ≠ x ∧ SpellsTo n data x t (i + 1) j)) := by
  constructor
  · rintro ⟨rs, bs, h, ha, hi, rfl⟩
    obtain _ | ⟨b, bs⟩ := bs
    · cases h <;> cases ha
    obtain ⟨hb, hi⟩ := Utf8.standsAt_cons.1 hi
    cases h with
    | @last _ r he =>
      rw [Utf8.admits, Bool.and_eq_true] at ha
      obtain _ | ⟨b', bs⟩ := bs
      · exact ⟨r, x, b, he, hb, ha.1, Or.inl ⟨rfl, rfl⟩⟩
      · cases ha.2
    | @more _ t r rs he hne h =>
      rw [Utf8.admits, Bool.and_eq_true] at ha
      refine ⟨r, t, b, he, hb, ha.1, Or.inr ⟨hne, rs, bs, h, ha.2, hi, ?_⟩⟩
      rw [List.length_cons]
      omega
  · rintro ⟨r, t, b, he, hb, hr, ⟨rfl, rfl⟩ | ⟨hne, rs, bs, h, ha, hi, rfl⟩⟩
    · exact ⟨[r], [b], .last he, by simp [Utf8.admits, hr],
        Utf8.standsAt_cons.2 ⟨hb, Utf8.standsAt_nil data _⟩, rfl⟩
    · refine ⟨r :: rs, b :: bs, .more he hne h, by simp [Utf8.admits, hr, ha],
        Utf8.standsAt_cons.2 ⟨hb, hi⟩, ?_⟩
      rw [List.length_cons]
      omega

section Tree

variable {x : Nat} {label : Nat → Option (List ByteRange)} {seqs : List (List ByteRange)}

theorem Branches.edge_eq {s t : Nat} {before : List ByteRange} {r : ByteRange}
    (h : Branches n x label seqs s before) (he : .bytes r.lo r.hi t ∈ (n.state s).edges.toList) :
    (t = x ∧ before ++ [r] ∈ seqs) ∨ (t ≠ x ∧ label t = some (before ++ [r])) := by
  obtain ⟨⟨lo, hi⟩, t', heq, ht⟩ := h _ he
  simp only [Edge.bytes.injEq] at heq
  obtain ⟨rfl, rfl, rfl⟩ := heq
  exact ht

theorem Spells.mem (hl : ∀ s before, label s = some before →
      ¬ n.Accepting s ∧ Branches n x label seqs s before) {s : Nat} {rs before : List ByteRange}
    (h : Spells n x s rs) (hs : label s = some before) : before ++ rs ∈ seqs := by
  induction h generalizing before with
  | last he =>
    rcases (hl _ before hs).2.edge_eq he with ⟨_, hm⟩ | ⟨hne, _⟩
    · exact hm
    · exact absurd rfl hne
  | more he hne _ ih =>
    rcases (hl _ before hs).2.edge_eq he with ⟨heq, _⟩ | ⟨_, ht⟩
    · exact absurd heq hne
    · simpa using ih ht

/-- If all sequences that go on from a state end at one place, the automaton finds what it finds
from the exit there, or nothing if none goes on. -/
theorem Spells.first (hl : ∀ s before, label s = some before →
      ¬ n.Accepting s ∧ Branches n x label seqs s before) {s i j : Nat}
    {before : List ByteRange} (hs : label s = some before)
    (hj : ∀ j', SpellsTo n data x s i j' → j' = j) {r : Option Nat} :
    (SpellsTo n data x s i j → First n data [(x, j)] r → First n data [(s, i)] r) ∧
      (¬ SpellsTo n data x s i j → First n data [(s, i)] none) := by
  induction hk : data.size - i using Nat.strongRecOn generalizing s i before with
  | _ k ih =>
    obtain ⟨hna, hb⟩ := hl s before hs
    -- each move leads to the exit before `j`, or to a state for which the claim holds
    have hmove : ∀ c ∈ n.moves data (s, i), (c = (x, j) ∧ SpellsTo n data x s i j) ∨
        (∃ t, c = (t, i + 1) ∧
          (SpellsTo n data x t (i + 1) j → SpellsTo n data x s i j) ∧
          (SpellsTo n data x t (i + 1) j → First n data [(x, j)] r → First n data [c] r) ∧
          (¬ SpellsTo n data x t (i + 1) j → First n data [c] none)) := by
      intro c hc
      obtain ⟨e, he, hc⟩ := mem_moves.1 hc
      obtain ⟨r', t, rfl, ht⟩ := hb e he
      obtain ⟨b, hdata, hr, rfl⟩ := next?_range.1 hc
      have hlt := (Array.getElem?_eq_some_iff.1 hdata).1
      rcases ht with ⟨rfl, _⟩ | ⟨hne, ht⟩
      · have hto := spellsTo_iff.2 ⟨r', t, b, he, hdata, hr, Or.inl ⟨rfl, rfl⟩⟩
        obtain rfl := hj _ hto
        exact Or.inl ⟨rfl, hto⟩
      · have hup : ∀ j', SpellsTo n data x t (i + 1) j' → SpellsTo n data x s i j' :=
          fun j' h => spellsTo_iff.2 ⟨r', t, b, he, hdata, hr, Or.inr ⟨hne, h⟩⟩
        exact Or.inr ⟨t, rfl, hup j,
          ih (data.size - (i + 1)) (by omega) ht (fun j' h => hj j' (hup j' h)) rfl⟩
    constructor
    · intro hto hx
      refine .enter hna ?_
      rw [List.append_nil]
      refine First.of_some (fun c hc => ?_) ?_
      · rcases hmove c hc with ⟨rfl, _⟩ | ⟨t, rfl, _, h1, h2⟩
        · exact Or.inl hx
        · by_cases ht : SpellsTo n data x t (i + 1) j
          · exact Or.inl (h1 ht hx)
          · exact Or.inr (h2 ht)
      · obtain ⟨r', t, b, he, hdata, hr, ht⟩ := spellsTo_iff.1 hto
        refine ⟨_, mem_moves.2 ⟨_, he, next?_range.2 ⟨b, hdata, hr, rfl⟩⟩, ?_⟩
        rcases hmove _ (mem_moves.2 ⟨_, he, next?_range.2 ⟨b, hdata, hr, rfl⟩⟩) with
          ⟨heq, _⟩ | ⟨t', heq, _, h1, _⟩
        · rw [heq]
          exact hx
        · rcases ht with ⟨rfl, rfl⟩ | ⟨_, ht⟩
          · exact hx
          · simp only [Prod.mk.injEq, and_true] at heq
            exact h1 (heq ▸ ht) hx
    · intro hto
      refine .enter hna ?_
      rw [List.append_nil]
      refine First.none_of_all fun c hc => ?_
      rcases hmove c hc with ⟨_, h⟩ | ⟨t, rfl, hup, _, h2⟩
      · exact absurd h hto
      · exact h2 fun h => hto (hup h)

end Tree

/-! ## Patterns -/

/-- A search for the pattern finds what the automaton finds between two states, if what it hands
over to does so behind each match. -/
def Tracks (n : Nfa) (data : Bytes) (p : Pattern) (s x : Nat) : Prop :=
  ∀ i (k : Nat → Search (Option Nat)), (∀ j, Matches data p i j → Finds n data [(x, j)] (k j)) →
    Finds n data [(s, i)] (Matcher.search data p i k)

theorem Trie.tracks {loc : Location} {ranges : List (Nat × Nat)} {negated : Bool} {s x : Nat}
    {seqs : List (List ByteRange)} (h : Trie n s x seqs)
    (hseqs : ∀ bs, (∃ rs ∈ seqs, Utf8.admits rs bs = true) ↔
      ∃ c, Utf8.IsScalar c ∧ Matcher.charAllowed ranges negated c = true ∧ bs = Utf8.encode c) :
    Tracks n data (.chars loc ranges negated) s x := by
  obtain ⟨label, hs, hl, hall⟩ := h
  intro i k hk
  -- the sequences from the entry end where the one code point at `i` ends
  have hto : ∀ j, SpellsTo n data x s i j ↔ Matches data (.chars loc ranges negated) i j := by
    intro j
    constructor
    · rintro ⟨rs, bs, h, ha, hi, rfl⟩
      obtain ⟨c, hc, hallowed, rfl⟩ := (hseqs bs).1 ⟨rs, by simpa using h.mem hl hs, ha⟩
      exact ⟨c, hc, hallowed, hi, rfl⟩
    · rintro ⟨c, hc, hallowed, hi, rfl⟩
      obtain ⟨rs, hrs, ha⟩ := (hseqs _).2 ⟨c, hc, hallowed, rfl⟩
      exact ⟨rs, _, hall rs hrs, ha, hi, rfl⟩
  rcases hd : Utf8.decodeAt data i with _ | ⟨c, len⟩
  · refine ((Finds.fail ?_).count).of_eq fun m s => by rw [Matcher.search, hd]
    have hnone : ∀ j, ¬ SpellsTo n data x s i j := by
      intro j hj
      obtain ⟨c, hc, _, hi, _⟩ := (hto j).1 hj
      have := Utf8.decodeAt_eq_some_iff.2 ⟨hc, hi, rfl⟩
      rw [hd] at this
      cases this
    exact (Spells.first (j := i) (r := none) hl hs fun j hj => absurd hj (hnone j)).2 (hnone i)
  · obtain ⟨hc, hi, rfl⟩ := Utf8.decodeAt_eq_some_iff.1 hd
    have huniq : ∀ j, SpellsTo n data x s i j →
        Matcher.charAllowed ranges negated c = true ∧ j = i + (Utf8.encode c).length := by
      intro j hj
      obtain ⟨c', hc', ha, hi', rfl⟩ := (hto j).1 hj
      have := Utf8.decodeAt_eq_some_iff.2 ⟨hc', hi', rfl⟩
      rw [hd, Option.some.injEq, Prod.mk.injEq] at this
      obtain ⟨rfl, _⟩ := this
      exact ⟨ha, rfl⟩
    have hfirst := fun r => Spells.first (r := r) hl hs fun j hj => (huniq j hj).2
    refine Finds.of_eq (Finds.count (t := Matcher.proceed
      (Matcher.charAllowed ranges negated c) k (i + (Utf8.encode c).length)) ?_)
      fun m s => by rw [Matcher.search, hd]
    by_cases ha : Matcher.charAllowed ranges negated c = true
    · have hm : Matches data (.chars loc ranges negated) i (i + (Utf8.encode c).length) :=
        ⟨c, hc, ha, hi, rfl⟩
      refine ((hk _ hm).map fun r => (hfirst r).1 ((hto _).2 hm)).of_eq fun m s => ?_
      rw [Matcher.proceed, if_pos ha]
    · refine (Finds.fail ((hfirst none).2 fun hj => ha (huniq _ hj).1)).of_eq fun m s => ?_
      rw [Matcher.proceed, if_neg ha]

theorem Wired.runs_tracks {loc : Location} {ranges : List (UInt8 × UInt8)} {s x : Nat}
    {runs : List (UInt8 × UInt8)} (hw : Wired n s (runs.map fun r => .bytes r.1 r.2 x))
    (hruns : ∀ b, (∃ r ∈ runs, r.1 ≤ b ∧ b ≤ r.2) ↔ Matcher.byteAllowed ranges b = true) :
    Tracks n data (.bytes loc ranges) s x := by
  intro i k hk
  have hmem : ∀ c, c ∈ n.moves data (s, i) ↔
      ∃ b, data[i]? = some b ∧ Matcher.byteAllowed ranges b = true ∧ c = (x, i + 1) := by
    intro c
    simp only [hw.moves, List.mem_filterMap, List.mem_map, ← hruns]
    constructor
    · rintro ⟨_, ⟨r, hr, rfl⟩, hc⟩
      obtain ⟨b, hb, h1, h2, rfl⟩ := next?_bytes.1 hc
      exact ⟨b, hb, ⟨r, hr, h1, h2⟩, rfl⟩
    · rintro ⟨b, hb, ⟨r, hr, h1, h2⟩, rfl⟩
      exact ⟨_, ⟨r, hr, rfl⟩, next?_bytes.2 ⟨b, hb, h1, h2, rfl⟩⟩
  have hfail : (∀ c, c ∉ n.moves data (s, i)) → First n data [(s, i)] none := fun h =>
    .enter hw.not_accepting (by
      rw [List.append_nil]
      exact First.none_of_all fun c hc => absurd hc (h c))
  rcases hd : data[i]? with _ | b
  · refine ((Finds.fail (hfail fun c hc => ?_)).count).of_eq fun m s => by rw [Matcher.search, hd]
    obtain ⟨b, hb, _⟩ := (hmem c).1 hc
    rw [hd] at hb
    cases hb
  · refine Finds.of_eq (Finds.count (t := Matcher.proceed (Matcher.byteAllowed ranges b) k
      (i + 1)) ?_) fun m s => by rw [Matcher.search, hd]
    by_cases ha : Matcher.byteAllowed ranges b = true
    · refine ((hk _ ⟨b, hd, ha, rfl⟩).map fun r hr => ?_).of_eq fun m s => by
        rw [Matcher.proceed, if_pos ha]
      refine .enter hw.not_accepting ?_
      rw [List.append_nil]
      refine First.of_some (fun c hc => Or.inl ?_) ⟨(x, i + 1), (hmem _).2 ⟨b, hd, ha, rfl⟩, hr⟩
      obtain ⟨_, _, _, rfl⟩ := (hmem c).1 hc
      exact hr
    · refine (Finds.fail (hfail fun c hc => ha ?_)).of_eq fun m s => by
        rw [Matcher.proceed, if_neg ha]
      obtain ⟨b', hb', ha', _⟩ := (hmem c).1 hc
      rw [hd, Option.some.injEq] at hb'
      exact hb' ▸ ha'

theorem SeqFrag.tracks {ps : List Pattern}
    (hps : ∀ p ∈ ps, ∀ s x, Frag n p s x → Tracks n data p s x) {s x : Nat}
    (h : SeqFrag n ps s x) (i : Nat) (k : Nat → Search (Option Nat))
    (hk : ∀ j, MatchesSeq data ps i j → Finds n data [(x, j)] (k j)) :
    Finds n data [(s, i)] (Matcher.searchSeq data ps i k) := by
  induction ps generalizing s i with
  | nil =>
    rw [show s = x from h]
    exact (hk i rfl).of_eq fun m s => by rw [Matcher.searchSeq]
  | cons p ps ih =>
    refine Finds.of_eq (u := Matcher.search data p i fun j => Matcher.searchSeq data ps j k) ?_
      fun m s => by rw [Matcher.searchSeq]
    cases ps with
    | nil =>
      refine hps p (by simp) s x h i _ fun j hj => ?_
      exact (hk j ⟨j, hj, rfl⟩).of_eq fun m s => by rw [Matcher.searchSeq]
    | cons q ps =>
      obtain ⟨y, t, hp, hw, hq⟩ := h
      refine hps p (by simp) s y hp i _ fun j hj => Finds.eps hw ?_
      exact ih (fun r hr => hps r (by simp [hr])) hq j fun l hl => hk l ⟨j, hj, hl⟩

theorem AltFrag.tracks {ps : List Pattern}
    (hps : ∀ p ∈ ps, ∀ s x, Frag n p s x → Tracks n data p s x) {x : Nat} {entries : List Nat}
    (h : AltFrag n ps entries x) (i : Nat) (k : Nat → Search (Option Nat))
    (hk : ∀ j, MatchesAlt data ps i j → Finds n data [(x, j)] (k j)) :
    Finds n data (entries.map fun t => (t, i)) (Matcher.searchAlt data ps i k) := by
  induction ps generalizing entries with
  | nil =>
    cases entries with
    | nil => exact (Finds.fail .nil).of_eq fun m s => by rw [Matcher.searchAlt]
    | cons t entries => exact absurd h id
  | cons p ps ih =>
    cases entries with
    | nil => exact absurd h id
    | cons t entries =>
      obtain ⟨⟨y, hp, hw⟩, hrest⟩ := h
      rw [Matcher.searchAlt_cons]
      refine (hps p (by simp) t y hp i k fun j hj => Finds.eps hw (hk j (Or.inl hj))).orElse ?_
      exact ih (fun q hq => hps q (by simp [hq])) hrest fun j hj => hk j (Or.inr hj)

/-! ## Repeats -/

section Repeat

variable {body : Pattern} {F : Nat → Nat → Prop}
  (hbody : ∀ s x, F s x → Tracks n data body s x)

include hbody

/-- A loop over a body that consumes. The body leads from `entry` to `z`, and `z` back to `s`. -/
theorem repeat_loop {b : Matcher.Bounds} (hmax : b.max = none) (hcons : body.nullable = false)
    {s entry z stop : Nat} (hw : Wired n s (choice b.greedy entry stop)) (hF : F entry z)
    (hback : ∀ j t, Finds n data [(s, j)] t → Finds n data [(z, j)] t)
    {fuel count i : Nat} {k : Nat → Search (Option Nat)} (hmin : b.min ≤ count)
    (hk : ∀ l j, Passes (Matches data body) l i j → Finds n data [(stop, j)] (k j)) :
    Finds n data [(s, i)]
      (Matcher.repeatFrom (Matcher.search data body) b k fuel count i false) := by
  induction fuel generalizing count i with
  | zero =>
    intro m s b m' r hr
    cases hr
  | succ fuel ih =>
    rw [Matcher.repeatFrom_loop hmin hmax (by simp)]
    refine Finds.prefer hw (hbody _ _ hF i _ fun j hj => hback j _ ?_) (hk 0 i rfl)
    have hne : j ≠ i := Nat.ne_of_gt (hj.lt hcons)
    have hrest : Finds n data [(s, j)]
        (Matcher.repeatFrom (Matcher.search data body) b k fuel (count + 1) j false) :=
      ih (by omega) fun l e he => hk (l + 1) e ⟨j, hj, he⟩
    refine hrest.of_eq fun m s => ?_
    rw [if_neg hne, beq_false_of_ne hne]

/-- The copies of a body do what is left of the repeat behind `count` passes, of which the last
one was not empty if an empty one would matter. -/
theorem Copies.tracks {b : Matcher.Bounds} {min s stop : Nat} {max : Option Nat}
    (h : Copies n F b.greedy min max s stop) (hcons : max = none → body.nullable = false)
    {fuel count i : Nat} {last : Bool} {k : Nat → Search (Option Nat)}
    (hmin : 0 < min → count + min = b.min) (hmin' : min = 0 → b.min ≤ count)
    (hmax : b.max = max.map (· + count)) (hlast : max = none → last = false)
    (hk : ∀ l j, min ≤ l → (∀ t, max = some t → l ≤ t) → Passes (Matches data body) l i j →
      Finds n data [(stop, j)] (k j)) :
    Finds n data [(s, i)]
      (Matcher.repeatFrom (Matcher.search data body) b k fuel count i last) := by
  induction fuel generalizing min s max count i last with
  | zero =>
    intro m s b m' r hr
    cases hr
  | succ fuel ih =>
    cases h with
    | done =>
      rw [Matcher.repeatFrom_full (hmin' rfl) hmax (Nat.le_of_eq (Nat.zero_add count))]
      exact hk 0 i (Nat.le_refl 0) (fun t _ => Nat.zero_le t) rfl
    | finish hw =>
      rw [Matcher.repeatFrom_full (hmin' rfl) hmax (Nat.le_of_eq (Nat.zero_add count))]
      exact Finds.eps hw (hk 0 i (Nat.le_refl 0) (fun t _ => Nat.zero_le t) rfl)
    | @must m _ entry exit _ max hw hF hrest =>
      have hcount := hmin (Nat.succ_pos m)
      rw [Matcher.repeatFrom_must (by omega)]
      refine Finds.eps hw (hbody _ _ hF i _ fun j hj => ?_)
      refine ih hrest (fun h => hcons (by rw [h]; rfl)) (fun _ => by omega) (fun _ => by omega)
        ?_ (fun h => ?_) fun l e hl ht he => hk (l + 1) e (by omega) (fun t hte => ?_) ⟨j, hj, he⟩
      · rw [hmax, Option.map_map]
        congr 1
        funext t
        simp only [Function.comp]
        omega
      · exact beq_false_of_ne (Nat.ne_of_gt (hj.lt (hcons (by rw [h]; rfl))))
      · obtain ⟨t', ht', rfl⟩ := Option.map_eq_some_iff.1 hte
        exact Nat.succ_le_succ (ht t' ht')
    | @option top _ entry exit _ hw hF hrest =>
      rw [Matcher.repeatFrom_more (hmin' rfl) hmax (show count < top + 1 + count by omega)]
      refine Finds.prefer hw (hbody _ _ hF i _ fun j hj => ?_)
        (hk 0 i (Nat.le_refl 0) (fun t _ => Nat.zero_le t) rfl)
      refine ih hrest (by simp) (fun h => absurd h (Nat.lt_irrefl 0))
        (fun _ => Nat.le_succ_of_le (hmin' rfl)) ?_ (by simp)
        fun l e hl ht he => hk (l + 1) e (Nat.zero_le _) (fun t hte => ?_) ⟨j, hj, he⟩
      · rw [hmax]
        simp only [Option.map_some, Option.some.injEq]
        omega
      · obtain rfl := Option.some.inj hte
        exact Nat.succ_le_succ (ht top rfl)
    | @star _ entry exit _ hw hF hback =>
      obtain rfl := hlast rfl
      exact repeat_loop hbody hmax (hcons rfl) hw hF (fun j t h => Finds.eps hback h) (hmin' rfl)
        fun l j he => hk l j (Nat.zero_le l) (by simp) he
    | @plus _ entry exit _ hw hF hloop =>
      have hcount := hmin Nat.one_pos
      rw [Matcher.repeatFrom_must (by omega)]
      refine Finds.eps hw (hbody _ _ hF i _ fun j hj => ?_)
      rw [beq_false_of_ne (Nat.ne_of_gt (hj.lt (hcons rfl)))]
      exact repeat_loop hbody hmax (hcons rfl) hloop hF (fun j t h => h) (Nat.le_of_eq hcount.symm)
        fun l e he => hk (l + 1) e (by omega) (by simp) ⟨j, hj, he⟩

end Repeat

/-- A search for the pattern tracks its fragment, if no pass through an unbounded repeat is
empty. -/
theorem Frag.tracks {p : Pattern} (hp : p.LoopsConsume) {s x : Nat} (h : Frag n p s x) :
    Tracks n data p s x := by
  induction p using Pattern.induction generalizing s x with
  | chars loc ranges negated =>
    obtain ⟨seqs, ht, hseqs⟩ := h
    exact ht.tracks hseqs
  | bytes loc ranges =>
    obtain ⟨runs, hw, hruns⟩ := h
    exact hw.runs_tracks hruns
  | seq loc parts ih =>
    have hparts := (Pattern.allNodes_seq.1 hp).2
    intro i k hk
    exact (SeqFrag.tracks (fun p hp s x h => ih p hp (hparts p hp) h) h i k hk).count.of_eq
      fun m s => by rw [Matcher.search]
  | alt loc parts ih =>
    have hparts := (Pattern.allNodes_alt.1 hp).2
    obtain ⟨entries, hw, h⟩ := h
    intro i k hk
    refine Finds.of_eq (Finds.count (t := Matcher.searchAlt data parts i k)
      (Finds.enter hw.not_accepting ?_)) fun m s => by rw [Matcher.search]
    rw [hw.moves, List.filterMap_map]
    have := AltFrag.tracks (fun p hp s x h => ih p hp (hparts p hp) h) h i k hk
    rwa [← List.filterMap_eq_map] at this
  | rep loc body min max greedy ih =>
    obtain ⟨hself, hbody⟩ := Pattern.allNodes_rep.1 hp
    intro i k hk
    refine Finds.of_eq (Finds.count (t := Matcher.repeatFrom (Matcher.search data body)
      ⟨min, max, greedy⟩ k (Matcher.maxSteps + 1) 0 i false) ?_) fun m s => by rw [Matcher.search]
    refine Copies.tracks (b := ⟨min, max, greedy⟩) (fun s x h => ih hbody h) h ?_
      (fun _ => Nat.zero_add min) (fun h => Nat.le_of_eq h) ?_ (fun _ => rfl)
      fun l j h1 h2 h3 => hk j ⟨l, h1, h2, h3⟩
    · rintro rfl
      exact hself
    · simp
  | anchor loc atEnd =>
    intro i k hk
    have hplace : (placeOf data i).holds (if atEnd then .textEnd else .textStart) =
        if atEnd then i == data.size else i == 0 := by cases atEnd <;> rfl
    refine Finds.of_eq (Finds.count (Finds.look (k := k) h hplace fun hh => hk i ?_)) fun m s => by
      rw [Matcher.search]
    cases atEnd <;> simpa [Matches] using hh
  | wordEdge loc negated =>
    intro i k hk
    have hplace : (placeOf data i).holds (if negated then .notWordEdge else .wordEdge) =
        (Matcher.wordEdgeAt data i != negated) := by
      cases negated <;> cases hb : Matcher.wordBefore data i <;>
        simp [placeOf, Dfa.LookContext.holds, Matcher.wordEdgeAt, hb]
    exact Finds.of_eq (Finds.count (Finds.look (k := k) h hplace fun hh => hk i ⟨hh, rfl⟩))
      fun m s => by rw [Matcher.search]
  | empty loc =>
    intro i k hk
    rw [show s = x from h]
    exact (hk i rfl).count.of_eq fun m s => by rw [Matcher.search]
  | backref loc group => exact absurd h id
  | around loc body behind negated => exact absurd h id

end Nfa

end ByteRegex
