-- The part of an automaton that stands for a pattern, told by its states
-- alone, and what it does: from its entry the automaton gets to its exit just
-- over the text that the pattern matches.
import ByteRegex.Proofs.Matches
import ByteRegex.Proofs.Nfa.Path

namespace ByteRegex.Nfa

open Utf8 (ByteRange)

/-! ## The form of a fragment -/

/-- The state has these edges and does not accept. -/
def Wired (n : Nfa) (s : Nat) (es : List Edge) : Prop := n.state s = ⟨es.toArray, none⟩

/-- The edges of a state where a repeat may go on or stop. -/
def choice (greedy : Bool) (onward stop : Nat) : List Edge :=
  if greedy then [.eps onward, .eps stop] else [.eps stop, .eps onward]

/-- A path of byte ranges from a state to the exit, which it meets only at its end. -/
inductive Spells (n : Nfa) (exit : Nat) : Nat → List ByteRange → Prop
  | last {s : Nat} {r : ByteRange} :
      .bytes r.lo r.hi exit ∈ (n.state s).edges.toList → Spells n exit s [r]
  | more {s t : Nat} {r : ByteRange} {rs : List ByteRange} :
      .bytes r.lo r.hi t ∈ (n.state s).edges.toList → t ≠ exit → Spells n exit t rs →
      Spells n exit s (r :: rs)

/-- The edges of a state of a tree of sequences lead to the exit, where a sequence ends, or on to
a state behind one more range. -/
def Branches (n : Nfa) (exit : Nat) (label : Nat → Option (List ByteRange))
    (seqs : List (List ByteRange)) (s : Nat) (before : List ByteRange) : Prop :=
  ∀ e ∈ (n.state s).edges.toList, ∃ r t, e = .bytes r.lo r.hi t ∧
    ((t = exit ∧ before ++ [r] ∈ seqs) ∨ (t ≠ exit ∧ label t = some (before ++ [r])))

/-- A tree whose paths from the entry to the exit spell the sequences of a list. Each state inside
is labelled with the ranges that lead there. -/
def Trie (n : Nfa) (entry exit : Nat) (seqs : List (List ByteRange)) : Prop :=
  ∃ label : Nat → Option (List ByteRange), label entry = some [] ∧
    (∀ s before, label s = some before → ¬ n.Accepting s ∧ Branches n exit label seqs s before) ∧
    ∀ rs ∈ seqs, Spells n exit entry rs

/-- The copies of the body of a repeat between a state and the stop: those that must be passed,
and those that may be. Without a maximum the last copy leads back. -/
inductive Copies (n : Nfa) (body : Nat → Nat → Prop) (greedy : Bool) :
    Nat → Option Nat → Nat → Nat → Prop
  | done {s : Nat} : Copies n body greedy 0 (some 0) s s
  | finish {s stop : Nat} : Wired n s [.eps stop] → Copies n body greedy 0 (some 0) s stop
  | must {m s entry exit stop : Nat} {max : Option Nat} :
      Wired n s [.eps entry] → body entry exit → Copies n body greedy m max exit stop →
      Copies n body greedy (m + 1) (max.map (· + 1)) s stop
  | option {k s entry exit stop : Nat} :
      Wired n s (choice greedy entry stop) → body entry exit →
      Copies n body greedy 0 (some k) exit stop → Copies n body greedy 0 (some (k + 1)) s stop
  | star {s entry exit stop : Nat} :
      Wired n s (choice greedy entry stop) → body entry exit → Wired n exit [.eps s] →
      Copies n body greedy 0 none s stop
  | plus {s entry exit stop : Nat} :
      Wired n s [.eps entry] → body entry exit → Wired n exit (choice greedy entry stop) →
      Copies n body greedy 1 none s stop

mutual

/-- The states from `s` to `x` are the fragment of the pattern. -/
def Frag (n : Nfa) : Pattern → Nat → Nat → Prop
  | .chars _ ranges negated, s, x =>
    ∃ seqs, Trie n s x seqs ∧ ∀ bs, (∃ rs ∈ seqs, Utf8.admits rs bs = true) ↔
      ∃ c, Utf8.IsScalar c ∧ Matcher.charAllowed ranges negated c = true ∧ bs = Utf8.encode c
  | .bytes _ ranges, s, x =>
    ∃ runs : List (UInt8 × UInt8), Wired n s (runs.map fun r => .bytes r.1 r.2 x) ∧
      ∀ b, (∃ r ∈ runs, r.1 ≤ b ∧ b ≤ r.2) ↔ Matcher.byteAllowed ranges b = true
  | .seq _ parts, s, x => SeqFrag n parts s x
  | .alt _ parts, s, x => ∃ entries, Wired n s (entries.map .eps) ∧ AltFrag n parts entries x
  | .rep _ body min max greedy, s, x => Copies n (Frag n body) greedy min max s x
  | .anchor _ atEnd, s, x => Wired n s [.look (if atEnd then .textEnd else .textStart) x]
  | .wordEdge _ negated, s, x => Wired n s [.look (if negated then .notWordEdge else .wordEdge) x]
  | .empty _, s, x => s = x
  | .backref _ _, _, _ => False
  | .around _ _ _ _, _, _ => False

/-- Fragments one after another, with a free edge from each to the next. -/
def SeqFrag (n : Nfa) : List Pattern → Nat → Nat → Prop
  | [], s, x => s = x
  | [p], s, x => Frag n p s x
  | p :: q :: ps, s, x =>
    ∃ y t, Frag n p s y ∧ Wired n y [.eps t] ∧ SeqFrag n (q :: ps) t x

/-- Fragments next to one another, with a free edge from each to the exit. -/
def AltFrag (n : Nfa) : List Pattern → List Nat → Nat → Prop
  | [], [], _ => True
  | p :: ps, s :: entries, x =>
    (∃ y, Frag n p s y ∧ Wired n y [.eps x]) ∧ AltFrag n ps entries x
  | _, _, _ => False

end

/-! ## What a fragment does -/

/-- Between two states the automaton moves as a relation between places says. Every way to accept
from the first leads through the second. -/
structure Spans (n : Nfa) (data : Bytes) (s x : Nat) (R : Nat → Nat → Prop) : Prop where
  steps : ∀ i j, R i j → Steps n data (s, i) (x, j)
  ends : ∀ k i e, Ends n data k (s, i) e → ∃ j k', k' ≤ k ∧ R i j ∧ Ends n data k' (x, j) e

variable {n : Nfa} {data : Bytes}

theorem Wired.moves {s : Nat} {es : List Edge} (h : Wired n s es) (i : Nat) :
    n.moves data (s, i) = es.filterMap (Edge.next? data i) := by
  simp only [Nfa.moves, show n.state s = _ from h]

theorem Wired.not_accepting {s : Nat} {es : List Edge} (h : Wired n s es) :
    ¬ n.Accepting s := by simp [Accepting, show n.state s = _ from h]

theorem Ends.first_move {k e : Nat} {c : Nat × Nat} (h : Ends n data k c e)
    (hc : ¬ n.Accepting c.1) : ∃ k', k = k' + 1 ∧ ∃ c' ∈ n.moves data c, Ends n data k' c' e := by
  cases h with
  | accept ha => exact absurd ha hc
  | move hm hk => exact ⟨_, rfl, _, hm, hk⟩

theorem mem_moves_eps {s : Nat} {ts : List Nat} (h : Wired n s (ts.map .eps)) {i : Nat}
    {c : Nat × Nat} : c ∈ n.moves data (s, i) ↔ ∃ t ∈ ts, c = (t, i) := by
  rw [h.moves, List.mem_filterMap]
  constructor
  · rintro ⟨e, he, hc⟩
    obtain ⟨t, ht, rfl⟩ := List.mem_map.1 he
    exact ⟨t, ht, (Option.some.inj hc).symm⟩
  · rintro ⟨t, ht, rfl⟩
    exact ⟨_, List.mem_map_of_mem ht, rfl⟩

theorem Wired.mem_moves_single {s t : Nat} (h : Wired n s [.eps t]) (i : Nat) {c : Nat × Nat} :
    c ∈ n.moves data (s, i) ↔ c = (t, i) := by
  rw [h.moves]
  exact List.mem_singleton

theorem choice_eq (greedy : Bool) (onward stop : Nat) :
    choice greedy onward stop = (if greedy then [onward, stop] else [stop, onward]).map .eps := by
  cases greedy <;> rfl

theorem mem_moves_choice {greedy : Bool} {s onward stop : Nat}
    (h : Wired n s (choice greedy onward stop)) {i : Nat} {c : Nat × Nat} :
    c ∈ n.moves data (s, i) ↔ c = (onward, i) ∨ c = (stop, i) := by
  rw [choice_eq] at h
  rw [mem_moves_eps h]
  cases greedy <;> simp [or_comm]

namespace Spans

variable {s x : Nat} {R Q : Nat → Nat → Prop}

theorem congr (h : Spans n data s x R) (hRQ : ∀ i j, R i j ↔ Q i j) : Spans n data s x Q where
  steps i j hj := h.steps i j ((hRQ i j).2 hj)
  ends k i e he := by
    obtain ⟨j, k', hk, hR, hx⟩ := h.ends k i e he
    exact ⟨j, k', hk, (hRQ i j).1 hR, hx⟩

theorem refl (s : Nat) : Spans n data s s (fun i j => j = i) where
  steps _ _ hj := hj ▸ Steps.refl _
  ends k i _ he := ⟨i, k, Nat.le_refl k, rfl, he⟩

theorem trans {y : Nat} (h : Spans n data s y R) (h' : Spans n data y x Q) :
    Spans n data s x (fun i j => ∃ m, R i m ∧ Q m j) where
  steps i j := fun ⟨m, hR, hQ⟩ => (h.steps i m hR).trans (h'.steps m j hQ)
  ends k i e he := by
    obtain ⟨m, k1, hk1, hR, hy⟩ := h.ends k i e he
    obtain ⟨j, k2, hk2, hQ, hx⟩ := h'.ends k1 m e hy
    exact ⟨j, k2, Nat.le_trans hk2 hk1, ⟨m, hR, hQ⟩, hx⟩

theorem eps {t : Nat} (hw : Wired n s [.eps t]) (h : Spans n data t x R) :
    Spans n data s x R where
  steps i j hj := Steps.head ((hw.mem_moves_single i).2 rfl) (h.steps i j hj)
  ends k i e he := by
    obtain ⟨k1, rfl, c, hc, he⟩ := he.first_move hw.not_accepting
    obtain rfl := (hw.mem_moves_single i).1 hc
    obtain ⟨j, k2, hk2, hR, hx⟩ := h.ends k1 i e he
    exact ⟨j, k2, by omega, hR, hx⟩

theorem either {greedy : Bool} {onward stop : Nat} (hw : Wired n s (choice greedy onward stop))
    (h : Spans n data onward x R) (h' : Spans n data stop x Q) :
    Spans n data s x (fun i j => R i j ∨ Q i j) where
  steps i j := by
    rintro (hR | hQ)
    · exact Steps.head ((mem_moves_choice hw).2 (Or.inl rfl)) (h.steps i j hR)
    · exact Steps.head ((mem_moves_choice hw).2 (Or.inr rfl)) (h'.steps i j hQ)
  ends k i e he := by
    obtain ⟨k1, rfl, c, hc, he⟩ := he.first_move hw.not_accepting
    rcases (mem_moves_choice hw).1 hc with rfl | rfl
    · obtain ⟨j, k2, hk2, hR, hx⟩ := h.ends k1 i e he
      exact ⟨j, k2, by omega, Or.inl hR, hx⟩
    · obtain ⟨j, k2, hk2, hQ, hx⟩ := h'.ends k1 i e he
      exact ⟨j, k2, by omega, Or.inr hQ, hx⟩

theorem edge {e : Edge} (hw : Wired n s [e])
    (hR : ∀ i c, e.next? data i = some c ↔ ∃ j, c = (x, j) ∧ R i j) :
    Spans n data s x R where
  steps i j hj := by
    refine Steps.head ?_ (Steps.refl _)
    rw [hw.moves, List.mem_filterMap]
    exact ⟨e, List.mem_singleton_self e, (hR i _).2 ⟨j, rfl, hj⟩⟩
  ends k i end' he := by
    obtain ⟨k1, rfl, c, hc, he⟩ := he.first_move hw.not_accepting
    rw [hw.moves, List.mem_filterMap] at hc
    obtain ⟨e', he', hc⟩ := hc
    rw [List.mem_singleton.1 he'] at hc
    obtain ⟨j, rfl, hj⟩ := (hR i c).1 hc
    exact ⟨j, k1, by omega, hj, he⟩

/-- A state where a repeat may go on or stop, with a body that leads back to it. -/
theorem loop {greedy : Bool} {entry stop : Nat} (hw : Wired n s (choice greedy entry stop))
    (h : Spans n data entry s R) :
    Spans n data s stop (fun i j => ∃ k, Passes R k i j) where
  steps i j := by
    rintro ⟨k, hk⟩
    induction k generalizing i with
    | zero =>
      rw [show i = j from hk]
      exact Steps.head ((mem_moves_choice hw).2 (Or.inr rfl)) (Steps.refl _)
    | succ k ih =>
      obtain ⟨m, hm, hk⟩ := hk
      exact (Steps.head ((mem_moves_choice hw).2 (Or.inl rfl)) (h.steps i m hm)).trans (ih m hk)
  ends k := by
    induction k using Nat.strongRecOn with
    | _ k ih =>
      intro i e he
      obtain ⟨k1, rfl, c, hc, he⟩ := he.first_move hw.not_accepting
      rcases (mem_moves_choice hw).1 hc with rfl | rfl
      · obtain ⟨m, k2, hk2, hR, hs⟩ := h.ends k1 i e he
        obtain ⟨j, k3, hk3, ⟨l, hl⟩, hx⟩ := ih k2 (by omega) m e hs
        exact ⟨j, k3, by omega, ⟨l + 1, m, hR, hl⟩, hx⟩
      · exact ⟨i, k1, by omega, ⟨0, rfl⟩, he⟩

end Spans

/-! ## Code points -/

theorem next?_range {r : ByteRange} {i t : Nat} {c : Nat × Nat} :
    (Edge.bytes r.lo r.hi t).next? data i = some c ↔
      ∃ b, data[i]? = some b ∧ r.contains b = true ∧ c = (t, i + 1) := by
  simp [next?_bytes, ByteRange.contains, and_assoc]

theorem Spells.steps {x s i : Nat} {rs : List ByteRange} {bs : List UInt8} (h : Spells n x s rs)
    (hbs : Utf8.admits rs bs = true) (hi : Utf8.StandsAt data i bs) :
    Steps n data (s, i) (x, i + bs.length) := by
  induction h generalizing i bs with
  | @last s r he =>
    obtain _ | ⟨b, _ | ⟨b', bs⟩⟩ := bs
    · cases hbs
    · rw [Utf8.admits, Bool.and_eq_true] at hbs
      have hb := (Utf8.standsAt_cons.1 hi).1
      exact Steps.head (mem_moves.2 ⟨_, he, next?_range.2 ⟨b, hb, hbs.1, rfl⟩⟩) (Steps.refl _)
    · simp [Utf8.admits] at hbs
  | @more s t r rs he _ _ ih =>
    obtain _ | ⟨b, bs⟩ := bs
    · cases hbs
    · rw [Utf8.admits, Bool.and_eq_true] at hbs
      obtain ⟨hb, hi⟩ := Utf8.standsAt_cons.1 hi
      have := ih hbs.2 hi
      rw [List.length_cons, Nat.add_comm bs.length 1, ← Nat.add_assoc]
      exact Steps.head (mem_moves.2 ⟨_, he, next?_range.2 ⟨b, hb, hbs.1, rfl⟩⟩) this

/-- From a state inside the tree the automaton gets to accept only through the exit, behind bytes
of a sequence that goes on from there. -/
theorem Trie.ends {x : Nat} {label : Nat → Option (List ByteRange)}
    {seqs : List (List ByteRange)}
    (hl : ∀ s before, label s = some before →
      ¬ n.Accepting s ∧ Branches n x label seqs s before)
    {k s i e : Nat} {before : List ByteRange} (hs : label s = some before)
    (he : Ends n data k (s, i) e) :
    ∃ rs bs k', before ++ rs ∈ seqs ∧ Utf8.admits rs bs = true ∧ Utf8.StandsAt data i bs ∧
      k' ≤ k ∧ Ends n data k' (x, i + bs.length) e := by
  induction k generalizing s i before with
  | zero =>
    cases he with
    | accept ha => exact absurd ha (hl s before hs).1
  | succ k ih =>
    obtain ⟨hna, hb⟩ := hl s before hs
    obtain ⟨k1, hk, c, hc, he⟩ := he.first_move hna
    obtain rfl := Nat.succ.inj hk
    obtain ⟨edge, hedge, hc⟩ := mem_moves.1 hc
    obtain ⟨r, t, rfl, ht⟩ := hb edge hedge
    obtain ⟨b, hdata, hr, rfl⟩ := next?_range.1 hc
    rcases ht with ⟨rfl, hmem⟩ | ⟨_, ht⟩
    · refine ⟨[r], [b], k, hmem, by simp [Utf8.admits, hr], ?_, by omega, he⟩
      exact Utf8.standsAt_cons.2 ⟨hdata, Utf8.standsAt_nil data _⟩
    · obtain ⟨rs, bs, k', h1, h2, h3, h4, h5⟩ := ih ht he
      refine ⟨r :: rs, b :: bs, k', by simpa using h1, by simp [Utf8.admits, hr, h2],
        Utf8.standsAt_cons.2 ⟨hdata, h3⟩, by omega, ?_⟩
      rwa [List.length_cons, Nat.add_comm bs.length 1, ← Nat.add_assoc]

/-- A tree leads to its exit over the byte strings of its sequences. -/
theorem Trie.spans {s x : Nat} {seqs : List (List ByteRange)} (h : Trie n s x seqs) :
    Spans n data s x (fun i j => ∃ bs, (∃ rs ∈ seqs, Utf8.admits rs bs = true) ∧
      Utf8.StandsAt data i bs ∧ j = i + bs.length) := by
  obtain ⟨label, hs, hl, hall⟩ := h
  constructor
  · rintro i j ⟨bs, ⟨rs, hrs, ha⟩, hi, rfl⟩
    exact (hall rs hrs).steps ha hi
  · intro k i e he
    obtain ⟨rs, bs, k', h1, h2, h3, h4, h5⟩ := Trie.ends hl hs he
    exact ⟨_, k', h4, ⟨bs, ⟨rs, h1, h2⟩, h3, rfl⟩, h5⟩

/-! ## Patterns -/

theorem Copies.spans {body : Nat → Nat → Prop} {R : Nat → Nat → Prop} {greedy : Bool}
    (hbody : ∀ s x, body s x → Spans n data s x R) {min s stop : Nat} {max : Option Nat}
    (h : Copies n body greedy min max s stop) :
    Spans n data s stop
      (fun i j => ∃ k, min ≤ k ∧ (∀ m, max = some m → k ≤ m) ∧ Passes R k i j) := by
  induction h with
  | done => exact (Spans.refl _).congr fun i j => Passes.none_iff.symm
  | finish hw => exact (Spans.eps hw (Spans.refl _)).congr fun i j => Passes.none_iff.symm
  | must hw hb _ ih =>
    exact (Spans.eps hw ((hbody _ _ hb).trans ih)).congr fun i j => Passes.must_iff.symm
  | option hw hb _ ih =>
    refine (Spans.either hw ((hbody _ _ hb).trans ih) (Spans.refl _)).congr fun i j => ?_
    exact Passes.option_iff.symm
  | star hw hb hback =>
    have hround := (hbody _ _ hb).trans (Spans.eps hback (Spans.refl _))
    refine (Spans.loop hw (hround.congr (Q := R) fun i j => by simp)).congr fun i j => ?_
    simp
  | plus hw hb hloop =>
    have hloops := Spans.loop hloop (hbody _ _ hb)
    refine (Spans.eps hw ((hbody _ _ hb).trans hloops)).congr fun i j => ⟨?_, ?_⟩
    · rintro ⟨y, hy, k, hp⟩
      exact ⟨k + 1, by omega, by simp, y, hy, hp⟩
    · rintro ⟨k, hmin, _, hp⟩
      obtain ⟨k, rfl⟩ := Nat.exists_eq_succ_of_ne_zero (show k ≠ 0 by omega)
      obtain ⟨y, hy, hp⟩ := hp
      exact ⟨y, hy, k, hp⟩

theorem SeqFrag.spans {ps : List Pattern}
    (hps : ∀ p ∈ ps, ∀ s x, Frag n p s x → Spans n data s x (Matches data p)) {s x : Nat}
    (h : SeqFrag n ps s x) : Spans n data s x (MatchesSeq data ps) := by
  induction ps generalizing s with
  | nil => exact (show s = x from h) ▸ (Spans.refl s).congr fun i j => Iff.rfl
  | cons p ps ih =>
    cases ps with
    | nil => exact (hps p (by simp) s x h).congr fun i j => by simp [MatchesSeq]
    | cons q ps =>
      obtain ⟨y, t, hp, hw, hq⟩ := h
      exact (hps p (by simp) s y hp).trans
        (Spans.eps hw (ih (fun r hr => hps r (by simp [hr])) hq))

/-- Each part of an alternation has its entry, and each entry its part. -/
theorem AltFrag.paired {ps : List Pattern} {entries : List Nat} {x : Nat}
    (h : AltFrag n ps entries x) :
    (∀ p ∈ ps, ∃ t ∈ entries, ∃ y, Frag n p t y ∧ Wired n y [.eps x]) ∧
      ∀ t ∈ entries, ∃ p ∈ ps, ∃ y, Frag n p t y ∧ Wired n y [.eps x] := by
  induction ps generalizing entries with
  | nil =>
    cases entries with
    | nil => simp
    | cons t entries => exact absurd h id
  | cons p ps ih =>
    cases entries with
    | nil => exact absurd h id
    | cons t entries =>
      obtain ⟨hp, hrest⟩ := h
      obtain ⟨h1, h2⟩ := ih hrest
      simp only [List.mem_cons, forall_eq_or_imp, exists_eq_or_imp]
      exact ⟨⟨Or.inl hp, fun q hq => Or.inr (h1 q hq)⟩, Or.inl hp, fun u hu => Or.inr (h2 u hu)⟩

theorem AltFrag.spans {ps : List Pattern}
    (hps : ∀ p ∈ ps, ∀ s x, Frag n p s x → Spans n data s x (Matches data p)) {s x : Nat}
    {entries : List Nat} (hw : Wired n s (entries.map .eps)) (h : AltFrag n ps entries x) :
    Spans n data s x (MatchesAlt data ps) where
  steps i j hj := by
    obtain ⟨p, hp, hj⟩ := matchesAlt_iff.1 hj
    obtain ⟨t, ht, y, hf, hy⟩ := h.paired.1 p hp
    refine Steps.head ((mem_moves_eps hw).2 ⟨t, ht, rfl⟩) ?_
    exact ((hps p hp t y hf).steps i j hj).trans ((Spans.eps hy (Spans.refl x)).steps j j rfl)
  ends k i e he := by
    obtain ⟨k1, rfl, c, hc, he⟩ := he.first_move hw.not_accepting
    obtain ⟨t, ht, rfl⟩ := (mem_moves_eps hw).1 hc
    obtain ⟨p, hp, y, hf, hy⟩ := h.paired.2 t ht
    obtain ⟨j, k2, hk2, ⟨m, hm, rfl⟩, hx⟩ :=
      ((hps p hp t y hf).trans (Spans.eps hy (Spans.refl x))).ends k1 i e he
    exact ⟨j, k2, by omega, matchesAlt_iff.2 ⟨p, hp, hm⟩, hx⟩

/-- A state with one edge for each run of a set leads to the exit over a byte of the set. -/
theorem Wired.runs_spans {s x : Nat} {runs : List (UInt8 × UInt8)}
    (hw : Wired n s (runs.map fun r => .bytes r.1 r.2 x)) :
    Spans n data s x (fun i j => ∃ b, data[i]? = some b ∧ (∃ r ∈ runs, r.1 ≤ b ∧ b ≤ r.2) ∧
      j = i + 1) where
  steps i j := by
    rintro ⟨b, hb, ⟨r, hr, h1, h2⟩, rfl⟩
    refine Steps.head ?_ (Steps.refl _)
    rw [hw.moves, List.mem_filterMap]
    exact ⟨_, List.mem_map_of_mem hr, next?_bytes.2 ⟨b, hb, h1, h2, rfl⟩⟩
  ends k i e he := by
    obtain ⟨k1, rfl, c, hc, he⟩ := he.first_move hw.not_accepting
    rw [hw.moves, List.mem_filterMap] at hc
    obtain ⟨edge, hedge, hc⟩ := hc
    obtain ⟨r, hr, rfl⟩ := List.mem_map.1 hedge
    obtain ⟨b, hb, h1, h2, rfl⟩ := next?_bytes.1 hc
    exact ⟨i + 1, k1, by omega, ⟨b, hb, ⟨r, hr, h1, h2⟩, rfl⟩, he⟩

/-- A fragment of a pattern leads from its entry to its exit over what the pattern matches. -/
theorem Frag.spans {p : Pattern} {s x : Nat} (h : Frag n p s x) :
    Spans n data s x (Matches data p) := by
  induction p using Pattern.induction generalizing s x with
  | chars loc ranges negated =>
    obtain ⟨seqs, ht, hseqs⟩ := h
    refine ht.spans.congr fun i j => ?_
    simp only [hseqs, Matches]
    constructor
    · rintro ⟨bs, ⟨c, hc, ha, rfl⟩, hi, rfl⟩
      exact ⟨c, hc, ha, hi, rfl⟩
    · rintro ⟨c, hc, ha, hi, rfl⟩
      exact ⟨_, ⟨c, hc, ha, rfl⟩, hi, rfl⟩
  | bytes loc ranges =>
    obtain ⟨runs, hw, hruns⟩ := h
    exact hw.runs_spans.congr fun i j => by simp only [hruns, Matches]
  | seq loc parts ih => exact SeqFrag.spans (fun p hp s x h => ih p hp h) h
  | alt loc parts ih =>
    obtain ⟨entries, hw, h⟩ := h
    exact AltFrag.spans (fun p hp s x h => ih p hp h) hw h
  | rep loc body min max greedy ih => exact Copies.spans (fun s x h => ih h) h
  | anchor loc atEnd =>
    refine Spans.edge h fun i c => ?_
    rw [next?_look]
    cases atEnd <;> simp [placeOf, Dfa.LookContext.holds, Matches, and_comm]
  | wordEdge loc negated =>
    refine Spans.edge h fun i c => ?_
    rw [next?_look]
    cases negated <;>
      simp [placeOf, Dfa.LookContext.holds, Matches, Matcher.wordEdgeAt, and_comm]
  | empty loc => exact (show s = x from h) ▸ (Spans.refl s).congr fun i j => Iff.rfl
  | backref loc group => exact absurd h id
  | around loc body behind negated => exact absurd h id

end ByteRegex.Nfa
