-- The subset construction is exact. Its automaton does not tell the bytes of
-- one class apart, and neither do the paths that it stands for: over a text
-- and over the samples of the bytes of that text both do the same.
import ByteRegex.Proofs.Dfa.Limit

namespace ByteRegex

/-! ## Alphabets for an automaton -/

/-- Some edge leads from `u` to `v` with the byte. -/
def Nfa.Leads (n : Nfa) (b : UInt8) (u v : Nat) : Prop :=
  ∃ lo hi, Nfa.Edge.bytes lo hi v ∈ (n.state u).edges.toList ∧ lo ≤ b ∧ b ≤ hi

namespace Alphabet

/-- Every byte lies in a class of bytes, the leader of a class is one of its bytes, and the two ends
of the text have the last two classes. -/
structure Formed (a : Alphabet) : Prop where
  class_lt : ∀ b, a.byteClass b < a.byteClassCount
  leader : ∀ b, a.byteClass (a.leader.getD (a.byteClass b) 0).toUInt8 = a.byteClass b
  start : a.symbolClass.getD startSymbol 0 = a.byteClassCount
  stop : a.symbolClass.getD endSymbol 0 = a.byteClassCount + 1

/-- No edge of the automaton tells two bytes of one class apart, unless another edge makes up for
it, and no look does. -/
structure Compatible (a : Alphabet) (n : Nfa) : Prop where
  leads : ∀ b b', a.byteClass b = a.byteClass b' → ∀ u v, n.Leads b u v ↔ n.Leads b' u v
  words : n.usesWordEdges = true → ∀ b b', a.byteClass b = a.byteClass b' →
    isWordByte b = isWordByte b'

theorem Formed.size_eq {a : Alphabet} (h : a.Formed) : a.size = a.byteClassCount + 2 := by
  have hlt := h.class_lt 0
  unfold byteClassCount specialCount at *
  omega

end Alphabet

namespace Dfa

theorem fits_of_compatible {alpha : Alphabet} {n : Nfa} (hf : alpha.Formed)
    (hc : alpha.Compatible n) (kind : MatchKind) : (Subset.ofNfa n alpha kind).Fits where
  words := rfl
  startLooks := rfl
  class_lt := hf.class_lt
  size_eq := hf.size_eq
  sample := hf.leader
  wordClass := hc.words

/-- An automaton with the classes of the alphabet reads a text as the sets do. -/
theorem reading_eq {alpha : Alphabet} (hf : alpha.Formed) (n : Nfa) (kind : MatchKind) {d : Dfa}
    (h : d.symbolClass = alpha.symbolClass) : d.reading = (Subset.ofNfa n alpha kind).reading := by
  unfold reading startClass endClass classOf
  rw [h, hf.start, hf.stop]
  rfl

theorem reading_below {alpha : Alphabet} (hf : alpha.Formed) (n : Nfa) (kind : MatchKind) :
    (Subset.ofNfa n alpha kind).reading.Below alpha.size := by
  rw [hf.size_eq]
  exact ⟨fun b => Nat.lt_add_right 2 (hf.class_lt b), Nat.lt_add_of_pos_right (by decide),
    Nat.lt_succ_self _⟩

namespace Subset

variable {c : Subset} {data : Bytes}

/-! ## The samples of a text -/

/-- The text with the sample of its class in place of each byte. -/
def sampled (c : Subset) (data : Bytes) : Bytes :=
  data.map fun b => c.sampleByte (c.alpha.byteClass b)

theorem size_sampled (c : Subset) (data : Bytes) : (c.sampled data).size = data.size := by
  simp [sampled]

theorem getElem?_sampled (i : Nat) :
    (c.sampled data)[i]? = data[i]?.map fun b => c.sampleByte (c.alpha.byteClass b) := by
  simp [sampled]

theorem getD_sampled {i : Nat} (hi : i < data.size) :
    (c.sampled data).getD i 0 = c.sampleByte (c.alpha.byteClass (data.getD i 0)) := by
  rw [Array.getD_eq_getD_getElem?, getElem?_sampled, Array.getD_eq_getD_getElem?,
    Array.getElem?_eq_getElem hi]
  rfl

/-- A sample is the sample of its own class. -/
theorem Fits.sampled (hc : c.Fits) (data : Bytes) : c.Sampled (c.sampled data) := by
  intro i hi s
  rw [size_sampled] at hi
  rw [getD_sampled hi, hc.sample]

/-! ## Paths over the samples -/

theorem wordAt_sampled (hc : c.Fits) (hw : c.words = true) (i : Nat) :
    Matcher.wordAt (c.sampled data) i = Matcher.wordAt data i := by
  unfold Matcher.wordAt
  rw [getElem?_sampled]
  cases data[i]? with
  | none => rfl
  | some b => exact hc.isWordByte_sample hw b

/-- The looks that edges carry hold at the same places. -/
theorem holds_sampled (hc : c.Fits) (i : Nat) {k : Look} (hk : c.nfa.uses k = true) :
    (placeOf (c.sampled data) i).holds k = (placeOf data i).holds k := by
  have hwords : (k = .wordEdge ∨ k = .notWordEdge) →
      Matcher.wordBefore (c.sampled data) i = Matcher.wordBefore data i ∧
        Matcher.wordAt (c.sampled data) i = Matcher.wordAt data i := by
    intro h
    have hw := hc.words_of_uses hk h
    unfold Matcher.wordBefore
    rw [wordAt_sampled hc hw, wordAt_sampled hc hw]
    exact ⟨rfl, rfl⟩
  cases k with
  | textStart => rfl
  | textEnd => simp [placeOf, LookContext.holds, size_sampled]
  | wordEdge => simp [placeOf, LookContext.holds, hwords (Or.inl rfl)]
  | notWordEdge => simp [placeOf, LookContext.holds, hwords (Or.inr rfl)]

theorem mem_byteTargets {n : Nfa} {b : UInt8} {u v : Nat} :
    v ∈ (n.state u).byteTargets b ↔ n.Leads b u v := by
  unfold Nfa.State.byteTargets
  rw [List.mem_filterMap]
  constructor
  · rintro ⟨e, he, ht⟩
    cases e with
    | eps t => cases ht
    | bytes lo hi t =>
      simp only [byteTarget?, Bool.and_eq_true, decide_eq_true_eq, Option.ite_none_right_eq_some,
        Option.some.injEq] at ht
      obtain ⟨⟨h1, h2⟩, rfl⟩ := ht
      exact ⟨lo, hi, he, h1, h2⟩
    | look k t => cases ht
  · rintro ⟨lo, hi, he, h1, h2⟩
    exact ⟨_, he, by simp [byteTarget?, h1, h2]⟩

/-- A move keeps the place or takes the byte there. -/
theorem mem_moves_iff {n : Nfa} {s i : Nat} {d : Nat × Nat} :
    d ∈ n.moves data (s, i) ↔
      (d.2 = i ∧ d.1 ∈ freeTargets n (some (placeOf data i)) s) ∨
        (i < data.size ∧ d.2 = i + 1 ∧ n.Leads (data.getD i 0) s d.1) := by
  rw [← mem_byteTargets]
  refine ⟨move_cases, ?_⟩
  obtain ⟨t, j⟩ := d
  rintro (⟨rfl, h⟩ | ⟨hi, rfl, h⟩)
  · exact free_move h
  · exact byte_move hi h

/-- An automaton that does not tell a byte from the sample of its class has the same paths over
a text and over its samples. -/
theorem reaches_sampled (hc : c.Fits)
    (hleads : ∀ b u v, c.nfa.Leads (c.sampleByte (c.alpha.byteClass b)) u v ↔ c.nfa.Leads b u v)
    {p : Nat × Nat} {e : Nat} :
    c.nfa.Reaches (c.sampled data) p e ↔ c.nfa.Reaches data p e := by
  refine Nfa.Reaches.congr ?_
  rintro ⟨s, i⟩ d
  rw [mem_moves_iff, mem_moves_iff, size_sampled, freeTargets_congr fun k => holds_sampled hc i]
  refine or_congr_right (and_congr_right fun hi => ?_)
  rw [getD_sampled hi, hleads]

/-! ## The automaton of the sets over the samples -/

/-- Sets that do not ask for words accept before all bytes or before none. -/
theorem report_before_congr {b b' : UInt8} (h : c.words = true → isWordByte b = isWordByte b')
    (s : ThreadSet) : (c.report s).1.before b = (c.report s).1.before b' := by
  cases hw : c.words with
  | true =>
    unfold AcceptFlags.before AcceptFlags.forByte
    rw [h hw]
  | false =>
    unfold report
    simp only [hw]
    cases c.acceptsBefore? s false <;> split <;> try split
    all_goals simp

theorem first_sampled (hc : c.Fits) {start : Nat} (hstart : start ≤ data.size) :
    c.setMachine.first c.reading (c.sampled data) start =
      c.setMachine.first c.reading data start := by
  unfold Machine.first
  by_cases h0 : start = 0
  · rw [if_pos h0, if_pos h0]
  · rw [if_neg h0, if_neg h0, getD_sampled (by omega)]
    cases hw : c.words with
    | true => rw [hc.isWordByte_sample hw]
    | false =>
      have hstarts : c.setMachine.startWord = c.setMachine.startOther := startWord_eq hw
      rw [hstarts, ite_self, ite_self]

theorem after_sampled (hc : c.Fits) {start : Nat} (k : Nat) (hk : start + k ≤ data.size) :
    c.setMachine.after c.reading (c.sampled data) start k =
      c.setMachine.after c.reading data start k := by
  induction k with
  | zero => exact first_sampled hc hk
  | succ k ih =>
    unfold Machine.after
    rw [ih (by omega), getD_sampled (by omega)]
    exact congrArg (c.setMachine.step _) (hc.sample _)

theorem acceptsAt_sampled (hc : c.Fits) {start i : Nat} (hstart : start ≤ i) (hi : i ≤ data.size) :
    c.setMachine.AcceptsAt c.reading (c.sampled data) start i ↔
      c.setMachine.AcceptsAt c.reading data start i := by
  unfold Machine.AcceptsAt Machine.acceptsIn
  rw [after_sampled hc _ (by omega), size_sampled]
  by_cases hlt : i < data.size
  · rw [if_pos hlt, if_pos hlt, getD_sampled hlt]
    have hsame := c.report_before_congr (fun hw => hc.isWordByte_sample hw (data.getD i 0))
    exact Eq.congr_left (hsame _)
  · rw [if_neg hlt, if_neg hlt]

end Subset

/-! ## Where the automaton accepts -/

section OfNfa

variable {n : Nfa} {alpha : Alphabet} {direction : Direction} {kind : MatchKind} {limit : Nat}
  {d : Dfa} {data : Bytes} {start : Nat}

/-- The automaton accepts where the threads do that run over the samples. -/
theorem ofNfa_acceptsAt (hf : alpha.Formed) (hc : alpha.Compatible n)
    (h : ofNfa n alpha direction kind limit = .ok d) {i : Nat} (hstart : start ≤ i)
    (hi : i ≤ data.size) :
    d.machine.AcceptsAt d.reading data start i ↔
      (Subset.ofNfa n alpha kind).Accepts ((Subset.ofNfa n alpha kind).sampled data) start
        [n.floating] i := by
  have hfits := fits_of_compatible hf hc kind
  obtain ⟨hagree, _, _, _, hsymbols⟩ := ofNfa_agree hfits h
  have hsize := (Subset.ofNfa n alpha kind).size_sampled data
  rw [reading_eq hf n kind hsymbols, ← hagree.acceptsAt (reading_below hf n kind),
    ← Subset.acceptsAt_sampled hfits hstart hi]
  exact Subset.acceptsAt_iff hfits (hfits.sampled data) hstart (by omega)

/-- Paths over the samples are paths over the text. -/
theorem exists_reaches_sampled (hf : alpha.Formed) (hc : alpha.Compatible n) (kind : MatchKind)
    (data : Bytes) (start i : Nat) :
    (∃ s ∈ [n.floating], n.Reaches ((Subset.ofNfa n alpha kind).sampled data) (s, start) i) ↔
      n.Reaches data (n.floating, start) i := by
  simp only [List.mem_singleton, exists_eq_left]
  exact Subset.reaches_sampled (fits_of_compatible hf hc kind) fun b => hc.leads _ _ (hf.leader b)

/-- The automaton accepts only where a path of `n` does that starts in the state for searches and
passes looks just where they hold. If it follows all matches, it accepts wherever such a path does,
and in any case the first place is the same. A search from `start` knows the byte before, or that
the text starts there, and it accepts before the next byte or the end of the text. -/
theorem ofNfa_exact (hf : alpha.Formed) (hc : alpha.Compatible n)
    (h : ofNfa n alpha direction kind limit = .ok d) (data : Bytes) (start : Nat) :
    (∀ i, start ≤ i → i ≤ data.size → d.machine.AcceptsAt d.reading data start i →
        n.Reaches data (n.floating, start) i) ∧
      (kind = .all → ∀ i, start ≤ i → i ≤ data.size →
        (d.machine.AcceptsAt d.reading data start i ↔ n.Reaches data (n.floating, start) i)) ∧
      ∀ r, Leftmost (d.machine.AcceptsAt d.reading data start) start data.size r ↔
        Leftmost (n.Reaches data (n.floating, start)) start data.size r := by
  have hpaths := exists_reaches_sampled hf hc kind data start
  have hsize := (Subset.ofNfa n alpha kind).size_sampled data
  refine ⟨?_, ?_, ?_⟩
  · intro i hstart hi hacc
    have hthreads := (ofNfa_acceptsAt hf hc h hstart hi).1 hacc
    exact (hpaths i).1 (hthreads.reaches hstart (by omega))
  · intro hkind i hstart hi
    rw [ofNfa_acceptsAt hf hc h hstart hi, ← hpaths i]
    exact Subset.accepts_iff_of_all hkind hstart (by omega)
  · -- one direction is enough, as there is just one leftmost place
    have hfirst : ∀ r, Leftmost (d.machine.AcceptsAt d.reading data start) start data.size r →
        Leftmost (n.Reaches data (n.floating, start)) start data.size r := by
      intro r hr
      have hthreads := hr.congr fun i hstart hi => ofNfa_acceptsAt hf hc h hstart hi
      rw [← hsize] at hthreads
      have hreaches := Subset.leftmost_accepts hthreads
      rw [hsize] at hreaches
      exact hreaches.congr fun i _ _ => hpaths i
    intro r
    refine ⟨hfirst r, fun hr => ?_⟩
    obtain ⟨r', hr'⟩ := exists_leftmost (d.machine.AcceptsAt d.reading data start) start data.size
    rw [hr.unique (hfirst r' hr')]
    exact hr'

end OfNfa

/-! ## The automaton of a knot -/

open Nfa (knot)

/-- The class of a byte as the knot sees it: `a` and `b`, the other word bytes, the rest. -/
def knotClass (b : UInt8) : Nat :=
  if b == 97 || b == 98 then 0 else if isWordByte b then 1 else 2

def knotAlphabet : Alphabet where
  starts := #[0]
  sequences := #[]
  symbolClass := (allBytes.map knotClass).toArray ++ #[3, 4]
  leader := #[97, 48, 0, 256, 257]
  size := 5
  wordSensitive := true

theorem byteClass_knot (b : UInt8) : knotAlphabet.byteClass b = knotClass b := by
  unfold Alphabet.byteClass knotAlphabet
  exact getD_allBytes knotClass #[3, 4] b

theorem knot_formed : knotAlphabet.Formed where
  class_lt := by
    have h : ∀ b ∈ allBytes, knotClass b < 3 := by decide +kernel
    intro b
    rw [byteClass_knot]
    exact h b (mem_allBytes b)
  leader := by
    have h : ∀ b ∈ allBytes, knotClass (knotAlphabet.leader.getD (knotClass b) 0).toUInt8 =
        knotClass b := by decide +kernel
    intro b
    rw [byteClass_knot, byteClass_knot]
    exact h b (mem_allBytes b)
  start := by decide +kernel
  stop := by decide +kernel

/-- The leader of a class leads where its bytes do, if in another order. -/
theorem knot_leads (b : UInt8) (u v : Nat) :
    knot.Leads b u v ↔ knot.Leads (knotAlphabet.leader.getD (knotClass b) 0).toUInt8 u v := by
  have hperm : ∀ b ∈ allBytes, ∀ u ∈ List.range 5, ((knot.state u).byteTargets b).Perm
      ((knot.state u).byteTargets (knotAlphabet.leader.getD (knotClass b) 0).toUInt8) := by
    decide +kernel
  rw [← Subset.mem_byteTargets, ← Subset.mem_byteTargets]
  by_cases hu : u < 5
  · exact (hperm b (mem_allBytes b) u (List.mem_range.2 hu)).mem_iff
  · rw [Nfa.state_of_le (Nat.le_of_not_lt hu)]
    exact iff_of_false List.not_mem_nil List.not_mem_nil

theorem knot_compatible : knotAlphabet.Compatible knot where
  leads := by
    intro b b' h u v
    rw [byteClass_knot, byteClass_knot] at h
    rw [knot_leads b, knot_leads b', h]
  words := by
    have hword : ∀ b ∈ allBytes, isWordByte b = decide (knotClass b < 2) := by decide +kernel
    intro _ b b' h
    rw [byteClass_knot, byteClass_knot] at h
    rw [hword b (mem_allBytes b), hword b' (mem_allBytes b'), h]

theorem exists_ofNfa_knot (kind : MatchKind) :
    ∃ d, ofNfa knot knotAlphabet .forward kind 3000 = .ok d := by
  refine exists_ofNfa_of_important (fun _ => Nfa.mem_importants) ?_
  rw [length_arrangements]
  decide +kernel

/-- Before the full stop of `.b` the knot stays in its first two states. -/
theorem knot_stays {p : Nat × Nat} (h : knot.Steps #[46, 98] (0, 0) p) (hp : p.2 = 0) :
    p.1 < 2 := by
  induction h with
  | refl => decide
  | @tail p q hsteps hm ih =>
    have hmoves : ∀ s ∈ List.range 2, ∀ q ∈ knot.moves #[46, 98] (s, 0), q.2 = 0 → q.1 < 2 := by
      decide
    obtain ⟨s, i⟩ := p
    have hi : i = 0 := by
      rcases Nfa.moves_place hm with hplace | ⟨hplace, _⟩
      · exact hplace.symm.trans hp
      · omega
    subst hi
    exact hmoves s (List.mem_range.2 (ih rfl)) q hm hp

/-- In `.b` the knot first accepts before the `b`, where a word starts. -/
theorem leftmost_knot : Leftmost (knot.Reaches #[46, 98] (0, 0)) 0 2 (some 1) := by
  refine ⟨by decide, by decide, ?_, ?_⟩
  · exact Nfa.Reaches.iff_steps.2 ⟨2, Nfa.knot_accepting, Nfa.knot_steps⟩
  · intro i _ hi hr
    obtain rfl : i = 0 := by omega
    obtain ⟨t, hacc, hsteps⟩ := Nfa.Reaches.iff_steps.1 hr
    have hquiet : ∀ t ∈ List.range 2, (knot.state t).accept.isSome = false := by decide
    have ht := hquiet t (List.mem_range.2 (knot_stays hsteps rfl))
    unfold Nfa.Accepting at hacc
    rw [ht] at hacc
    cases hacc

theorem ofNfa_exact_knot :
    ∃ d d', ofNfa knot knotAlphabet .forward .all 3000 = .ok d ∧
      ofNfa knot knotAlphabet .forward .leftmostFirst 3000 = .ok d' ∧
      d.machine.AcceptsAt d.reading #[46, 98] 0 1 ∧
      Leftmost (d'.machine.AcceptsAt d'.reading #[46, 98] 0) 0 2 (some 1) := by
  obtain ⟨d, hd⟩ := exists_ofNfa_knot .all
  obtain ⟨d', hd'⟩ := exists_ofNfa_knot .leftmostFirst
  refine ⟨d, d', hd, hd', ?_, ?_⟩
  · have hall := (ofNfa_exact knot_formed knot_compatible hd #[46, 98] 0).2.1 rfl
    exact (hall 1 (by decide) (by decide)).2 leftmost_knot.2.2.1
  · have hfirst := (ofNfa_exact knot_formed knot_compatible hd' #[46, 98] 0).2.2
    exact (hfirst (some 1)).2 leftmost_knot

end Dfa

end ByteRegex
