-- Reading one code point inverts writing it, at every place of every text. So
-- the matcher takes bytes for a class node just where one of the sequences of
-- the classes inside its set stands, and no other sequence stands there.
import ByteRegex.Proofs.Alphabet.Exact
import ByteRegex.Proofs.Utf8.Runs

namespace ByteRegex

/-! ## Bytes at a place -/

namespace Utf8

/-- The sequence of byte ranges admits the `n` bytes from `i` on. -/
def admitsAt (data : Bytes) (i n : Nat) (s : List ByteRange) : Bool :=
  decide (i + n ≤ data.size) && admits s (data.extract i (i + n)).toList

variable {data : Bytes} {i n c : Nat}

theorem length_extract (h : i + n ≤ data.size) : (data.extract i (i + n)).toList.length = n := by
  simp only [Array.toList_extract, List.extract_eq_take_drop, List.length_take, List.length_drop,
    Array.length_toList]
  omega

/-- Bytes stand at a place exactly if they are the bytes from there on. -/
theorem standsAt_iff_extract {bs : List UInt8} (hne : bs ≠ []) :
    StandsAt data i bs ∧ n = bs.length ↔
      i + n ≤ data.size ∧ (data.extract i (i + n)).toList = bs := by
  have hpos := List.length_pos_iff.2 hne
  unfold StandsAt
  constructor
  · rintro ⟨hs, rfl⟩
    have hlen := hs.length_le
    rw [List.length_drop] at hlen
    have hsize : data.toList.length = data.size := Array.length_toList
    refine ⟨by omega, ?_⟩
    rw [Array.toList_extract, List.extract_eq_take_drop, Nat.add_sub_cancel_left]
    exact (List.prefix_iff_eq_take.1 hs).symm
  · rintro ⟨hle, hbs⟩
    have hlen : n = bs.length := by rw [← hbs, length_extract hle]
    refine ⟨?_, hlen⟩
    rw [← hbs, Array.toList_extract, List.extract_eq_take_drop]
    exact List.take_prefix _ _

/-- Reading gives a code point and a length exactly if the bytes of that length are the encoding. -/
theorem decodeAt_iff_extract : decodeAt data i = some (c, n) ↔
    IsScalar c ∧ i + n ≤ data.size ∧ (data.extract i (i + n)).toList = encode c := by
  rw [decodeAt_eq_some_iff, standsAt_iff_extract (encode_ne_nil c)]

end Utf8

/-! ## What the matcher takes -/

namespace Matcher

/-- The matcher takes the next `n` bytes for the pattern: however the search is to go on, it goes on
behind them. -/
def Takes (data : Bytes) (p : Pattern) (i n : Nat) : Prop :=
  ∀ (σ : Type) (k : Nat → Search σ) (steps : Nat) (s : σ), steps < maxSteps →
    search data p i k steps s = k (i + n) (steps + 1) s

variable {data : Bytes} {loc : Location} {ranges : List (Nat × Nat)} {negated : Bool} {i n : Nat}

theorem takes_chars_iff : Takes data (.chars loc ranges negated) i n ↔
    ∃ c, Utf8.decodeAt data i = some (c, n) ∧ charAllowed ranges negated c = true := by
  constructor
  · intro h
    -- a search that takes the first end it is given tells where it went on
    have hrun := h (Option Nat) takeEnd 0 none (by decide)
    rw [search, if_neg (by decide)] at hrun
    split at hrun
    · rename_i c len hd
      unfold proceed at hrun
      split at hrun
      · rename_i hc
        simp only [takeEnd, Option.some.injEq, Prod.mk.injEq, true_and] at hrun
        have hlen : len = n := by omega
        exact ⟨c, hlen ▸ hd, hc⟩
      · simp [takeEnd] at hrun
    · simp [takeEnd] at hrun
  · rintro ⟨c, hd, hc⟩ σ k steps s hsteps
    rw [search, if_neg (Nat.not_le_of_lt hsteps)]
    simp only [hd, proceed, hc, if_true]

end Matcher

/-! ## The sequences of a class node -/

namespace Alphabet

/-- The sequences of all classes that make up a set. -/
def sequencesIn (a : Alphabet) (s : CodePointSet) : List (List Utf8.ByteRange) :=
  (a.classesIn s).flatMap fun i => a.sequences.getD i []

variable {p : Pattern} {loc : Location} {ranges : List (Nat × Nat)} {negated : Bool}

/-- An earlier class ends before a later one starts. -/
theorem CutAt.classHi_lt_classLo {a : Alphabet} {sets : List CodePointSet} (h : CutAt a sets)
    {i j : Nat} (hij : i < j) (hj : j < a.starts.size) : a.classHi i < a.classLo j := by
  have hi : i + 1 < a.starts.size := by omega
  have hle := (h.classLo_le_iff hi hj).2 hij
  rw [h.classLo_succ hi] at hle
  exact hle

/-- The sequences for a class node cover ascending runs of code points. -/
theorem pairwise_sequencesIn (hr : p.Ranged) (hn : .chars loc ranges negated ∈ p.nodes) :
    ((build p).sequencesIn (Pattern.charSet ranges negated)).Pairwise
      fun s t => ∀ c d, Utf8.Covers s c → Utf8.Covers t d → c < d := by
  have hcut := build_cutAt hr
  have hs := hcut.unsplit (mem_charSets.2 ⟨loc, ranges, negated, hn, rfl⟩)
  have hmade := hs.madeOf hcut (charSet_proper (hr _ hn) negated)
  unfold sequencesIn
  rw [List.pairwise_flatMap]
  refine ⟨fun i hi => ?_, hmade.ascending.imp_of_mem ?_⟩
  · rw [sequences_build p (hmade.lt_size i hi)]
    exact Utf8.pairwise_sequences (hcut.classHi_le i)
  · intro i j hi hj hij s hs t ht c d hc hd
    rw [sequences_build p (hmade.lt_size i hi)] at hs
    rw [sequences_build p (hmade.lt_size j hj)] at ht
    have h1 := (Utf8.bounds_of_covers (hcut.classHi_le i) hs hc).2
    have h2 := (Utf8.bounds_of_covers (hcut.classHi_le j) ht hd).1
    have h3 := hcut.classHi_lt_classLo hij (hmade.lt_size j hj)
    omega

/-- The sequences for a class node admit the encodings of the code points that it allows. -/
theorem admits_sequencesIn (hr : p.Ranged) (hn : .chars loc ranges negated ∈ p.nodes)
    (bs : List UInt8) :
    (∃ s ∈ (build p).sequencesIn (Pattern.charSet ranges negated), Utf8.admits s bs = true) ↔
      ∃ c, Utf8.IsScalar c ∧ Matcher.charAllowed ranges negated c = true ∧ bs = Utf8.encode c := by
  obtain ⟨_, hadmits⟩ := build_fits hr _ hn
  exact hadmits bs

/-- At most one sequence for a class node admits the bytes at a place. -/
theorem countP_admitsAt_le (hr : p.Ranged) (hn : .chars loc ranges negated ∈ p.nodes)
    (data : Bytes) (i n : Nat) :
    ((build p).sequencesIn (Pattern.charSet ranges negated)).countP
      (Utf8.admitsAt data i n) ≤ 1 := by
  have hone : ((build p).sequencesIn (Pattern.charSet ranges negated)).countP
      (Utf8.admits · (data.extract i (i + n)).toList) ≤ 1 := by
    refine Utf8.countP_admits_le (pairwise_sequencesIn hr hn) fun s hs hbs => ?_
    obtain ⟨c, hc, _, heq⟩ := (admits_sequencesIn hr hn _).1 ⟨s, hs, hbs⟩
    exact ⟨c, ⟨hc, heq ▸ hbs⟩, heq⟩
  refine Nat.le_trans (List.countP_mono_left fun s _ hs => ?_) hone
  exact (Bool.and_eq_true_iff.1 hs).2

/-- Some sequence for a class node admits the bytes at a place exactly if a code point that the node
allows is read from them. -/
theorem exists_admitsAt_iff (hr : p.Ranged) (hn : .chars loc ranges negated ∈ p.nodes)
    (data : Bytes) (i n : Nat) :
    (∃ s ∈ (build p).sequencesIn (Pattern.charSet ranges negated),
        Utf8.admitsAt data i n s = true) ↔
      ∃ c, Utf8.decodeAt data i = some (c, n) ∧ Matcher.charAllowed ranges negated c = true := by
  have hadmits := admits_sequencesIn hr hn (data.extract i (i + n)).toList
  simp only [Utf8.admitsAt, Bool.and_eq_true, decide_eq_true_eq, Utf8.decodeAt_iff_extract]
  constructor
  · rintro ⟨s, hs, hle, hbs⟩
    obtain ⟨c, hscalar, hc, heq⟩ := hadmits.1 ⟨s, hs, hbs⟩
    exact ⟨c, ⟨hscalar, hle, heq⟩, hc⟩
  · rintro ⟨c, ⟨hscalar, hle, heq⟩, hc⟩
    obtain ⟨s, hs, hbs⟩ := hadmits.2 ⟨c, hscalar, hc, heq⟩
    exact ⟨s, hs, hle, hbs⟩

end Alphabet

/-! ## Both readings of a text -/

/-- Reading a code point gives what was written, and nothing else is read. For a class node the
matcher takes bytes exactly if one sequence of the classes inside the set of the node admits them,
and there is never a second one. -/
theorem decodeAt_exact (data : Bytes) (i : Nat) :
    (∀ c n, Utf8.decodeAt data i = some (c, n) ↔
      (c ≤ maxCodePoint ∧ isSurrogate c = false) ∧ i + n ≤ data.size ∧
        (data.extract i (i + n)).toList = Utf8.encode c) ∧
    ∀ p a, Alphabet.ofPattern p = .ok a → ∀ loc ranges negated,
      .chars loc ranges negated ∈ p.nodes → ∀ n,
        let matching :=
          (a.sequencesIn (Pattern.charSet ranges negated)).countP (Utf8.admitsAt data i n)
        matching ≤ 1 ∧ (Matcher.Takes data (.chars loc ranges negated) i n ↔ matching = 1) := by
  refine ⟨fun c n => Utf8.decodeAt_iff_extract, ?_⟩
  intro p a ha loc ranges negated hn n
  obtain ⟨rfl, hr⟩ := Alphabet.ofPattern_ok ha
  have hle := Alphabet.countP_admitsAt_le hr hn data i n
  refine ⟨hle, ?_⟩
  rw [Matcher.takes_chars_iff, ← Alphabet.exists_admitsAt_iff hr hn, ← List.countP_pos_iff]
  omega

theorem decodeAt_exact_accented : Alphabet.ofPattern accented = .ok (Alphabet.build accented) ∧
    .chars none [(0xe9, 0xe9)] false ∈ accented.nodes ∧
    Utf8.decodeAt #[97, 0xc3, 0xa9] 1 = some (0xe9, 2) ∧
    Matcher.Takes #[97, 0xc3, 0xa9] (.chars none [(0xe9, 0xe9)] false) 1 2 ∧
    ((Alphabet.build accented).sequencesIn (Pattern.charSet [(0xe9, 0xe9)] false)).countP
      (Utf8.admitsAt #[97, 0xc3, 0xa9] 1 2) = 1 := by
  obtain ⟨hread, hclass⟩ := decodeAt_exact #[97, 0xc3, 0xa9] 1
  have hdecode := (hread 0xe9 2).2 ⟨by decide, by decide, by decide⟩
  have htakes : Matcher.Takes #[97, 0xc3, 0xa9] (.chars none [(0xe9, 0xe9)] false) 1 2 :=
    Matcher.takes_chars_iff.2 ⟨0xe9, hdecode, by decide⟩
  obtain ⟨_, hone⟩ := hclass accented _ Alphabet.ofPattern_accented_ok _ _ _
    Alphabet.mem_nodes_accented 2
  exact ⟨Alphabet.ofPattern_accented_ok, Alphabet.mem_nodes_accented, hdecode, htakes,
    hone.1 htakes⟩

end ByteRegex
