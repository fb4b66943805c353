-- What the alphabet of a pattern keeps apart. The classes of bytes come from
-- the sets that the nodes of the pattern bring in, and the automaton of the
-- pattern tells no two bytes of one class apart.
import ByteRegex.Proofs.Alphabet.ByteClasses
import ByteRegex.Proofs.Alphabet.PointClasses
import ByteRegex.Proofs.Nfa.Thompson

namespace ByteRegex.Alphabet

variable {a : Alphabet} {p : Pattern}

/-! ## The classes of code points of a pattern -/

theorem mem_charSets {s : CodePointSet} : s ∈ charSets p ↔
    ∃ loc ranges negated, .chars loc ranges negated ∈ p.nodes ∧
      s = Pattern.charSet ranges negated := by
  constructor
  · intro hs
    obtain ⟨n, hn, hset⟩ := List.mem_filterMap.1 hs
    split at hset
    · exact ⟨_, _, _, hn, (Option.some.inj hset).symm⟩
    · cases hset
  · rintro ⟨loc, ranges, negated, hn, rfl⟩
    exact List.mem_filterMap.2 ⟨_, hn, rfl⟩

theorem mem_byteSets {t : ByteSet} : t ∈ byteSets p ↔
    ∃ loc ranges, .bytes loc ranges ∈ p.nodes ∧ t = Pattern.byteSet ranges := by
  constructor
  · intro ht
    obtain ⟨n, hn, hset⟩ := List.mem_filterMap.1 ht
    split at hset
    · exact ⟨_, _, hn, (Option.some.inj hset).symm⟩
    · cases hset
  · rintro ⟨loc, ranges, hn, rfl⟩
    exact List.mem_filterMap.2 ⟨_, hn, rfl⟩

theorem usesWordEdges_iff :
    usesWordEdges p = true ↔ ∃ loc negated, .wordEdge loc negated ∈ p.nodes := by
  rw [usesWordEdges, List.any_eq_true]
  constructor
  · rintro ⟨n, hn, hword⟩
    split at hword
    · exact ⟨_, _, hn⟩
    · cases hword
  · rintro ⟨loc, negated, hn⟩
    exact ⟨_, hn, rfl⟩

theorem charSet_proper {ranges : List (Nat × Nat)}
    (h : Pattern.charRangeFault? ranges = none) (negated : Bool) :
    (Pattern.charSet ranges negated).Proper := by
  obtain ⟨hcanonical, htest⟩ := Pattern.charSet_spec h negated
  exact ⟨hcanonical, fun r hr => ((htest r.hi).1 (CodePointSet.test_hi hcanonical hr)).1⟩

theorem build_cutAt (hr : p.Ranged) : CutAt (build p) (charSets p) where
  starts := rfl
  proper s hs := by
    obtain ⟨loc, ranges, negated, hn, rfl⟩ := mem_charSets.1 hs
    exact charSet_proper (hr _ hn) negated

theorem getD_map_range {α : Type} (f : Nat → List α) {n i : Nat} (hi : i < n) :
    ((List.range n).map f).getD i [] = f i := by
  rw [List.getD_eq_getElem?_getD, List.getElem?_map, List.getElem?_range hi]
  rfl

theorem sequences_build (p : Pattern) {i : Nat} (hi : i < (build p).starts.size) :
    (build p).sequences.getD i [] = Utf8.sequences ((build p).classLo i) ((build p).classHi i) := by
  rw [Array.getD_eq_getD_getElem?, show (build p).sequences = List.toArray _ from rfl,
    List.getElem?_toArray, ← List.getD_eq_getElem?_getD]
  exact getD_map_range _ hi

theorem sequence_ne_nil {lo hi : Nat} (hmax : hi ≤ maxCodePoint) {rs : List Utf8.ByteRange}
    (h : rs ∈ Utf8.sequences lo hi) : rs ≠ [] := by
  rintro rfl
  obtain ⟨c, _, _, _, hc⟩ := (Utf8.admits_sequences hmax []).1 ⟨[], h, rfl⟩
  exact Utf8.encode_ne_nil c hc.symm

/-! ## The classes of bytes of a pattern -/

/-- The sets of bytes that the nodes of a pattern need to be told apart: the byte ranges of the
encodings of the classes that lie inside the set of a class node, the sets of the byte nodes, and
the word bytes where words start and end. -/
inductive Generates (a : Alphabet) (p : Pattern) : ByteSet → Prop
  | range {loc : Location} {ranges : List (Nat × Nat)} {negated : Bool} {i : Nat}
      {rs : List Utf8.ByteRange} {r : Utf8.ByteRange} :
      .chars loc ranges negated ∈ p.nodes → i < a.starts.size →
      (∀ c, a.classLo i ≤ c → c ≤ a.classHi i → (Pattern.charSet ranges negated).test c = true) →
      rs ∈ Utf8.sequences (a.classLo i) (a.classHi i) → r ∈ rs → Generates a p (rangeSet r)
  | bytes {loc : Location} {ranges : List (UInt8 × UInt8)} :
      .bytes loc ranges ∈ p.nodes → Generates a p (Pattern.byteSet ranges)
  | word {loc : Location} {negated : Bool} :
      .wordEdge loc negated ∈ p.nodes → Generates a p ByteSet.word

/-- The classes of bytes of an alphabet are the ones that a list of sets splits off. For a pattern
with valid ranges they are the sets that its nodes need. -/
structure CutBy (a : Alphabet) (p : Pattern) (cuts : List ByteSet) : Prop where
  symbolClass : a.symbolClass = symbolClassesOf (classesOf cuts)
  leader : a.leader = leadersOf (classesOf cuts)
  size : a.size = (classesOf cuts).length + specialCount
  generates : p.Ranged → ∀ t, t ∈ cuts ↔ a.Generates p t

theorem build_cutBy (p : Pattern) : ∃ cuts, CutBy (build p) p cuts := by
  refine ⟨_, rfl, rfl, rfl, fun hr t => ?_⟩
  have hcut := build_cutAt hr
  have hsequences {i : Nat} (hi : i < (build p).starts.size) :=
    getD_map_range (fun i => Utf8.sequences ((build p).classLo i) ((build p).classHi i)) hi
  rw [List.mem_append, List.mem_append]
  constructor
  · rintro ((hrange | hbytes) | hword)
    · obtain ⟨r, hr', rfl⟩ := List.mem_map.1 hrange
      obtain ⟨i, hi, hr'⟩ := List.mem_flatMap.1 hr'
      obtain ⟨hi, hused⟩ := List.mem_filter.1 hi
      obtain ⟨s, hs, htest⟩ := List.any_eq_true.1 hused
      obtain ⟨rs, hrs, hr'⟩ := List.mem_flatten.1 hr'
      rw [List.mem_range] at hi
      have hinside := ((hcut.unsplit hs).holds_iff hcut hi).1 htest
      obtain ⟨loc, ranges, negated, hn, rfl⟩ := mem_charSets.1 hs
      exact .range hn hi hinside (hsequences hi ▸ hrs) hr'
    · obtain ⟨loc, ranges, hn, rfl⟩ := mem_byteSets.1 hbytes
      exact .bytes hn
    · split at hword
      · rename_i huses
        obtain ⟨loc, negated, hn⟩ := usesWordEdges_iff.1 huses
        obtain rfl := List.mem_singleton.1 hword
        exact .word hn
      · cases hword
  · intro ht
    cases ht with
    | @range loc ranges negated i rs r hn hi hall hrs hr' =>
      have hs := mem_charSets.2 ⟨loc, ranges, negated, hn, rfl⟩
      refine Or.inl (Or.inl (List.mem_map_of_mem (List.mem_flatMap.2 ⟨i, ?_, ?_⟩)))
      · have htest := ((hcut.unsplit hs).holds_iff hcut hi).2 hall
        exact List.mem_filter.2 ⟨List.mem_range.2 hi, List.any_eq_true.2 ⟨_, hs, htest⟩⟩
      · exact List.mem_flatten.2 ⟨rs, (hsequences hi).symm ▸ hrs, hr'⟩
    | bytes hn => exact Or.inl (Or.inr (mem_byteSets.2 ⟨_, _, hn, rfl⟩))
    | word hn =>
      rw [if_pos (usesWordEdges_iff.2 ⟨_, _, hn⟩)]
      exact Or.inr (List.mem_singleton_self _)

namespace CutBy

variable {cuts : List ByteSet}

theorem byteClass (h : CutBy a p cuts) (b : UInt8) :
    ∃ s, (classesOf cuts)[a.byteClass b]? = some s ∧ s.test b = true := by
  rw [Alphabet.byteClass, h.symbolClass]
  exact getD_symbolClassesOf (classesOf_spec cuts).1 b

/-- The class of a byte is the place of any class that holds it. -/
theorem byteClass_eq (h : CutBy a p cuts) {b : UInt8} {i : Nat} {s : ByteSet}
    (hs : (classesOf cuts)[i]? = some s) (hb : s.test b = true) : a.byteClass b = i := by
  obtain ⟨s', hs', hb'⟩ := h.byteClass b
  have hclasses := (classesOf_spec cuts).1
  -- the classes share no byte, so `b` is in no other one
  obtain rfl := hclasses.eq_of_test (List.mem_of_getElem? hs) (List.mem_of_getElem? hs') hb hb'
  have hlt := (List.getElem?_eq_some_iff.1 hs').1
  exact (List.getElem?_inj hlt hclasses.nodup).1 (hs'.trans hs.symm)

/-- Two bytes are in one class exactly if none of the sets that the classes come from tells them
apart. -/
theorem byteClass_eq_iff (h : CutBy a p cuts) {b b' : UInt8} :
    a.byteClass b = a.byteClass b' ↔ Alike cuts b b' := by
  obtain ⟨s, hs, hb⟩ := h.byteClass b
  constructor
  · intro heq t ht
    obtain ⟨s', hs', hb'⟩ := h.byteClass b'
    obtain rfl : s = s' := Option.some.inj (hs.symm.trans (heq ▸ hs'))
    exact (classesOf_spec cuts).2 t ht s (List.mem_of_getElem? hs) b b' hb hb'
  · intro halike
    have hb' := alike_classesOf.2 halike s (List.mem_of_getElem? hs)
    exact (h.byteClass_eq hs (hb' ▸ hb)).symm

theorem byteClassCount (h : CutBy a p cuts) : a.byteClassCount = (classesOf cuts).length := by
  rw [Alphabet.byteClassCount, h.size, Nat.add_sub_cancel]

theorem byteClass_lt (h : CutBy a p cuts) (b : UInt8) : a.byteClass b < a.byteClassCount := by
  obtain ⟨s, hs, _⟩ := h.byteClass b
  rw [h.byteClassCount]
  exact (List.getElem?_eq_some_iff.1 hs).1

/-- The leader of a class is its least byte. -/
theorem exists_leader (h : CutBy a p cuts) {k : Nat} (hk : k < a.byteClassCount) :
    ∃ c : UInt8, a.leader.getD k 0 = c.toNat ∧ a.byteClass c = k ∧
      ∀ b, a.byteClass b = k → c ≤ b := by
  rw [h.byteClassCount] at hk
  obtain ⟨s, hs⟩ : ∃ s, (classesOf cuts)[k]? = some s := ⟨_, List.getElem?_eq_getElem hk⟩
  obtain ⟨c, hc, hsc⟩ :=
    exists_first? ((classesOf_spec cuts).1.inhabited s (List.mem_of_getElem? hs))
  refine ⟨c, ?_, h.byteClass_eq hs hsc, fun b hb => ?_⟩
  · rw [h.leader, getD_leadersOf hs hc]
  · obtain ⟨s', hs', hsb⟩ := h.byteClass b
    rw [hb, hs] at hs'
    obtain rfl := Option.some.inj hs'
    exact ByteSet.first?_le hc hsb

theorem byteClass_leader (h : CutBy a p cuts) (b : UInt8) :
    a.byteClass (a.leader.getD (a.byteClass b) 0).toUInt8 = a.byteClass b := by
  obtain ⟨c, hc, hclass, _⟩ := h.exists_leader (h.byteClass_lt b)
  rw [hc, show c.toNat.toUInt8 = c from UInt8.ofNat_toNat, hclass]

theorem start (h : CutBy a p cuts) : a.symbolClass.getD startSymbol 0 = a.byteClassCount := by
  rw [h.symbolClass, h.byteClassCount]
  exact (getD_symbolClassesOf_special _).1

theorem stop (h : CutBy a p cuts) : a.symbolClass.getD endSymbol 0 = a.byteClassCount + 1 := by
  rw [h.symbolClass, h.byteClassCount]
  exact (getD_symbolClassesOf_special _).2

theorem byteClassCount_le (h : CutBy a p cuts) : a.byteClassCount ≤ 256 := by
  rw [h.byteClassCount]
  exact (classesOf_spec cuts).1.length_le

end CutBy

/-! ## What the construction asks for -/

/-- Bytes of one class. -/
def Same (a : Alphabet) (b b' : UInt8) : Prop := a.byteClass b = a.byteClass b'

/-- The alphabet of a pattern fits all its nodes. -/
theorem build_fits (hr : p.Ranged) : p.AllNodes (Nfa.NodeFits (build p).Same (build p)) := by
  obtain ⟨cuts, hcut⟩ := build_cutBy p
  have hpoints := build_cutAt hr
  -- no set that the nodes need tells two bytes of one class apart
  have htell : ∀ {t b b'}, (build p).Generates p t → (build p).Same b b' → t.test b = t.test b' :=
    fun ht hb => hcut.byteClass_eq_iff.1 hb _ ((hcut.generates hr _).2 ht)
  intro n hn
  cases n with
  | chars loc ranges negated =>
    have hs := hpoints.unsplit (mem_charSets.2 ⟨loc, ranges, negated, hn, rfl⟩)
    have hp := charSet_proper (hr _ hn) negated
    have htest := (Pattern.charSet_spec (hr _ hn) negated).2
    have hmade := hs.madeOf hpoints hp
    refine ⟨fun rs hrs => ?_, fun bs => ⟨?_, ?_⟩⟩
    · obtain ⟨i, hi, hrs⟩ := List.mem_flatMap.1 hrs
      have hlt := hmade.lt_size i hi
      rw [sequences_build p hlt] at hrs
      refine ⟨sequence_ne_nil (hpoints.classHi_le i) hrs, fun r hr' t => ⟨?_, ?_⟩⟩
      · intro b b' hb
        have hinside : ∀ c, (build p).classLo i ≤ c → c ≤ (build p).classHi i →
            (Pattern.charSet ranges negated).test c = true := fun c hlo hhi =>
          (hmade.test c).2 ⟨i, hi, hlo, hhi⟩
        have heq := htell (.range hn hlt hinside hrs hr') hb
        rw [rangeSet, ByteSet.test_range, ByteSet.test_range] at heq
        rw [Dfa.Subset.byteTarget?, Dfa.Subset.byteTarget?, heq]
      · intro hw
        cases hw
    · rintro ⟨rs, hrs, hadm⟩
      obtain ⟨i, hi, hrs⟩ := List.mem_flatMap.1 hrs
      rw [sequences_build p (hmade.lt_size i hi)] at hrs
      obtain ⟨c, hlo, hhi, hscalar, hbs⟩ :=
        (Utf8.admits_sequences (hpoints.classHi_le i) bs).1 ⟨rs, hrs, hadm⟩
      have hin := (htest c).1 ((hmade.test c).2 ⟨i, hi, hlo, hhi⟩)
      exact ⟨c, ⟨hin.1, hscalar⟩, hin.2, hbs⟩
    · rintro ⟨c, ⟨hc, hscalar⟩, hallowed, hbs⟩
      obtain ⟨i, hi, hlo, hhi⟩ := (hmade.test c).1 ((htest c).2 ⟨hc, hallowed⟩)
      obtain ⟨rs, hrs, hadm⟩ :=
        (Utf8.admits_sequences (hpoints.classHi_le i) bs).2 ⟨c, hlo, hhi, hscalar, hbs⟩
      refine ⟨rs, List.mem_flatMap.2 ⟨i, hi, ?_⟩, hadm⟩
      rw [sequences_build p (hmade.lt_size i hi)]
      exact hrs
  | bytes loc ranges => exact fun b b' hb => htell (.bytes hn) hb
  | wordEdge loc negated =>
    intro b b' hb
    simpa [ByteSet.word] using htell (.word hn) hb
  | _ => trivial

end ByteRegex.Alphabet
