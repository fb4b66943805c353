-- The classes of an alphabet are the coarsest ones that serve the pattern. Two
-- code points, or two bytes, are told apart only where a node of the pattern
-- tells them apart, and the edges of the automaton never do more.
import ByteRegex.Proofs.CodePoints
import ByteRegex.Proofs.Compile

namespace ByteRegex

namespace Alphabet

variable {p : Pattern} {a : Alphabet}

/-! ## Classes of code points -/

/-- The classes are ranges that follow one another from 0 up to the greatest code point. -/
structure Consecutive (a : Alphabet) : Prop where
  size_pos : 0 < a.starts.size
  first : a.classLo 0 = 0
  last : a.classHi (a.starts.size - 1) = maxCodePoint
  le : ∀ i < a.starts.size, a.classLo i ≤ a.classHi i
  next : ∀ i, i + 1 < a.starts.size → a.classLo (i + 1) = a.classHi i + 1

theorem CutAt.consecutive {sets : List CodePointSet} (h : CutAt a sets) : a.Consecutive := by
  obtain ⟨hi, hlo, _⟩ := h.codePointClass_spec (Nat.zero_le maxCodePoint)
  have hpos := Nat.zero_lt_of_lt hi
  refine ⟨hpos, ?_, ?_, fun i => h.classLo_le_classHi, fun i => h.classLo_succ⟩
  · exact Nat.le_zero.1 (Nat.le_trans ((h.classLo_le_iff hpos hi).2 (Nat.zero_le _)) hlo)
  · rw [classHi, if_neg (by omega)]

/-- The classes of code points cover all code points without a gap. Two neighbours are in different
classes just where the set of some class node holds one of them only, and each union of classes is
listed as the classes that make it up. -/
theorem pointClasses_exact (h : ofPattern p = .ok a) :
    a.Consecutive ∧
    (∀ c ≤ maxCodePoint, ∀ i, a.codePointClass c = i ↔
      i < a.starts.size ∧ a.classLo i ≤ c ∧ c ≤ a.classHi i) ∧
    (∀ c < maxCodePoint, a.codePointClass c ≠ a.codePointClass (c + 1) ↔
      ∃ loc ranges negated, .chars loc ranges negated ∈ p.nodes ∧
        (Pattern.charSet ranges negated).test c ≠ (Pattern.charSet ranges negated).test (c + 1)) ∧
    (∀ loc ranges negated, .chars loc ranges negated ∈ p.nodes →
      a.MadeOf (Pattern.charSet ranges negated)
        (a.classesIn (Pattern.charSet ranges negated))) ∧
    ∀ (s : CodePointSet) (l : List Nat), CodePointSet.Canonical s.intervals → a.MadeOf s l →
      a.classesIn s = l := by
  obtain ⟨rfl, hr⟩ := ofPattern_ok h
  have hcut := build_cutAt hr
  refine ⟨hcut.consecutive, fun c hc i => ⟨?_, ?_⟩, fun c hc => ?_,
    fun loc ranges negated hn => ?_, fun s l hcanonical hm => hm.classesIn_eq hcut hcanonical⟩
  · rintro rfl
    exact hcut.codePointClass_spec hc
  · rintro ⟨hi, hlo, hhi⟩
    exact hcut.codePointClass_eq hi hlo hhi
  · rw [hcut.codePointClass_ne_iff hc]
    constructor
    · rintro ⟨s, hs, hne⟩
      obtain ⟨loc, ranges, negated, hn, rfl⟩ := mem_charSets.1 hs
      exact ⟨loc, ranges, negated, hn, hne⟩
    · rintro ⟨loc, ranges, negated, hn, hne⟩
      exact ⟨_, mem_charSets.2 ⟨loc, ranges, negated, hn, rfl⟩, hne⟩
  · have hs := hcut.unsplit (mem_charSets.2 ⟨loc, ranges, negated, hn, rfl⟩)
    exact hs.madeOf hcut (charSet_proper (hr _ hn) negated)

theorem ofPattern_accented_ok : ofPattern accented = .ok (build accented) := rfl

theorem mem_nodes_accented : .chars none [(0xe9, 0xe9)] false ∈ accented.nodes := by
  rw [nodes_accented]
  simp

theorem pointClasses_exact_accented : ofPattern accented = .ok (build accented) ∧
    (build accented).codePointClass 0xe9 = 1 ∧
    (build accented).codePointClass 0xe8 ≠ (build accented).codePointClass 0xe9 ∧
    (build accented).classesIn ⟨[⟨0, 0xe8⟩, ⟨0xea, maxCodePoint⟩]⟩ = [0, 2] := by
  obtain ⟨_, hclass, hneighbours, _, hlist⟩ := pointClasses_exact ofPattern_accented_ok
  have hmax : maxCodePoint = 0x10ffff := rfl
  have hcanonical : CodePointSet.Canonical [⟨0, 0xe8⟩, ⟨0xea, maxCodePoint⟩] := by
    simp [CodePointSet.Canonical, hmax]
  refine ⟨ofPattern_accented_ok, (hclass 0xe9 (by decide) 1).2 ?_,
    (hneighbours 0xe8 (by decide)).2 ⟨_, _, _, mem_nodes_accented, by decide⟩,
    hlist _ _ hcanonical ⟨by decide, ?_, fun c => ?_⟩⟩
  · simp [classLo, classHi, starts_accented]
  · simp [starts_accented]
  · simp [CodePointSet.test, Interval.contains, classLo, classHi, starts_accented, hmax]

/-! ## Classes of bytes -/

/-- The classes of bytes have the numbers below `n`, and each is led by its least byte. The two ends
of the text have the two numbers that follow. -/
structure Numbered (a : Alphabet) (n : Nat) : Prop where
  byteClass_lt : ∀ b, a.byteClass b < n
  leader : ∀ k < n, ∃ c : UInt8, a.leader.getD k 0 = c.toNat ∧ a.byteClass c = k ∧
    ∀ b, a.byteClass b = k → c ≤ b
  start : a.symbolClass.getD startSymbol 0 = n
  stop : a.symbolClass.getD endSymbol 0 = n + 1
  size : a.size = n + 2

theorem CutBy.numbered {cuts : List ByteSet} (h : CutBy a p cuts) :
    a.Numbered a.byteClassCount where
  byteClass_lt := h.byteClass_lt
  leader _ hk := h.exists_leader hk
  start := h.start
  stop := h.stop
  size := by rw [h.byteClassCount, h.size, specialCount]

/-- Two bytes are in one class exactly if no set that a node of the pattern needs tells them apart,
and for any two states of the automaton of the pattern the bytes that lead from one to the other
are a union of classes. -/
theorem byteClasses_exact (h : ofPattern p = .ok a) :
    (∀ b b', a.byteClass b = a.byteClass b' ↔ ∀ t, a.Generates p t → t.test b = t.test b') ∧
    a.Numbered a.byteClassCount ∧
    ∀ limit n, Nfa.ofPattern p a limit = .ok n → ∀ u v b b', a.byteClass b = a.byteClass b' →
      (n.Leads b u v ↔ n.Leads b' u v) := by
  obtain ⟨rfl, hr⟩ := ofPattern_ok h
  obtain ⟨cuts, hcut⟩ := build_cutBy p
  refine ⟨fun b b' => ?_, hcut.numbered, fun limit n hn u v b b' hb => ?_⟩
  · rw [hcut.byteClass_eq_iff]
    exact forall_congr' fun t => by rw [hcut.generates hr]
  · exact (compatible_of_neat (neat_of_ofPattern hr hn).1).leads b b' hb u v

theorem sequences_letter : Utf8.sequences ((build accented).classLo 1)
    ((build accented).classHi 1) = [[⟨0xc3, 0xc3⟩, ⟨0xa9, 0xa9⟩]] := by
  rw [← sequences_build accented (by rw [starts_accented]; decide), sequences_accented]

/-- The letter is the only class of its set, and it needs its two bytes to be told apart. -/
theorem generates_accented {t : ByteSet} : (build accented).Generates accented t ↔
    t = rangeSet ⟨0xc3, 0xc3⟩ ∨ t = rangeSet ⟨0xa9, 0xa9⟩ := by
  have hcut := build_cutAt (ofPattern_ok ofPattern_accented_ok).2
  have hs := hcut.unsplit (mem_charSets.2 ⟨_, _, _, mem_nodes_accented, rfl⟩)
  have hmade := hs.madeOf hcut (charSet_proper rfl false)
  rw [classesIn_accented] at hmade
  constructor
  · intro ht
    cases ht with
    | @range loc ranges negated i rs r hn hi hall hrs hr =>
      rw [nodes_accented, accented] at hn
      simp only [List.mem_cons, reduceCtorEq, Pattern.chars.injEq, List.not_mem_nil, or_false,
        false_or] at hn
      obtain ⟨_, rfl, rfl⟩ := hn
      have hlo := hall _ (Nat.le_refl _) (hcut.classLo_le_classHi hi)
      rw [hmade.test_iff_mem hcut hi (Nat.le_refl _) (hcut.classLo_le_classHi hi),
        List.mem_singleton] at hlo
      rw [hlo, sequences_letter, List.mem_singleton] at hrs
      rw [hrs, List.mem_pair] at hr
      exact hr.imp (congrArg rangeSet) (congrArg rangeSet)
    | bytes hn =>
      rw [nodes_accented, accented] at hn
      simp at hn
    | word hn =>
      rw [nodes_accented, accented] at hn
      simp at hn
  · have hgenerates : ∀ r, r ∈ [⟨0xc3, 0xc3⟩, (⟨0xa9, 0xa9⟩ : Utf8.ByteRange)] →
        (build accented).Generates accented (rangeSet r) := fun r hr =>
      .range mem_nodes_accented (hmade.lt_size 1 (List.mem_singleton_self 1))
        (fun c hlo hhi => (hmade.test c).2 ⟨1, List.mem_singleton_self 1, hlo, hhi⟩)
        (sequences_letter ▸ List.mem_singleton_self _) hr
    rintro (rfl | rfl)
    · exact hgenerates _ (by simp)
    · exact hgenerates _ (by simp)

theorem byteClasses_exact_accented : ofPattern accented = .ok (build accented) ∧
    (build accented).byteClass 0xc3 ≠ (build accented).byteClass 0xa9 ∧
    (build accented).byteClass 0x61 = (build accented).byteClass 0x62 ∧
    ∀ u v, accentedNfa.Leads 0x61 u v ↔ accentedNfa.Leads 0x62 u v := by
  obtain ⟨hclass, _, hedges⟩ := byteClasses_exact ofPattern_accented_ok
  have hsame : (build accented).byteClass 0x61 = (build accented).byteClass 0x62 := by
    refine (hclass _ _).2 fun t ht => ?_
    rcases generates_accented.1 ht with rfl | rfl <;> simp [rangeSet]
  refine ⟨ofPattern_accented_ok, fun heq => ?_, hsame,
    fun u v => hedges _ _ ofPattern_accented u v _ _ hsame⟩
  have htell := (hclass _ _).1 heq _ (generates_accented.2 (Or.inl rfl))
  simp [rangeSet] at htell

end Alphabet

end ByteRegex
