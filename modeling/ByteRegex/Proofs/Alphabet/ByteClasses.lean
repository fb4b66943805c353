-- The classes of bytes are disjoint, cover all bytes, and lie inside or outside
-- each set that was put in. They are the coarsest such classes.
import ByteRegex.Alphabet
import ByteRegex.Proofs.ByteSet
import ByteRegex.Proofs.Partition
import Mathlib.Data.List.Pairwise
import Mathlib.Data.List.Perm.Subperm

namespace ByteRegex.Alphabet

/-! ## Classes of bytes -/

/-- The sets share no byte. -/
def Apart (s t : ByteSet) : Prop := ∀ b, s.test b = true → t.test b = true → False

instance : Std.Symm Apart := ⟨fun _ _ h b hs ht => h b ht hs⟩

/-- Every byte lies in one of the classes, and in no other. -/
structure Classes (classes : List ByteSet) : Prop where
  cover : ∀ b, ∃ s ∈ classes, s.test b = true
  apart : classes.Pairwise Apart
  inhabited : ∀ s ∈ classes, ∃ b, s.test b = true

/-- Each class lies inside the set or outside of it. -/
def Whole (t : ByteSet) (classes : List ByteSet) : Prop :=
  ∀ s ∈ classes, ∀ b b', s.test b = true → s.test b' = true → t.test b = t.test b'

theorem isEmpty_eq_false {s : ByteSet} : s.isEmpty = false ↔ ∃ b, s.test b = true := by
  constructor
  · intro h
    by_contra hc
    push Not at hc
    have : s = ByteSet.empty := ByteSet.ext_test fun b => by
      rw [ByteSet.test_empty]
      exact Bool.eq_false_iff.2 (hc b)
    rw [this] at h
    cases h
  · rintro ⟨b, hb⟩
    by_contra hc
    rw [Bool.not_eq_false, ByteSet.isEmpty, beq_iff_eq] at hc
    rw [ByteSet.test, hc] at hb
    simp at hb

/-- A set splits a class if it holds one of its bytes and lacks another one. -/
theorem splits_iff {t s : ByteSet} :
    splits t s = true ↔ (∃ b, s.test b = true ∧ t.test b = true) ∧
      ∃ b, s.test b = true ∧ t.test b = false := by
  rw [splits, Bool.and_eq_true, Bool.not_eq_true', isEmpty_eq_false, bne_iff_ne]
  simp only [ByteSet.test_inter, Bool.and_eq_true]
  refine and_congr Iff.rfl ⟨fun h => ?_, ?_⟩
  · by_contra hc
    push Not at hc
    refine h (ByteSet.ext_test fun b => ?_)
    rw [ByteSet.test_inter]
    by_cases hb : s.test b = true
    · rw [hb, Bool.not_eq_false _ |>.mp (hc b hb)]
      rfl
    · rw [Bool.eq_false_iff.2 hb, Bool.false_and]
  · rintro ⟨b, hs, ht⟩ heq
    rw [← heq, ByteSet.test_inter, ht, Bool.and_false] at hs
    cases hs

/-- The classes after a step: the old ones, those that are split among them cut down to what lies
outside the set, and the parts inside. -/
theorem mem_refine {classes : List ByteSet} {t u : ByteSet} :
    u ∈ refine classes t ↔ (u ∈ classes ∧ splits t u = false) ∨
      ∃ s ∈ classes, splits t s = true ∧ (u = s.diff t ∨ u = s.inter t) := by
  rw [refine, List.mem_append, List.mem_map, List.mem_map]
  constructor
  · rintro (⟨s, hs, rfl⟩ | ⟨s, hs, rfl⟩)
    · by_cases h : splits t s = true
      · rw [if_pos h]
        exact Or.inr ⟨s, hs, h, Or.inl rfl⟩
      · rw [if_neg h]
        exact Or.inl ⟨hs, Bool.eq_false_iff.2 h⟩
    · obtain ⟨hs, h⟩ := List.mem_filter.1 hs
      exact Or.inr ⟨s, hs, h, Or.inr rfl⟩
  · rintro (⟨hu, h⟩ | ⟨s, hs, h, rfl | rfl⟩)
    · exact Or.inl ⟨u, hu, if_neg (by simp [h])⟩
    · exact Or.inl ⟨s, hs, if_pos h⟩
    · exact Or.inr ⟨s, List.mem_filter.2 ⟨hs, h⟩, rfl⟩

/-- A part of a class that a set splits lies inside the class. -/
theorem exists_parent {classes : List ByteSet} {t u : ByteSet} (h : u ∈ refine classes t) :
    ∃ s ∈ classes, ∀ b, u.test b = true → s.test b = true := by
  rcases mem_refine.1 h with ⟨hu, _⟩ | ⟨s, hs, _, rfl | rfl⟩
  · exact ⟨u, hu, fun b hb => hb⟩
  · refine ⟨s, hs, fun b hb => ?_⟩
    rw [ByteSet.test_diff, Bool.and_eq_true] at hb
    exact hb.1
  · refine ⟨s, hs, fun b hb => ?_⟩
    rw [ByteSet.test_inter, Bool.and_eq_true] at hb
    exact hb.1

/-- No class is split by a set that it was refined with. -/
theorem whole_refine_self (classes : List ByteSet) (t : ByteSet) : Whole t (refine classes t) := by
  intro u hu b b' hb hb'
  rcases mem_refine.1 hu with ⟨_, hno⟩ | ⟨s, _, _, rfl | rfl⟩
  · by_contra hne
    rw [Bool.eq_false_iff, ne_eq, splits_iff] at hno
    refine hno ?_
    rcases Bool.eq_false_or_eq_true (t.test b) with h | h
    · exact ⟨⟨b, hb, h⟩, b', hb', by rw [h] at hne; simpa using Ne.symm hne⟩
    · exact ⟨⟨b', hb', by rw [h] at hne; simpa using Ne.symm hne⟩, b, hb, h⟩
  · rw [ByteSet.test_diff, Bool.and_eq_true, Bool.not_eq_true'] at hb hb'
    rw [hb.2, hb'.2]
  · rw [ByteSet.test_inter, Bool.and_eq_true] at hb hb'
    rw [hb.2, hb'.2]

theorem Whole.refine {classes : List ByteSet} {t : ByteSet} (h : Whole t classes) (u : ByteSet) :
    Whole t (refine classes u) := by
  intro s hs b b' hb hb'
  obtain ⟨s', hs', hsub⟩ := exists_parent hs
  exact h s' hs' b b' (hsub b hb) (hsub b' hb')

theorem Classes.eq_of_test {classes : List ByteSet} (h : Classes classes) {s t : ByteSet}
    (hs : s ∈ classes) (ht : t ∈ classes) {b : UInt8} (hsb : s.test b = true)
    (htb : t.test b = true) : s = t := by
  by_contra hne
  exact h.apart.forall hs ht hne b hsb htb

theorem Classes.nodup {classes : List ByteSet} (h : Classes classes) : classes.Nodup := by
  refine h.apart.imp_of_mem fun {s t} hs _ hst heq => ?_
  obtain ⟨b, hb⟩ := h.inhabited s hs
  exact hst b hb (heq ▸ hb)

theorem Classes.refine {classes : List ByteSet} (h : Classes classes) (t : ByteSet) :
    Classes (refine classes t) := by
  refine ⟨fun b => ?_, ?_, fun u hu => ?_⟩
  · obtain ⟨s, hs, hb⟩ := h.cover b
    by_cases hsplit : splits t s = true
    · by_cases ht : t.test b = true
      · exact ⟨s.inter t, mem_refine.2 (Or.inr ⟨s, hs, hsplit, Or.inr rfl⟩), by simp [hb, ht]⟩
      · exact ⟨s.diff t, mem_refine.2 (Or.inr ⟨s, hs, hsplit, Or.inl rfl⟩), by simp [hb, ht]⟩
    · exact ⟨s, mem_refine.2 (Or.inl ⟨hs, Bool.eq_false_iff.2 hsplit⟩), hb⟩
  · -- a cut class only loses bytes, and the parts inside lie outside of every cut class
    rw [Alphabet.refine, List.pairwise_append, List.pairwise_map, List.pairwise_map]
    have hsub : ∀ s b, (if splits t s = true then s.diff t else s).test b = true →
        s.test b = true := by
      intro s b hb
      split at hb
      · rw [ByteSet.test_diff, Bool.and_eq_true] at hb
        exact hb.1
      · exact hb
    refine ⟨h.apart.imp fun hst b hb hb' => hst b (hsub _ b hb) (hsub _ b hb'),
      (h.apart.filter _).imp fun hst b hb hb' => ?_, fun u hu v hv b hb hb' => ?_⟩
    · rw [ByteSet.test_inter, Bool.and_eq_true] at hb hb'
      exact hst b hb.1 hb'.1
    · obtain ⟨s, hs, rfl⟩ := List.mem_map.1 hu
      obtain ⟨s', hs', rfl⟩ := List.mem_map.1 hv
      obtain ⟨hs', hsplit⟩ := List.mem_filter.1 hs'
      rw [ByteSet.test_inter, Bool.and_eq_true] at hb'
      obtain rfl := h.eq_of_test hs hs' (hsub s b hb) hb'.1
      rw [if_pos hsplit, ByteSet.test_diff, hb'.2] at hb
      simp at hb
  · rcases mem_refine.1 hu with ⟨hu, _⟩ | ⟨s, _, hsplit, rfl | rfl⟩
    · exact h.inhabited u hu
    · obtain ⟨_, b, hb, ht⟩ := splits_iff.1 hsplit
      exact ⟨b, by simp [hb, ht]⟩
    · obtain ⟨⟨b, hb, ht⟩, _⟩ := splits_iff.1 hsplit
      exact ⟨b, by simp [hb, ht]⟩

theorem classes_foldl {sets classes : List ByteSet} (h : Classes classes) :
    Classes (sets.foldl refine classes) ∧
      ∀ t, t ∈ sets ∨ Whole t classes → Whole t (sets.foldl refine classes) := by
  induction sets generalizing classes with
  | nil => exact ⟨h, fun t ht => ht.resolve_left List.not_mem_nil⟩
  | cons u sets ih =>
    obtain ⟨h1, h2⟩ := ih (h.refine u)
    refine ⟨h1, fun t ht => h2 t ?_⟩
    rw [List.mem_cons, or_assoc] at ht
    rcases ht with rfl | ht | ht
    · exact Or.inr (whole_refine_self classes t)
    · exact Or.inl ht
    · exact Or.inr (ht.refine u)

theorem mem_classesOf {sets : List ByteSet} {s : ByteSet} :
    s ∈ classesOf sets ↔ s ∈ sets.foldl refine [ByteSet.full] :=
  (List.mergeSort_perm _ _).mem_iff

/-- The classes of a list of sets are split by none of them. -/
theorem classesOf_spec (sets : List ByteSet) :
    Classes (classesOf sets) ∧ ∀ t ∈ sets, Whole t (classesOf sets) := by
  have hfull : Classes [ByteSet.full] :=
    ⟨fun b => ⟨_, List.mem_singleton_self _, ByteSet.test_full b⟩, List.pairwise_singleton _ _,
      fun s hs => ⟨0, List.mem_singleton.1 hs ▸ ByteSet.test_full 0⟩⟩
  obtain ⟨h1, h2⟩ := classes_foldl hfull
  refine ⟨⟨fun b => ?_, ?_, fun s hs => h1.inhabited s (mem_classesOf.1 hs)⟩,
    fun t ht s hs => h2 t (Or.inl ht) s (mem_classesOf.1 hs)⟩
  · obtain ⟨s, hs, hb⟩ := h1.cover b
    exact ⟨s, mem_classesOf.2 hs, hb⟩
  · have hperm := List.mergeSort_perm (sets.foldl refine [ByteSet.full]) fun a b => !b.lt a
    exact (hperm.pairwise_iff fun hst b hb hb' => hst b hb' hb).2 h1.apart

/-! ## No class is split without need -/

/-- None of the sets tells the bytes apart. -/
def Alike (sets : List ByteSet) (b b' : UInt8) : Prop := ∀ s ∈ sets, s.test b = s.test b'

theorem Alike.refine {classes : List ByteSet} {t : ByteSet} {b b' : UInt8}
    (h : Alike classes b b') (ht : t.test b = t.test b') : Alike (refine classes t) b b' := by
  intro u hu
  rcases mem_refine.1 hu with ⟨hu, _⟩ | ⟨s, hs, _, rfl | rfl⟩
  · exact h u hu
  · rw [ByteSet.test_diff, ByteSet.test_diff, h s hs, ht]
  · rw [ByteSet.test_inter, ByteSet.test_inter, h s hs, ht]

theorem Alike.foldl_refine {sets classes : List ByteSet} {b b' : UInt8}
    (h : Alike classes b b') (hsets : Alike sets b b') :
    Alike (sets.foldl Alphabet.refine classes) b b' := by
  induction sets generalizing classes with
  | nil => exact h
  | cons t sets ih =>
    obtain ⟨ht, hsets⟩ := List.forall_mem_cons.1 hsets
    exact ih (h.refine ht) hsets

/-- The classes tell two bytes apart only if one of the sets that they come from does. -/
theorem alike_classesOf {sets : List ByteSet} {b b' : UInt8} :
    Alike (classesOf sets) b b' ↔ Alike sets b b' := by
  constructor
  · intro h t ht
    obtain ⟨hclasses, hwhole⟩ := classesOf_spec sets
    obtain ⟨s, hs, hb⟩ := hclasses.cover b
    exact hwhole t ht s hs b b' hb (h s hs ▸ hb)
  · intro h s hs
    have hfull : Alike [ByteSet.full] b b' := by
      intro s hs
      rw [List.mem_singleton.1 hs, ByteSet.test_full, ByteSet.test_full]
    exact hfull.foldl_refine h s (mem_classesOf.1 hs)

/-! ## Symbols -/

theorem noteClass_eq (table : Array Nat) (s : ByteSet) (i : Nat) : noteClass table s i =
    (s.toList.map UInt8.toNat).foldl (fun t n => t.setIfInBounds n i) table := by
  rw [noteClass, List.foldl_map]

theorem size_noteClass {table : Array Nat} {s : ByteSet} {i : Nat} :
    (noteClass table s i).size = table.size := by
  rw [noteClass_eq, Partition.size_foldl_set]

theorem getD_noteClass {table : Array Nat} {s : ByteSet} {i : Nat} (hsize : table.size = 256)
    (b : UInt8) : (noteClass table s i).getD b.toNat 0 =
      if s.test b = true then i else table.getD b.toNat 0 := by
  have hlt : b.toNat < 256 := b.toNat_lt
  rw [noteClass_eq, Partition.getD_foldl_set, hsize]
  simp only [ByteSet.mem_map_toList, hlt, and_true]

/-- The table behind the notes for some classes, of which the first has number `k`. -/
def noted (k : Nat) (classes : List ByteSet) (table : Array Nat) : Array Nat :=
  (classes.zipIdx k).foldl (fun t (s, i) => noteClass t s i) table

theorem noted_cons (k : Nat) (s : ByteSet) (classes : List ByteSet) (table : Array Nat) :
    noted k (s :: classes) table = noted (k + 1) classes (noteClass table s k) := rfl

theorem size_noted {k : Nat} {classes : List ByteSet} {table : Array Nat} :
    (noted k classes table).size = table.size := by
  induction classes generalizing k table with
  | nil => rfl
  | cons s classes ih => rw [noted_cons, ih, size_noteClass]

/-- A byte that no class holds keeps its note. -/
theorem getD_noted_of_not_mem {k : Nat} {classes : List ByteSet} {table : Array Nat} {b : UInt8}
    (hsize : table.size = 256) (hb : ∀ s ∈ classes, s.test b = false) :
    (noted k classes table).getD b.toNat 0 = table.getD b.toNat 0 := by
  induction classes generalizing k table with
  | nil => rfl
  | cons s classes ih =>
    obtain ⟨hs, hrest⟩ := List.forall_mem_cons.1 hb
    rw [noted_cons, ih (size_noteClass.trans hsize) hrest, getD_noteClass hsize, hs,
      if_neg Bool.false_ne_true]

theorem getD_noted {k i : Nat} {classes : List ByteSet} {table : Array Nat} {s : ByteSet}
    {b : UInt8} (hsize : table.size = 256) (hapart : classes.Pairwise Apart)
    (hs : classes[i]? = some s) (hb : s.test b = true) :
    (noted k classes table).getD b.toNat 0 = k + i := by
  induction classes generalizing k i table with
  | nil => cases hs
  | cons c classes ih =>
    obtain ⟨hc, hapart⟩ := List.pairwise_cons.1 hapart
    rw [noted_cons]
    cases i with
    | zero =>
      obtain rfl := Option.some.inj hs
      rw [getD_noted_of_not_mem (size_noteClass.trans hsize) fun t ht =>
        Bool.eq_false_iff.2 (hc t ht b hb), getD_noteClass hsize, if_pos hb]
      rfl
    | succ i =>
      rw [ih (size_noteClass.trans hsize) hapart hs]
      omega

theorem symbolClassesOf_eq (classes : List ByteSet) : symbolClassesOf classes =
    noted 0 classes (Array.replicate 256 0) ++ [classes.length, classes.length + 1].toArray := rfl

/-- The class of a byte is the place of a class that holds it, if the classes are disjoint. -/
theorem getD_symbolClassesOf_eq {classes : List ByteSet} (hapart : classes.Pairwise Apart)
    {i : Nat} {s : ByteSet} {b : UInt8} (hs : classes[i]? = some s) (hb : s.test b = true) :
    (symbolClassesOf classes).getD b.toNat 0 = i := by
  have hlt : b.toNat < (noted 0 classes (Array.replicate 256 0)).size := by
    rw [size_noted, Array.size_replicate]
    exact b.toNat_lt
  rw [symbolClassesOf_eq, Array.getD_eq_getD_getElem?, Array.getElem?_append_left hlt,
    ← Array.getD_eq_getD_getElem?, getD_noted Array.size_replicate hapart hs hb, Nat.zero_add]

/-- The class of a byte is the place of the one class that holds it. -/
theorem getD_symbolClassesOf {classes : List ByteSet} (h : Classes classes) (b : UInt8) :
    ∃ s, classes[(symbolClassesOf classes).getD b.toNat 0]? = some s ∧ s.test b = true := by
  obtain ⟨s, hs, hb⟩ := h.cover b
  obtain ⟨i, hi⟩ := List.mem_iff_getElem?.1 hs
  rw [getD_symbolClassesOf_eq h.apart hi hb]
  exact ⟨s, hi, hb⟩

theorem getD_symbolClassesOf_special (classes : List ByteSet) :
    (symbolClassesOf classes).getD startSymbol 0 = classes.length ∧
      (symbolClassesOf classes).getD endSymbol 0 = classes.length + 1 := by
  have hsize : (noted 0 classes (Array.replicate 256 0)).size = 256 := by
    rw [size_noted, Array.size_replicate]
  constructor
  · rw [symbolClassesOf_eq, Array.getD_eq_getD_getElem?,
      Array.getElem?_append_right (by rw [hsize]; decide), hsize]
    rfl
  · rw [symbolClassesOf_eq, Array.getD_eq_getD_getElem?,
      Array.getElem?_append_right (by rw [hsize]; decide), hsize]
    rfl

/-- A set that is not empty has a least byte. -/
theorem exists_first? {s : ByteSet} (h : ∃ b, s.test b = true) :
    ∃ b, s.first? = some b ∧ s.test b = true := by
  obtain ⟨c, hc⟩ := h
  cases hfirst : s.first? with
  | none =>
    rw [ByteSet.first?_eq_none_iff.1 hfirst c] at hc
    cases hc
  | some b => exact ⟨b, rfl, (ByteSet.first?_eq_some_iff.1 hfirst).test⟩

/-- There are at most as many classes as bytes. -/
theorem Classes.length_le {classes : List ByteSet} (h : Classes classes) :
    classes.length ≤ 256 := by
  have hnodup : (classes.map fun s => s.first?).Nodup := by
    rw [List.Nodup, List.pairwise_map]
    refine h.apart.imp_of_mem fun {s t} hs ht hst heq => ?_
    obtain ⟨b, hb, hsb⟩ := exists_first? (h.inhabited s hs)
    obtain ⟨c, hc, htc⟩ := exists_first? (h.inhabited t ht)
    obtain rfl : b = c := Option.some.inj (hb.symm.trans (heq.trans hc))
    exact hst b hsb htc
  have hsub : (classes.map fun s => s.first?) ⊆ allBytes.map some := by
    intro o ho
    obtain ⟨s, hs, rfl⟩ := List.mem_map.1 ho
    obtain ⟨b, hb, _⟩ := exists_first? (h.inhabited s hs)
    exact List.mem_map.2 ⟨b, mem_allBytes b, hb.symm⟩
  have hle := (List.subperm_of_subset hnodup hsub).length_le
  simpa [allBytes] using hle

theorem getD_leadersOf {classes : List ByteSet} {i : Nat} {s : ByteSet} {b : UInt8}
    (hi : classes[i]? = some s) (hb : s.first? = some b) :
    (leadersOf classes).getD i 0 = b.toNat := by
  have hlt : i < classes.length := (List.getElem?_eq_some_iff.1 hi).1
  rw [leadersOf, Array.getD_eq_getD_getElem?, List.getElem?_toArray,
    List.getElem?_append_left (by simp; omega), List.getElem?_append_left (by simpa),
    List.getElem?_map, hi, Option.map_some, hb]
  rfl

end ByteRegex.Alphabet
