-- The classes of code points lie between the places where the sets of a list
-- start and end. None of the sets splits a class, and a set that splits none is
-- made of the classes that a walk along its intervals meets.
import ByteRegex.Alphabet
import ByteRegex.Proofs.CodePointSet
import Mathlib.Data.List.Sort

namespace ByteRegex.Alphabet

/-! ## Gaps of ascending lists -/

/-- A number lies in one of the gaps of an ascending list, if it is not below all members. -/
theorem exists_gap {l : List Nat} (h : l.Pairwise (· < ·)) {a c : Nat} (ha : a ∈ l) (hac : a ≤ c) :
    ∃ i, ∃ hi : i < l.length, l[i] ≤ c ∧ ∀ hi' : i + 1 < l.length, c < l[i + 1] := by
  induction l generalizing a with
  | nil => cases ha
  | cons x l ih =>
    obtain ⟨hx, hl⟩ := List.pairwise_cons.1 h
    by_cases hnext : ∃ y ∈ l, y ≤ c
    · obtain ⟨y, hy, hyc⟩ := hnext
      obtain ⟨i, hi, h1, h2⟩ := ih hl hy hyc
      exact ⟨i + 1, Nat.succ_lt_succ hi, h1, fun hi' => h2 (Nat.lt_of_succ_lt_succ hi')⟩
    · refine ⟨0, Nat.succ_pos _, ?_, fun hi' => Nat.lt_of_not_le fun hle => ?_⟩
      · rcases List.mem_cons.1 ha with rfl | ha
        · exact hac
        · exact absurd ⟨a, ha, hac⟩ hnext
      · exact hnext ⟨_, List.getElem_mem (Nat.lt_of_succ_lt_succ hi'), hle⟩

/-- A member above another one is not below the next one. -/
theorem next_le {l : List Nat} (h : l.Pairwise (· < ·)) {i x : Nat} (hi : i < l.length)
    (hx : x ∈ l) (hlt : l[i] < x) : ∃ hi' : i + 1 < l.length, l[i + 1] ≤ x := by
  obtain ⟨j, hj, rfl⟩ := List.getElem_of_mem hx
  have hij : i < j := by
    by_contra hc
    rcases Nat.lt_or_eq_of_le (Nat.le_of_not_lt hc) with hji | rfl
    · have := List.pairwise_iff_getElem.1 h j i hj hi hji
      omega
    · omega
  refine ⟨by omega, ?_⟩
  rcases Nat.lt_or_eq_of_le (Nat.succ_le_of_lt hij) with hlt' | heq
  · exact Nat.le_of_lt (List.pairwise_iff_getElem.1 h (i + 1) j (by omega) hj hlt')
  · exact Nat.le_of_eq (by simp only [← heq])

/-- How many members of an ascending list are at most the number, for a number in a known gap. -/
theorem length_takeWhile_le {l : List Nat} (h : l.Pairwise (· < ·)) {i c : Nat} (hi : i < l.length)
    (hle : l[i] ≤ c) (hlt : ∀ hi' : i + 1 < l.length, c < l[i + 1]) :
    (l.takeWhile (· ≤ c)).length = i + 1 := by
  induction l generalizing i with
  | nil => cases hi
  | cons x l ih =>
    obtain ⟨hx, hl⟩ := List.pairwise_cons.1 h
    cases i with
    | zero =>
      have hxc : x ≤ c := hle
      cases l with
      | nil => simp [hxc]
      | cons y l =>
        have hy : c < y := hlt (Nat.succ_lt_succ (Nat.succ_pos _))
        simp [hxc, hy]
    | succ i =>
      have hxi := hx _ (List.getElem_mem (Nat.lt_of_succ_lt_succ hi))
      have hxc : x ≤ c := Nat.le_trans (Nat.le_of_lt hxi) hle
      simp only [List.takeWhile_cons, hxc, decide_true, if_true, List.length_cons]
      rw [ih hl (Nat.lt_of_succ_lt_succ hi) hle fun hi' => hlt (Nat.succ_lt_succ hi')]

/-- Nothing passes a test behind the first member that fails it, if no member passes it behind one
that fails it. -/
theorem takeWhile_eq_filter {f : Nat → Bool} {l : List Nat}
    (h : l.Pairwise fun x y => f y = true → f x = true) : l.takeWhile f = l.filter f := by
  induction l with
  | nil => rfl
  | cons x l ih =>
    obtain ⟨hx, hl⟩ := List.pairwise_cons.1 h
    by_cases hf : f x = true
    · rw [List.takeWhile_cons_of_pos hf, List.filter_cons_of_pos hf, ih hl]
    · rw [List.takeWhile_cons_of_neg hf, List.filter_cons_of_neg hf, eq_comm,
        List.filter_eq_nil_iff]
      exact fun y hy hy' => hf (hx y hy hy')

/-! ## The starts of the classes -/

variable {a : Alphabet} {sets : List CodePointSet}

theorem pairwise_startsOf : (startsOf sets).Pairwise (· < ·) := pairwise_sortUnique _

/-- A class starts at 0, where a set starts, or just behind an interval of a set. -/
theorem mem_startsOf {x : Nat} : x ∈ startsOf sets ↔ x = 0 ∨ ∃ s ∈ sets, ∃ r ∈ s.intervals,
    x = r.lo ∨ r.hi < maxCodePoint ∧ x = r.hi + 1 := by
  simp [startsOf, cutsOf, mem_sortUnique]

/-- The classes of code points lie between the places where some proper sets start and end. -/
structure CutAt (a : Alphabet) (sets : List CodePointSet) : Prop where
  starts : a.starts = (startsOf sets).toArray
  proper : ∀ s ∈ sets, s.Proper

namespace CutAt

theorem classLo_eq (h : CutAt a sets) {i : Nat} (hi : i < (startsOf sets).length) :
    a.classLo i = (startsOf sets)[i] := by
  rw [classLo, h.starts, Array.getD_eq_getD_getElem?, List.getElem?_toArray,
    List.getElem?_eq_getElem hi]
  rfl

theorem size_starts (h : CutAt a sets) : a.starts.size = (startsOf sets).length := by
  rw [h.starts, List.size_toArray]

theorem classLo_mem (h : CutAt a sets) {i : Nat} (hi : i < a.starts.size) :
    a.classLo i ∈ startsOf sets := by
  rw [h.size_starts] at hi
  rw [h.classLo_eq hi]
  exact List.getElem_mem hi

/-- A later class starts at a greater code point. -/
theorem classLo_lt (h : CutAt a sets) {i j : Nat} (hij : i < j) (hj : j < a.starts.size) :
    a.classLo i < a.classLo j := by
  rw [h.size_starts] at hj
  rw [h.classLo_eq (Nat.lt_trans hij hj), h.classLo_eq hj]
  exact List.pairwise_iff_getElem.1 pairwise_startsOf i j (Nat.lt_trans hij hj) hj hij

theorem classLo_le_iff (h : CutAt a sets) {i j : Nat} (hi : i < a.starts.size)
    (hj : j < a.starts.size) : a.classLo i ≤ a.classLo j ↔ i ≤ j := by
  constructor
  · intro hle
    by_contra hji
    exact absurd hle (Nat.not_le_of_lt (h.classLo_lt (Nat.lt_of_not_le hji) hi))
  · intro hij
    rcases Nat.lt_or_eq_of_le hij with hij | rfl
    · exact Nat.le_of_lt (h.classLo_lt hij hj)
    · exact Nat.le_refl _

theorem classLo_le (h : CutAt a sets) {i : Nat} (hi : i < a.starts.size) :
    a.classLo i ≤ maxCodePoint := by
  obtain hz | ⟨s, hs, r, hr, hx | ⟨hhi, hx⟩⟩ := mem_startsOf.1 (h.classLo_mem hi)
  · exact Nat.le_trans (Nat.le_of_eq hz) (Nat.zero_le _)
  · exact Nat.le_trans (Nat.le_of_eq hx) ((h.proper s hs).lo_le hr)
  · exact Nat.le_trans (Nat.le_of_eq hx) hhi

/-! ## The ranges of the classes -/

/-- A class reaches up to the start of the next one. -/
theorem classLo_succ (h : CutAt a sets) {i : Nat} (hi : i + 1 < a.starts.size) :
    a.classLo (i + 1) = a.classHi i + 1 := by
  have hlt := h.classLo_lt (Nat.lt_succ_self i) hi
  rw [classHi, if_pos hi]
  exact (Nat.sub_add_cancel (Nat.one_le_of_lt hlt)).symm

theorem classHi_le (h : CutAt a sets) (i : Nat) : a.classHi i ≤ maxCodePoint := by
  by_cases hi : i + 1 < a.starts.size
  · have hle := h.classLo_le hi
    rw [h.classLo_succ hi] at hle
    exact Nat.le_of_succ_le hle
  · rw [classHi, if_neg hi]

/-- A code point is in the class unless the next class has started. -/
theorem le_classHi_iff (h : CutAt a sets) {i c : Nat} (hc : c ≤ maxCodePoint) :
    c ≤ a.classHi i ↔ ∀ _ : i + 1 < a.starts.size, c < a.classLo (i + 1) := by
  by_cases hi : i + 1 < a.starts.size
  · rw [h.classLo_succ hi]
    exact ⟨fun hle _ => Nat.lt_succ_of_le hle, fun hlt => Nat.le_of_lt_succ (hlt hi)⟩
  · rw [classHi, if_neg hi]
    exact iff_of_true hc fun hi' => absurd hi' hi

theorem classLo_le_classHi (h : CutAt a sets) {i : Nat} (hi : i < a.starts.size) :
    a.classLo i ≤ a.classHi i :=
  (h.le_classHi_iff (h.classLo_le hi)).2 fun hi' => h.classLo_lt (Nat.lt_succ_self i) hi'

/-! ## The class of a code point -/

/-- The class of a code point is the one that holds it. -/
theorem codePointClass_eq (h : CutAt a sets) {i c : Nat} (hi : i < a.starts.size)
    (hlo : a.classLo i ≤ c) (hhi : c ≤ a.classHi i) : a.codePointClass c = i := by
  have hnext := (h.le_classHi_iff (Nat.le_trans hhi (h.classHi_le i))).1 hhi
  rw [h.size_starts] at hi hnext
  rw [h.classLo_eq hi] at hlo
  have hcount := length_takeWhile_le pairwise_startsOf hi hlo fun hi' =>
    h.classLo_eq hi' ▸ hnext hi'
  rw [codePointClass, h.starts, hcount, Nat.add_sub_cancel]

/-- Every code point is in its class. -/
theorem codePointClass_spec (h : CutAt a sets) {c : Nat} (hc : c ≤ maxCodePoint) :
    a.codePointClass c < a.starts.size ∧
      a.classLo (a.codePointClass c) ≤ c ∧ c ≤ a.classHi (a.codePointClass c) := by
  have hzero : 0 ∈ startsOf sets := mem_startsOf.2 (Or.inl rfl)
  obtain ⟨i, hi, hlo, hnext⟩ := exists_gap pairwise_startsOf hzero (Nat.zero_le c)
  rw [← h.classLo_eq hi] at hlo
  have hhi : c ≤ a.classHi i := by
    rw [h.le_classHi_iff hc, h.size_starts]
    exact fun hi' => h.classLo_eq hi' ▸ hnext hi'
  rw [← h.size_starts] at hi
  rw [h.codePointClass_eq hi hlo hhi]
  exact ⟨hi, hlo, hhi⟩

end CutAt

/-! ## Unions of classes -/

/-- The set holds all code points of a class or none. -/
def Unsplit (a : Alphabet) (s : CodePointSet) : Prop :=
  ∀ i < a.starts.size, ∀ c, a.classLo i ≤ c → c ≤ a.classHi i → s.test c = s.test (a.classLo i)

/-- None of the sets splits a class. -/
theorem CutAt.unsplit (h : CutAt a sets) {s : CodePointSet} (hs : s ∈ sets) : a.Unsplit s := by
  intro i hi c hlo hhi
  have hc := Nat.le_trans hhi (h.classHi_le i)
  have hnext := (h.le_classHi_iff hc).1 hhi
  -- nothing starts or ends between the start of the class and `c`
  have hgap : ∀ x ∈ startsOf sets, x ≤ c → x ≤ a.classLo i := by
    intro x hx hxc
    by_contra hlt
    rw [h.size_starts] at hi hnext
    rw [h.classLo_eq hi] at hlt
    obtain ⟨hi', hle⟩ := next_le pairwise_startsOf hi hx (Nat.lt_of_not_le hlt)
    rw [← h.classLo_eq hi'] at hle
    exact absurd (hnext hi') (Nat.not_lt_of_le (Nat.le_trans hle hxc))
  rw [Bool.eq_iff_iff, CodePointSet.test_iff, CodePointSet.test_iff]
  constructor
  · rintro ⟨r, hr, h1, h2⟩
    have hstart := mem_startsOf.2 (Or.inr ⟨s, hs, r, hr, Or.inl rfl⟩)
    exact ⟨r, hr, hgap _ hstart h1, Nat.le_trans hlo h2⟩
  · rintro ⟨r, hr, h1, h2⟩
    refine ⟨r, hr, Nat.le_trans h1 hlo, ?_⟩
    by_contra hlt
    have hstop := mem_startsOf.2 (Or.inr ⟨s, hs, r, hr, Or.inr ⟨by omega, rfl⟩⟩)
    have := hgap _ hstop (by omega)
    omega

/-- Two neighbours are in different classes just where one of the sets starts or has ended. -/
theorem CutAt.codePointClass_ne_iff (h : CutAt a sets) {c : Nat} (hc : c < maxCodePoint) :
    a.codePointClass c ≠ a.codePointClass (c + 1) ↔ ∃ s ∈ sets, s.test c ≠ s.test (c + 1) := by
  obtain ⟨hi, hlo, hhi⟩ := h.codePointClass_spec (Nat.le_of_lt hc)
  obtain ⟨hj, hlo', hhi'⟩ := h.codePointClass_spec (c := c + 1) hc
  constructor
  · intro hne
    have hstart : a.classLo (a.codePointClass (c + 1)) = c + 1 := by
      by_contra hlt
      exact hne (h.codePointClass_eq hj (by omega) (by omega))
    have hmem := h.classLo_mem hj
    rw [hstart] at hmem
    obtain hz | ⟨s, hs, r, hr, hx | ⟨_, hx⟩⟩ := mem_startsOf.1 hmem
    · cases hz
    · have hout := CodePointSet.not_covers_pred (h.proper s hs).canonical hr (by omega)
      have hin := CodePointSet.test_lo (h.proper s hs).canonical hr
      rw [← hx, Nat.add_sub_cancel, ← CodePointSet.test_iff] at hout
      exact ⟨s, hs, fun heq => hout (heq ▸ hx ▸ hin)⟩
    · have hout := CodePointSet.not_covers_succ (h.proper s hs).canonical hr
      have hin := CodePointSet.test_hi (h.proper s hs).canonical hr
      rw [← CodePointSet.test_iff] at hout
      obtain rfl := Nat.succ.inj hx
      exact ⟨s, hs, fun heq => hout (heq ▸ hin)⟩
  · rintro ⟨s, hs, hne⟩ heq
    rw [← heq] at hlo' hhi'
    have hunsplit := h.unsplit hs _ hi
    exact hne ((hunsplit c hlo hhi).trans (hunsplit (c + 1) hlo' hhi').symm)

/-! ## The classes of a set -/

/-- The interval starts where a class starts. -/
def Aligned (a : Alphabet) (r : Interval) : Prop :=
  a.codePointClass r.lo < a.starts.size ∧ a.classLo (a.codePointClass r.lo) = r.lo

/-- The walk along an interval meets the classes that start inside it. -/
theorem CutAt.mem_classesAlong (h : CutAt a sets) {r : Interval} (hr : a.Aligned r) {i : Nat} :
    i ∈ a.classesAlong r ↔ i < a.starts.size ∧ r.lo ≤ a.classLo i ∧ a.classLo i ≤ r.hi := by
  obtain ⟨hfirst, hlo⟩ := hr
  have hmem : ∀ j, j ∈ List.range' (a.codePointClass r.lo)
      (a.starts.size - a.codePointClass r.lo) ↔ a.codePointClass r.lo ≤ j ∧ j < a.starts.size := by
    intro j
    rw [List.mem_range'_1]
    omega
  have hdown : (List.range' (a.codePointClass r.lo)
      (a.starts.size - a.codePointClass r.lo)).Pairwise fun j k =>
        decide (a.classLo k ≤ r.hi) = true → decide (a.classLo j ≤ r.hi) = true := by
    refine (List.pairwise_lt_range' 1).imp_of_mem fun {j k} _ hk hjk hle => ?_
    rw [decide_eq_true_iff] at hle ⊢
    exact Nat.le_trans (Nat.le_of_lt (h.classLo_lt hjk ((hmem k).1 hk).2)) hle
  rw [classesAlong, takeWhile_eq_filter hdown, List.mem_filter, hmem, decide_eq_true_iff]
  constructor
  · rintro ⟨⟨h1, h2⟩, h3⟩
    have hle := (h.classLo_le_iff hfirst h2).2 h1
    rw [hlo] at hle
    exact ⟨h2, hle, h3⟩
  · rintro ⟨h1, h2, h3⟩
    rw [← hlo, h.classLo_le_iff hfirst h1] at h2
    exact ⟨⟨h2, h1⟩, h3⟩

namespace Unsplit

variable {s : CodePointSet}

/-- A class that starts in a union of classes lies inside of it. -/
theorem holds_iff (hs : a.Unsplit s) (h : CutAt a sets) {i : Nat} (hi : i < a.starts.size) :
    s.test (a.classLo i) = true ↔
      ∀ c, a.classLo i ≤ c → c ≤ a.classHi i → s.test c = true := by
  constructor
  · intro htest c hlo hhi
    rw [hs i hi c hlo hhi]
    exact htest
  · exact fun hall => hall _ (Nat.le_refl _) (h.classLo_le_classHi hi)

/-- Every interval of a union of classes starts where a class starts. -/
theorem aligned (hs : a.Unsplit s) (h : CutAt a sets) (hp : s.Proper) {r : Interval}
    (hr : r ∈ s.intervals) : a.Aligned r := by
  obtain ⟨hi, hlo, hhi⟩ := h.codePointClass_spec (hp.lo_le hr)
  refine ⟨hi, ?_⟩
  by_contra hne
  have hlt := Nat.lt_of_le_of_ne hlo hne
  -- the code point before the interval would be in the class of its first one
  have hin := CodePointSet.test_lo hp.canonical hr
  rw [hs _ hi _ hlo hhi, ← hs _ hi (r.lo - 1) (by omega) (by omega), CodePointSet.test_iff] at hin
  exact CodePointSet.not_covers_pred hp.canonical hr (by omega) hin

/-- The classes of a union of classes are those that it holds. -/
theorem mem_classesIn (hs : a.Unsplit s) (h : CutAt a sets) (hp : s.Proper) {i : Nat} :
    i ∈ a.classesIn s ↔ i < a.starts.size ∧ s.test (a.classLo i) = true := by
  rw [classesIn, List.mem_flatMap, CodePointSet.test_iff]
  constructor
  · rintro ⟨r, hr, hi⟩
    obtain ⟨hsize, hin⟩ := (h.mem_classesAlong (hs.aligned h hp hr)).1 hi
    exact ⟨hsize, r, hr, hin⟩
  · rintro ⟨hsize, r, hr, hin⟩
    exact ⟨r, hr, (h.mem_classesAlong (hs.aligned h hp hr)).2 ⟨hsize, hin⟩⟩

/-- The classes of a union of classes come in ascending order. -/
theorem pairwise_classesIn (hs : a.Unsplit s) (h : CutAt a sets) (hp : s.Proper) :
    (a.classesIn s).Pairwise (· < ·) := by
  rw [classesIn, List.pairwise_flatMap]
  refine ⟨fun r _ => (List.pairwise_lt_range' 1).sublist (List.takeWhile_sublist _), ?_⟩
  have hgaps := CodePointSet.pairwise_canonical hp.canonical
  refine hgaps.imp_of_mem fun {r t} hr ht hrt i hi j hj => ?_
  obtain ⟨h1, _, h2⟩ := (h.mem_classesAlong (hs.aligned h hp hr)).1 hi
  obtain ⟨h3, h4, _⟩ := (h.mem_classesAlong (hs.aligned h hp ht)).1 hj
  by_contra hji
  have := (h.classLo_le_iff h3 h1).2 (Nat.le_of_not_lt hji)
  omega

end Unsplit

/-- The classes of the list make up the set, and are in ascending order. -/
structure MadeOf (a : Alphabet) (s : CodePointSet) (l : List Nat) : Prop where
  ascending : l.Pairwise (· < ·)
  lt_size : ∀ i ∈ l, i < a.starts.size
  test : ∀ c, s.test c = true ↔ ∃ i ∈ l, a.classLo i ≤ c ∧ c ≤ a.classHi i

/-- A set that splits no class is made of the classes that a walk along its intervals meets. -/
theorem Unsplit.madeOf {s : CodePointSet} (hs : a.Unsplit s) (h : CutAt a sets) (hp : s.Proper) :
    a.MadeOf s (a.classesIn s) where
  ascending := hs.pairwise_classesIn h hp
  lt_size _ hi := ((hs.mem_classesIn h hp).1 hi).1
  test c := by
    constructor
    · intro hc
      obtain ⟨hi, hlo, hhi⟩ := h.codePointClass_spec (hp.le_of_test hc)
      exact ⟨_, (hs.mem_classesIn h hp).2 ⟨hi, hs _ hi c hlo hhi ▸ hc⟩, hlo, hhi⟩
    · rintro ⟨i, hi, hlo, hhi⟩
      obtain ⟨hsize, hin⟩ := (hs.mem_classesIn h hp).1 hi
      rw [hs i hsize c hlo hhi]
      exact hin

namespace MadeOf

variable {s : CodePointSet} {l : List Nat}

theorem test_iff_mem (hm : a.MadeOf s l) (h : CutAt a sets) {i c : Nat} (hi : i < a.starts.size)
    (hlo : a.classLo i ≤ c) (hhi : c ≤ a.classHi i) : s.test c = true ↔ i ∈ l := by
  rw [hm.test]
  constructor
  · rintro ⟨j, hj, hlo', hhi'⟩
    have heq := h.codePointClass_eq (hm.lt_size j hj) hlo' hhi'
    rw [h.codePointClass_eq hi hlo hhi] at heq
    exact heq ▸ hj
  · exact fun hl => ⟨i, hl, hlo, hhi⟩

theorem unsplit (hm : a.MadeOf s l) (h : CutAt a sets) : a.Unsplit s := by
  intro i hi c hlo hhi
  rw [Bool.eq_iff_iff, hm.test_iff_mem h hi hlo hhi,
    hm.test_iff_mem h hi (Nat.le_refl _) (h.classLo_le_classHi hi)]

theorem proper (hm : a.MadeOf s l) (h : CutAt a sets)
    (hcanonical : CodePointSet.Canonical s.intervals) : s.Proper := by
  refine ⟨hcanonical, fun r hr => ?_⟩
  obtain ⟨i, _, _, hhi⟩ := (hm.test r.hi).1 (CodePointSet.test_hi hcanonical hr)
  exact Nat.le_trans hhi (h.classHi_le i)

/-- No other classes make up the set than those that the walk meets. -/
theorem classesIn_eq (hm : a.MadeOf s l) (h : CutAt a sets)
    (hcanonical : CodePointSet.Canonical s.intervals) : a.classesIn s = l := by
  have hs := hm.unsplit h
  have hp := hm.proper h hcanonical
  refine (hs.pairwise_classesIn h hp).eq_of_mem_iff hm.ascending fun i => ?_
  rw [hs.mem_classesIn h hp]
  constructor
  · rintro ⟨hi, hin⟩
    exact (hm.test_iff_mem h hi (Nat.le_refl _) (h.classLo_le_classHi hi)).1 hin
  · intro hi
    have hsize := hm.lt_size i hi
    exact ⟨hsize, (hm.test_iff_mem h hsize (Nat.le_refl _) (h.classLo_le_classHi hsize)).2 hi⟩

end MadeOf

end ByteRegex.Alphabet
