-- The laws of sets of code points. A set keeps its intervals in order with a
-- gap between any two, and every operation does to the members what it says.
import ByteRegex.Matcher
import Mathlib.Tactic.Common

namespace ByteRegex

namespace CodePointSet

/-- Some interval of the list holds the number. -/
def Covers (l : List Interval) (c : Nat) : Prop := ∃ r ∈ l, r.lo ≤ c ∧ c ≤ r.hi

theorem covers_nil (c : Nat) : ¬ Covers [] c := by simp [Covers]

theorem covers_cons {r : Interval} {l : List Interval} {c : Nat} :
    Covers (r :: l) c ↔ (r.lo ≤ c ∧ c ≤ r.hi) ∨ Covers l c := by simp [Covers]

theorem covers_append {l l' : List Interval} {c : Nat} :
    Covers (l ++ l') c ↔ Covers l c ∨ Covers l' c := by
  simp only [Covers, List.mem_append, or_and_right, exists_or]

theorem test_iff {s : CodePointSet} {c : Nat} : s.test c = true ↔ Covers s.intervals c := by
  simp [test, Interval.contains, Covers]

/-! ## The form of a set -/

theorem canonical_cons {r : Interval} {l : List Interval} :
    Canonical (r :: l) ↔ r.lo ≤ r.hi ∧ (∀ s ∈ l, r.hi + 1 < s.lo) ∧ Canonical l := by
  induction l generalizing r with
  | nil => simp [Canonical]
  | cons s l ih =>
    simp only [Canonical, ih (r := s), List.mem_cons, forall_eq_or_imp]
    constructor
    · rintro ⟨h1, h2, h3, h4, h5⟩
      exact ⟨h1, ⟨h2, fun t ht => by have := h4 t ht; omega⟩, h3, h4, h5⟩
    · rintro ⟨h1, ⟨h2, _⟩, h3, h4, h5⟩
      exact ⟨h1, h2, h3, h4, h5⟩

theorem canonical_lo_le {l : List Interval} (h : Canonical l) : ∀ r ∈ l, r.lo ≤ r.hi := by
  induction l with
  | nil => simp
  | cons r l ih =>
    rw [canonical_cons] at h
    simp only [List.mem_cons, forall_eq_or_imp]
    exact ⟨h.1, ih h.2.2⟩

theorem pairwise_canonical {l : List Interval} (h : Canonical l) :
    l.Pairwise fun r s => r.hi + 1 < s.lo := by
  induction l with
  | nil => exact .nil
  | cons r l ih =>
    obtain ⟨_, hgap, hrest⟩ := canonical_cons.1 h
    exact List.pairwise_cons.2 ⟨hgap, ih hrest⟩

/-- Between two intervals lies a number that is in neither. -/
theorem apart_of_mem {l : List Interval} (h : Canonical l) {r s : Interval} (hr : r ∈ l)
    (hs : s ∈ l) : r = s ∨ r.hi + 1 < s.lo ∨ s.hi + 1 < r.lo := by
  induction l with
  | nil => cases hr
  | cons t l ih =>
    obtain ⟨_, hgap, hrest⟩ := canonical_cons.1 h
    rw [List.mem_cons] at hr hs
    rcases hr with rfl | hr <;> rcases hs with rfl | hs
    · exact Or.inl rfl
    · exact Or.inr (Or.inl (hgap s hs))
    · exact Or.inr (Or.inr (hgap r hr))
    · exact ih hrest hr hs

/-- The number before an interval is in none of the intervals. -/
theorem not_covers_pred {l : List Interval} (h : Canonical l) {r : Interval} (hr : r ∈ l)
    (hpos : 0 < r.lo) : ¬ Covers l (r.lo - 1) := by
  rintro ⟨s, hs, h1, h2⟩
  have hr' := canonical_lo_le h r hr
  have hs' := canonical_lo_le h s hs
  rcases apart_of_mem h hr hs with rfl | hrs | hrs <;> omega

/-- The number behind an interval is in none of the intervals. -/
theorem not_covers_succ {l : List Interval} (h : Canonical l) {r : Interval} (hr : r ∈ l) :
    ¬ Covers l (r.hi + 1) := by
  rintro ⟨s, hs, h1, h2⟩
  have hr' := canonical_lo_le h r hr
  have hs' := canonical_lo_le h s hs
  rcases apart_of_mem h hr hs with rfl | hrs | hrs <;> omega

theorem test_lo {s : CodePointSet} (h : Canonical s.intervals) {r : Interval}
    (hr : r ∈ s.intervals) : s.test r.lo = true :=
  test_iff.2 ⟨r, hr, Nat.le_refl _, canonical_lo_le h r hr⟩

theorem test_hi {s : CodePointSet} (h : Canonical s.intervals) {r : Interval}
    (hr : r ∈ s.intervals) : s.test r.hi = true :=
  test_iff.2 ⟨r, hr, canonical_lo_le h r hr, Nat.le_refl _⟩

/-- The set is in its one form and holds code points only. -/
structure Proper (s : CodePointSet) : Prop where
  canonical : Canonical s.intervals
  hi_le : ∀ r ∈ s.intervals, r.hi ≤ maxCodePoint

theorem Proper.lo_le {s : CodePointSet} (h : s.Proper) {r : Interval} (hr : r ∈ s.intervals) :
    r.lo ≤ maxCodePoint := Nat.le_trans (canonical_lo_le h.canonical r hr) (h.hi_le r hr)

theorem Proper.le_of_test {s : CodePointSet} (h : s.Proper) {c : Nat} (hc : s.test c = true) :
    c ≤ maxCodePoint := by
  obtain ⟨r, hr, _, hle⟩ := test_iff.1 hc
  exact Nat.le_trans hle (h.hi_le r hr)

/-! ## Adding an interval -/

theorem lt_lo_insertInto {new : Interval} {l : List Interval} {x : Nat} (hn : x < new.lo)
    (hl : ∀ r ∈ l, x < r.lo) : ∀ r ∈ insertInto new l, x < r.lo := by
  fun_induction insertInto new l with
  | case1 new => simpa using hn
  | case2 new r rest h ih =>
    simp only [List.mem_cons, forall_eq_or_imp] at hl ⊢
    exact ⟨hl.1, ih hn hl.2⟩
  | case3 new r rest _ _ =>
    simp only [List.mem_cons, forall_eq_or_imp] at hl ⊢
    exact ⟨hn, hl.1, hl.2⟩
  | case4 new r rest _ _ ih =>
    simp only [List.mem_cons, forall_eq_or_imp] at hl
    exact ih (by simp only; omega) hl.2

theorem canonical_insertInto {new : Interval} {l : List Interval} (hn : new.lo ≤ new.hi)
    (h : Canonical l) : Canonical (insertInto new l) := by
  fun_induction insertInto new l with
  | case1 new => exact hn
  | case2 new r rest hr ih =>
    rw [canonical_cons] at h ⊢
    exact ⟨h.1, lt_lo_insertInto hr h.2.1, ih hn h.2.2⟩
  | case3 new r rest _ hr =>
    rw [canonical_cons]
    refine ⟨hn, ?_, h⟩
    rw [canonical_cons] at h
    simp only [List.mem_cons, forall_eq_or_imp]
    exact ⟨hr, fun s hs => by have := h.2.1 s hs; omega⟩
  | case4 new r rest _ _ ih =>
    rw [canonical_cons] at h
    exact ih (by simp only; omega) h.2.2

theorem covers_insertInto {new : Interval} {l : List Interval} (hn : new.lo ≤ new.hi)
    (h : Canonical l) (c : Nat) :
    Covers (insertInto new l) c ↔ (new.lo ≤ c ∧ c ≤ new.hi) ∨ Covers l c := by
  fun_induction insertInto new l with
  | case1 new => rw [covers_cons]
  | case2 new r rest hr ih =>
    rw [canonical_cons] at h
    rw [covers_cons, covers_cons, ih hn h.2.2, or_left_comm]
  | case3 new r rest _ _ => rw [covers_cons]
  | case4 new r rest h1 h2 ih =>
    rw [canonical_cons] at h
    rw [ih (by simp only; omega) h.2.2, covers_cons, ← or_assoc]
    refine or_congr ?_ Iff.rfl
    simp only
    omega

/-! ## Removing an interval -/

theorem lt_lo_removeFrom {old : Interval} {l : List Interval} {x : Nat}
    (hl : ∀ r ∈ l, x < r.lo) : ∀ r ∈ removeFrom old l, x < r.lo := by
  fun_induction removeFrom old l with
  | case1 => simp
  | case2 r rest _ ih =>
    simp only [List.mem_cons, forall_eq_or_imp] at hl ⊢
    exact ⟨hl.1, ih hl.2⟩
  | case3 r rest _ _ => exact hl
  | case4 r rest h1 h2 ih =>
    simp only [List.mem_cons, forall_eq_or_imp] at hl
    intro s hs
    simp only [List.mem_append] at hs
    rcases hs with (hs | hs) | hs
    · split at hs
      · rw [List.mem_singleton.1 hs]
        exact hl.1
      · cases hs
    · split at hs
      · rw [List.mem_singleton.1 hs]
        simp only
        omega
      · cases hs
    · exact ih hl.2 s hs

theorem canonical_removeFrom {old : Interval} {l : List Interval} (ho : old.lo ≤ old.hi)
    (h : Canonical l) : Canonical (removeFrom old l) := by
  fun_induction removeFrom old l with
  | case1 => exact h
  | case2 r rest hr ih =>
    rw [canonical_cons] at h ⊢
    exact ⟨h.1, lt_lo_removeFrom h.2.1, ih h.2.2⟩
  | case3 r rest _ _ => exact h
  | case4 r rest h1 h2 ih =>
    rw [canonical_cons] at h
    have hrest := ih h.2.2
    have hlo : ∀ s ∈ removeFrom old rest, r.hi + 1 < s.lo := lt_lo_removeFrom h.2.1
    -- the right piece and all that follows
    have hright : Canonical ((if old.hi < r.hi then [(⟨old.hi + 1, r.hi⟩ : Interval)] else [])
        ++ removeFrom old rest) := by
      split
      · rw [List.singleton_append, canonical_cons]
        exact ⟨by simp only; omega, hlo, hrest⟩
      · exact hrest
    rw [List.append_assoc]
    split
    · rw [List.singleton_append, canonical_cons]
      refine ⟨by simp only; omega, ?_, hright⟩
      intro s hs
      simp only [List.mem_append] at hs
      simp only
      rcases hs with hs | hs
      · split at hs
        · rw [List.mem_singleton.1 hs]
          simp only
          omega
        · cases hs
      · have := hlo s hs
        omega
    · exact hright

theorem covers_removeFrom {old : Interval} {l : List Interval} (ho : old.lo ≤ old.hi)
    (h : Canonical l) (c : Nat) :
    Covers (removeFrom old l) c ↔ Covers l c ∧ ¬ (old.lo ≤ c ∧ c ≤ old.hi) := by
  fun_induction removeFrom old l with
  | case1 => simp [covers_nil]
  | case2 r rest hr ih =>
    rw [canonical_cons] at h
    rw [covers_cons, covers_cons, ih h.2.2]
    constructor
    · rintro (h1 | ⟨h1, h2⟩)
      · exact ⟨Or.inl h1, by omega⟩
      · exact ⟨Or.inr h1, h2⟩
    · rintro ⟨h1 | h1, h2⟩
      · exact Or.inl h1
      · exact Or.inr ⟨h1, h2⟩
  | case3 r rest _ hr =>
    rw [canonical_cons] at h
    refine ⟨fun hc => ⟨hc, ?_⟩, fun hc => hc.1⟩
    rcases covers_cons.1 hc with h1 | ⟨s, hs, h1⟩
    · omega
    · have := h.2.1 s hs
      omega
  | case4 r rest h1 h2 ih =>
    rw [canonical_cons] at h
    have hpieces : Covers ((if r.lo < old.lo then [(⟨r.lo, old.lo - 1⟩ : Interval)] else [])
        ++ (if old.hi < r.hi then [(⟨old.hi + 1, r.hi⟩ : Interval)] else [])) c ↔
        (r.lo ≤ c ∧ c ≤ r.hi) ∧ ¬ (old.lo ≤ c ∧ c ≤ old.hi) := by
      rw [covers_append]
      split <;> split <;>
        simp only [covers_cons, covers_nil, or_false, false_or, false_iff] <;> omega
    rw [covers_append, hpieces, ih h.2.2, covers_cons, or_and_right]

/-! ## Members by rank -/

theorem exists_nthIn? {l : List Interval} {n : Nat}
    (hn : n < l.foldr (fun r n => r.size + n) 0) : ∃ c, nthIn? l n = some c ∧ Covers l c := by
  induction l generalizing n with
  | nil => exact absurd hn (Nat.not_lt_zero n)
  | cons r rest ih =>
    rw [nthIn?]
    by_cases h : n < r.size
    · rw [if_pos h]
      unfold Interval.size at h
      exact ⟨r.lo + n, rfl, covers_cons.2 (Or.inl (by omega))⟩
    · rw [if_neg h]
      rw [List.foldr_cons] at hn
      obtain ⟨c, hc, hcovers⟩ := ih (n := n - r.size) (by omega)
      exact ⟨c, hc, covers_cons.2 (Or.inr hcovers)⟩

/-- Every rank below the number of members has a member. -/
theorem exists_nth? {s : CodePointSet} {n : Nat} (hn : n < s.count) :
    ∃ c, s.nth? n = some c ∧ s.test c = true := by
  obtain ⟨c, hc, hcovers⟩ := exists_nthIn? hn
  exact ⟨c, hc, test_iff.2 hcovers⟩

theorem count_pos {s : CodePointSet} (h : Canonical s.intervals) (hne : s.isEmpty = false) :
    0 < s.count := by
  unfold isEmpty at hne
  unfold count
  cases hs : s.intervals with
  | nil => simp [hs] at hne
  | cons r rest =>
    have hle := canonical_lo_le h r (by simp [hs])
    rw [List.foldr_cons, Interval.size]
    omega

end CodePointSet

/-! ## The set of a class node -/

namespace Pattern

open CodePointSet

/-- The numbers of some of the ranges. -/
def InRanges (ranges : List (Nat × Nat)) (c : Nat) : Prop := ∃ r ∈ ranges, r.1 ≤ c ∧ c ≤ r.2

theorem canonical_foldl_insertRange {ranges : List (Nat × Nat)} {s : CodePointSet}
    (hr : ∀ r ∈ ranges, r.1 ≤ r.2) (hs : Canonical s.intervals) :
    Canonical (ranges.foldl (fun s r => s.insertRange r.1 r.2) s).intervals ∧
      ∀ c, Covers (ranges.foldl (fun s r => s.insertRange r.1 r.2) s).intervals c ↔
        Covers s.intervals c ∨ InRanges ranges c := by
  induction ranges generalizing s with
  | nil => simpa [InRanges] using hs
  | cons r ranges ih =>
    simp only [List.mem_cons, forall_eq_or_imp] at hr
    obtain ⟨h1, h2⟩ := ih (s := s.insertRange r.1 r.2) hr.2 (canonical_insertInto hr.1 hs)
    refine ⟨h1, fun c => ?_⟩
    rw [List.foldl_cons, h2, insertRange, covers_insertInto hr.1 hs]
    simp only [InRanges, List.mem_cons, exists_eq_or_imp]
    grind

theorem canonical_foldl_removeFrom {l acc : List Interval} (hl : ∀ r ∈ l, r.lo ≤ r.hi)
    (ha : Canonical acc) :
    Canonical (l.foldl (fun acc r => removeFrom r acc) acc) ∧
      ∀ c, Covers (l.foldl (fun acc r => removeFrom r acc) acc) c ↔
        Covers acc c ∧ ¬ Covers l c := by
  induction l generalizing acc with
  | nil => simpa [covers_nil] using ha
  | cons r l ih =>
    simp only [List.mem_cons, forall_eq_or_imp] at hl
    obtain ⟨h1, h2⟩ := ih hl.2 (canonical_removeFrom hl.1 ha)
    refine ⟨h1, fun c => ?_⟩
    rw [List.foldl_cons, h2, covers_removeFrom hl.1 ha, covers_cons]
    grind

theorem charRangeFault?_eq_none {ranges : List (Nat × Nat)} (h : charRangeFault? ranges = none) :
    ∀ r ∈ ranges, r.1 ≤ r.2 ∧ r.2 ≤ maxCodePoint := by
  intro r hr
  have := List.find?_eq_none.1 (Option.map_eq_none_iff.1 h) r hr
  simpa using this

/-- The set of a class node with valid ranges is in canonical form, stays within the code
points, and holds what the node allows. -/
theorem charSet_spec {ranges : List (Nat × Nat)} (h : charRangeFault? ranges = none)
    (negated : Bool) :
    Canonical (charSet ranges negated).intervals ∧
      ∀ c, (charSet ranges negated).test c = true ↔
        c ≤ maxCodePoint ∧ Matcher.charAllowed ranges negated c = true := by
  have hr := charRangeFault?_eq_none h
  obtain ⟨h1, h2⟩ := canonical_foldl_insertRange (s := CodePointSet.empty)
    (fun r hm => (hr r hm).1) trivial
  have hin : ∀ c, InRanges ranges c ↔ (ranges.any fun r => decide (r.1 ≤ c) && decide (c ≤ r.2))
      = true := by simp [InRanges]
  cases negated with
  | false =>
    refine ⟨h1, fun c => ?_⟩
    rw [test_iff, charSet, if_neg (by simp), h2, Matcher.charAllowed, Bool.bne_false, ← hin]
    simp only [CodePointSet.empty, covers_nil, false_or]
    refine ⟨?_, fun hc => hc.2⟩
    rintro ⟨r, hm, hc⟩
    exact ⟨Nat.le_trans hc.2 (hr r hm).2, r, hm, hc⟩
  | true =>
    have hfull : Canonical CodePointSet.full.intervals := Nat.zero_le _
    obtain ⟨h3, h4⟩ := canonical_foldl_removeFrom (canonical_lo_le h1) hfull
    refine ⟨h3, fun c => ?_⟩
    rw [test_iff, charSet, if_pos rfl, CodePointSet.compl, diff, h4, h2, Matcher.charAllowed,
      Bool.bne_true, Bool.not_eq_true', ← Bool.not_eq_true, ← hin]
    simp [CodePointSet.full, CodePointSet.empty, covers_cons, covers_nil]

end Pattern

end ByteRegex
