-- The walk over a set, from the least member to the next one until none is
-- left. It meets the members in ascending order, and if it leaves out the rest
-- of each run, it meets the maximal runs.
import ByteRegex.Proofs.ByteSet
import Mathlib.Data.List.Sort

namespace ByteRegex.ByteSet

variable {s : ByteSet} {k : Nat} {o : Option UInt8} {lo hi : UInt8}

/-- What is found is the least member from `k` on, and nothing if there is no member. -/
structure Finds (s : ByteSet) (k : Nat) (o : Option UInt8) : Prop where
  least : ∀ c, o = some c → s.LeastFrom k c
  absent : o = none → ∀ b : UInt8, k ≤ b.toNat → s.test b = false

theorem finds_first? (s : ByteSet) : s.Finds 0 s.first? :=
  ⟨fun _ => first?_eq_some_iff.1, fun h b _ => first?_eq_none_iff.1 h b⟩

theorem finds_next? (s : ByteSet) (n : Nat) : s.Finds (n + 1) (s.next? n) :=
  ⟨fun c => ((s.next?_spec n).1 c).1, (s.next?_spec n).2.1⟩

/-! ## The members -/

/-- The bytes that are met from a first one on, when each is followed by the next member. -/
inductive Visits (s : ByteSet) : Option UInt8 → List UInt8 → Prop
  | done : Visits s none []
  | visit {c : UInt8} {l : List UInt8} (h : Visits s (s.next? c.toNat) l) :
      Visits s (some c) (c :: l)

theorem Visits.spec {l : List UInt8} (h : Visits s o l) (hfind : s.Finds k o) :
    l.Pairwise (· < ·) ∧ ∀ b, b ∈ l ↔ k ≤ b.toNat ∧ s.test b = true := by
  induction h generalizing k with
  | done =>
    refine ⟨List.Pairwise.nil, fun b => iff_of_false List.not_mem_nil ?_⟩
    rintro ⟨hk, hb⟩
    rw [hfind.absent rfl b hk] at hb
    cases hb
  | @visit c l _ ih =>
    have hc := hfind.least c rfl
    obtain ⟨hsorted, hmem⟩ := ih (s.finds_next? c.toNat)
    refine ⟨List.pairwise_cons.2 ⟨fun b hb => UInt8.lt_iff_toNat_lt.2 ((hmem b).1 hb).1, hsorted⟩,
      fun b => ?_⟩
    rw [List.mem_cons, hmem]
    constructor
    · rintro (rfl | ⟨hcb, hb⟩)
      · exact ⟨hc.le, hc.test⟩
      · exact ⟨Nat.le_trans hc.le (Nat.le_of_succ_le hcb), hb⟩
    · rintro ⟨hkb, hb⟩
      rcases Nat.lt_trichotomy b.toNat c.toNat with hlt | heq | hgt
      · rw [hc.least b hkb (UInt8.lt_iff_toNat_lt.2 hlt)] at hb
        cases hb
      · exact Or.inl (UInt8.toNat_inj.1 heq)
      · exact Or.inr ⟨hgt, hb⟩

/-- The walk comes to an end, since it only goes up. -/
theorem Finds.exists_visits {k : Nat} {o : Option UInt8} (h : s.Finds k o) :
    ∃ l, Visits s o l := by
  cases o with
  | none => exact ⟨[], .done⟩
  | some c =>
    have hle := (h.least c rfl).le
    have hlt := c.toNat_lt
    obtain ⟨l, hl⟩ := (s.finds_next? c.toNat).exists_visits
    exact ⟨c :: l, .visit hl⟩
termination_by 256 - k

theorem ascending_toList (s : ByteSet) : s.toList.Pairwise (· < ·) :=
  (List.pairwise_map.1 s.pairwise_toList).imp UInt8.lt_iff_toNat_lt.2

/-- The walk from the least member on meets every member once, in ascending order. -/
theorem visits_iff {l : List UInt8} : Visits s s.first? l ↔ l = s.toList := by
  have heq : ∀ {l}, Visits s s.first? l → l = s.toList := fun {l} h => by
    obtain ⟨hsorted, hmem⟩ := h.spec s.finds_first?
    exact hsorted.eq_of_mem_iff s.ascending_toList fun b => by simp [hmem, mem_toList]
  refine ⟨heq, ?_⟩
  rintro rfl
  obtain ⟨l, hl⟩ := s.finds_first?.exists_visits
  exact heq hl ▸ hl

/-! ## The runs -/

/-- The bytes from `lo` to `hi` are members, and the bytes on both sides of them are not. -/
structure IsRun (s : ByteSet) (lo hi : UInt8) : Prop where
  le : lo ≤ hi
  inside : ∀ b, lo ≤ b → b ≤ hi → s.test b = true
  before : ∀ b : UInt8, b.toNat + 1 = lo.toNat → s.test b = false
  after : ∀ b : UInt8, b.toNat = hi.toNat + 1 → s.test b = false

/-- The runs lie apart, in ascending order. -/
structure Spaced (l : List (UInt8 × UInt8)) : Prop where
  le : ∀ r ∈ l, r.1 ≤ r.2
  gap : l.Pairwise fun r r' => r.2.toNat + 1 < r'.1.toNat

/-- The runs lie apart and cover the members from `k` on. -/
structure RunsFrom (s : ByteSet) (k : Nat) (l : List (UInt8 × UInt8)) : Prop extends Spaced l where
  cover : ∀ b, (∃ r ∈ l, r.1 ≤ b ∧ b ≤ r.2) ↔ k ≤ b.toNat ∧ s.test b = true

section Spaced

variable {l l' : List (UInt8 × UInt8)} {r r' : UInt8 × UInt8}

theorem Spaced.apart (h : Spaced l) (hr : r ∈ l) (hr' : r' ∈ l) :
    r.2.toNat + 1 < r'.1.toNat ∨ r = r' ∨ r'.2.toNat + 1 < r.1.toNat := by
  obtain ⟨i, hi, rfl⟩ := List.mem_iff_getElem.1 hr
  obtain ⟨j, hj, rfl⟩ := List.mem_iff_getElem.1 hr'
  have hgap := List.pairwise_iff_getElem.1 h.gap
  rcases Nat.lt_trichotomy i j with hij | rfl | hij
  · exact Or.inl (hgap i j hi hj hij)
  · exact Or.inr (Or.inl rfl)
  · exact Or.inr (Or.inr (hgap j i hj hi hij))

theorem Spaced.of_cons (h : Spaced (r :: l)) :
    r.1 ≤ r.2 ∧ (∀ r' ∈ l, r.2.toNat + 1 < r'.1.toNat) ∧ Spaced l := by
  obtain ⟨hgap, hrest⟩ := List.pairwise_cons.1 h.gap
  exact ⟨h.le r List.mem_cons_self, hgap, fun r' hr' => h.le r' (List.mem_cons_of_mem r hr'), hrest⟩

/-- Each run but the last takes up two bytes at least, with the one that is left out behind it. -/
theorem Spaced.two_mul_length_le {k : Nat} (h : Spaced l) (hk : k ≤ 257)
    (hl : ∀ r ∈ l, k ≤ r.1.toNat) : k + 2 * l.length ≤ 257 := by
  induction l generalizing k with
  | nil => exact hk
  | cons r l ih =>
    obtain ⟨hle, hgap, hrest⟩ := h.of_cons
    have hlt := r.2.toNat_lt
    have hkr := hl r List.mem_cons_self
    have hlen := ih (k := r.2.toNat + 2) hrest (by omega) hgap
    rw [UInt8.le_iff_toNat_le] at hle
    rw [List.length_cons]
    omega

/-- There are at most 128 runs. -/
theorem Spaced.length_le (h : Spaced l) : l.length ≤ 128 := by
  have := h.two_mul_length_le (Nat.zero_le 257) fun _ _ => Nat.zero_le _
  omega

/-- Next to a run there is no member. -/
theorem RunsFrom.test_beside (h : s.RunsFrom 0 l) (hr : r ∈ l) {b : UInt8}
    (hb : b.toNat + 1 = r.1.toNat ∨ b.toNat = r.2.toNat + 1) : s.test b = false := by
  refine Bool.eq_false_iff.2 fun ht => ?_
  obtain ⟨r', hr', hlo, hhi⟩ := (h.cover b).2 ⟨Nat.zero_le _, ht⟩
  have hle := h.le r hr
  rw [UInt8.le_iff_toNat_le] at hlo hhi hle
  rcases h.apart hr hr' with hgap | rfl | hgap <;> omega

theorem RunsFrom.isRun (h : s.RunsFrom 0 l) (hr : r ∈ l) : s.IsRun r.1 r.2 where
  le := h.le r hr
  inside b hlo hhi := ((h.cover b).1 ⟨r, hr, hlo, hhi⟩).2
  before _ hb := h.test_beside hr (Or.inl hb)
  after _ hb := h.test_beside hr (Or.inr hb)

theorem exists_byte {n : Nat} (h : n < 256) : ∃ b : UInt8, b.toNat = n :=
  ⟨n.toUInt8, UInt8.toNat_ofNat_of_lt h⟩

/-- A run reaches as far to both sides as another one that it meets. -/
theorem IsRun.le_of_overlap {lo' hi' : UInt8} (h : s.IsRun lo hi) (h' : s.IsRun lo' hi')
    (hlo : lo ≤ hi') (hhi : lo' ≤ hi) : lo ≤ lo' ∧ hi' ≤ hi := by
  constructor
  · by_contra hlt
    rw [UInt8.not_le, UInt8.lt_iff_toNat_lt] at hlt
    rw [UInt8.le_iff_toNat_le] at hlo
    have := lo.toNat_lt
    obtain ⟨b, hb⟩ := exists_byte (by omega : lo.toNat - 1 < 256)
    have hin := h'.inside b (UInt8.le_iff_toNat_le.2 (by omega))
      (UInt8.le_iff_toNat_le.2 (by omega))
    rw [h.before b (by omega)] at hin
    cases hin
  · by_contra hlt
    rw [UInt8.not_le, UInt8.lt_iff_toNat_lt] at hlt
    rw [UInt8.le_iff_toNat_le] at hhi
    have := hi'.toNat_lt
    obtain ⟨b, hb⟩ := exists_byte (by omega : hi.toNat + 1 < 256)
    have hin := h'.inside b (UInt8.le_iff_toNat_le.2 (by omega))
      (UInt8.le_iff_toNat_le.2 (by omega))
    rw [h.after b hb] at hin
    cases hin

/-- The runs that cover a set are its maximal runs. -/
theorem RunsFrom.mem_iff (h : s.RunsFrom 0 l) : r ∈ l ↔ s.IsRun r.1 r.2 := by
  refine ⟨h.isRun, fun hr => ?_⟩
  obtain ⟨r', hr', hlo, hhi⟩ := (h.cover r.1).2 ⟨Nat.zero_le _, hr.inside _ (UInt8.le_refl _) hr.le⟩
  have hrun' := h.isRun hr'
  have hmeet := UInt8.le_trans hlo hr.le
  obtain ⟨h1, h2⟩ := hr.le_of_overlap hrun' hhi hmeet
  obtain ⟨h3, h4⟩ := hrun'.le_of_overlap hr hmeet hhi
  rwa [Prod.ext (UInt8.le_antisymm h1 h3) (UInt8.le_antisymm h4 h2)]

/-- A set has only one list of runs. -/
theorem RunsFrom.unique (h : s.RunsFrom 0 l) (h' : s.RunsFrom 0 l') : l = l' := by
  have hlt : ∀ {l}, s.RunsFrom 0 l → l.Pairwise fun r r' => r.1 < r'.1 := fun {l} h =>
    h.gap.imp_of_mem fun {r _} hr _ hgap => by
      have := UInt8.le_iff_toNat_le.1 (h.le r hr)
      exact UInt8.lt_iff_toNat_lt.2 (by omega)
  have : Std.Antisymm fun r r' : UInt8 × UInt8 => r.1 < r'.1 :=
    ⟨fun _ _ h h' => absurd h' (UInt8.lt_asymm h)⟩
  have : Std.Irrefl fun r r' : UInt8 × UInt8 => r.1 < r'.1 := ⟨fun _ => UInt8.lt_irrefl _⟩
  exact (hlt h).eq_of_mem_iff (hlt h') fun r => h.mem_iff.trans h'.mem_iff.symm

end Spaced

/-! ## The runs of a set -/

theorem joinRuns_le {l : List Nat} {r : Nat × Nat} (h : r ∈ joinRuns l) : r.1 ≤ r.2 := by
  induction l generalizing r with
  | nil => cases h
  | cons a l ih =>
    unfold joinRuns at h
    split at h
    next lo hi runs heq =>
      rw [heq] at ih
      have hfirst := ih (r := (lo, hi)) List.mem_cons_self
      split at h
      next hlo =>
        rcases List.mem_cons.1 h with rfl | h
        · exact Nat.le_trans (Nat.le_of_lt (hlo ▸ Nat.lt_succ_self a)) hfirst
        · exact ih (List.mem_cons_of_mem _ h)
      next =>
        rcases List.mem_cons.1 h with rfl | h
        · exact Nat.le_refl a
        · exact ih h
    next =>
      rw [List.mem_singleton.1 h]

/-- Between two runs of an ascending list a number is left out. -/
theorem pairwise_joinRuns {l : List Nat} (h : l.Pairwise (· < ·)) :
    (joinRuns l).Pairwise fun r r' => r.2 + 1 < r'.1 := by
  induction l with
  | nil => exact List.Pairwise.nil
  | cons a l ih =>
    obtain ⟨hlt, hl⟩ := List.pairwise_cons.1 h
    have ih := ih hl
    unfold joinRuns
    split
    next lo hi runs heq =>
      have ha : a < lo := hlt lo (mem_joinRuns (heq ▸ List.mem_cons_self)).1
      have hle : lo ≤ hi := joinRuns_le (heq ▸ List.mem_cons_self)
      rw [heq] at ih
      obtain ⟨hgap, hruns⟩ := List.pairwise_cons.1 ih
      split
      next => exact List.pairwise_cons.2 ⟨hgap, hruns⟩
      next hne =>
        refine List.pairwise_cons.2 ⟨fun r hr => ?_, ih⟩
        rcases List.mem_cons.1 hr with rfl | hr
        · exact Nat.lt_of_le_of_ne ha (Ne.symm hne)
        · have := hgap r hr
          omega
    next => exact List.pairwise_singleton _ _

theorem runsFrom_runs (s : ByteSet) : s.RunsFrom 0 s.runs where
  le r hr := by
    have hmem : (r.1.toNat, r.2.toNat) ∈ joinRuns (s.toList.map UInt8.toNat) := by
      rw [← map_toNat_runs]
      exact List.mem_map_of_mem hr
    exact UInt8.le_iff_toNat_le.2 (joinRuns_le hmem)
  gap := by
    have hgap := pairwise_joinRuns s.pairwise_toList
    rwa [← map_toNat_runs, List.pairwise_map] at hgap
  cover b := by rw [exists_mem_runs, and_iff_right (Nat.zero_le _)]

/-- The end of the run of a member: it goes on while the next byte is a member too. -/
inductive Extends (s : ByteSet) : UInt8 → UInt8 → Prop
  | stop {c : UInt8} (h : ∀ b : UInt8, b.toNat = c.toNat + 1 → s.test b = false) : Extends s c c
  | extend {c b hi : UInt8} (hb : b.toNat = c.toNat + 1) (ht : s.test b = true)
      (h : Extends s b hi) : Extends s c hi

theorem Extends.spec (h : Extends s lo hi) (hlo : s.test lo = true) :
    lo ≤ hi ∧ (∀ b, lo ≤ b → b ≤ hi → s.test b = true) ∧
      ∀ b : UInt8, b.toNat = hi.toNat + 1 → s.test b = false := by
  induction h with
  | stop h =>
    exact ⟨UInt8.le_refl _, fun b h1 h2 => UInt8.le_antisymm h1 h2 ▸ hlo, h⟩
  | @extend c d hi hd ht _ ih =>
    obtain ⟨hle, hin, hafter⟩ := ih ht
    have hcd : c ≤ d := UInt8.le_iff_toNat_le.2 (by omega)
    refine ⟨UInt8.le_trans hcd hle, fun b h1 h2 => ?_, hafter⟩
    by_cases hdb : d ≤ b
    · exact hin b hdb h2
    · have : b = c := by
        rw [UInt8.le_iff_toNat_le] at h1 hdb
        exact UInt8.toNat_inj.1 (by omega)
      exact this ▸ hlo

theorem exists_extends (s : ByteSet) (c : UInt8) : ∃ hi, Extends s c hi := by
  by_cases h : ∃ b : UInt8, b.toNat = c.toNat + 1 ∧ s.test b = true
  · obtain ⟨b, hb, ht⟩ := h
    have := b.toNat_lt
    obtain ⟨hi, hext⟩ := exists_extends s b
    exact ⟨hi, .extend hb ht hext⟩
  · push Not at h
    exact ⟨c, .stop fun b hb => Bool.eq_false_iff.2 (h b hb)⟩
termination_by 256 - c.toNat

/-- The runs that are met from a first member on, when the walk goes on behind the end of each. -/
inductive FindsRuns (s : ByteSet) : Option UInt8 → List (UInt8 × UInt8) → Prop
  | done : FindsRuns s none []
  | run {lo hi : UInt8} {l : List (UInt8 × UInt8)} (hext : Extends s lo hi)
      (h : FindsRuns s (s.next? hi.toNat) l) : FindsRuns s (some lo) ((lo, hi) :: l)

theorem FindsRuns.runsFrom {l : List (UInt8 × UInt8)} (h : FindsRuns s o l) (hfind : s.Finds k o) :
    s.RunsFrom k l := by
  induction h generalizing k with
  | done =>
    refine ⟨⟨by simp, List.Pairwise.nil⟩, fun b => iff_of_false (by simp) ?_⟩
    rintro ⟨hk, hb⟩
    rw [hfind.absent rfl b hk] at hb
    cases hb
  | @run lo hi l hext _ ih =>
    have hlo := hfind.least lo rfl
    obtain ⟨hle, hin, hafter⟩ := hext.spec hlo.test
    have hrest := ih (s.finds_next? hi.toNat)
    refine ⟨⟨fun r hr => ?_, List.pairwise_cons.2 ⟨fun r hr => ?_, hrest.gap⟩⟩, fun b => ?_⟩
    · rcases List.mem_cons.1 hr with rfl | hr
      · exact hle
      · exact hrest.le r hr
    · -- the byte behind the run is no member, so that the next run starts behind it
      obtain ⟨hk, ht⟩ := (hrest.cover r.1).1 ⟨r, hr, UInt8.le_refl _, hrest.le r hr⟩
      refine Nat.lt_of_le_of_ne hk fun heq => ?_
      rw [hafter r.1 heq.symm] at ht
      cases ht
    · rw [List.exists_mem_cons_iff, hrest.cover]
      constructor
      · rintro (⟨h1, h2⟩ | ⟨hgt, ht⟩)
        · exact ⟨Nat.le_trans hlo.le (UInt8.le_iff_toNat_le.1 h1), hin b h1 h2⟩
        · exact ⟨Nat.le_trans hlo.le
            (Nat.le_trans (UInt8.le_iff_toNat_le.1 hle) (Nat.le_of_succ_le hgt)), ht⟩
      · rintro ⟨hk, ht⟩
        by_cases hhi : b ≤ hi
        · refine Or.inl ⟨?_, hhi⟩
          by_contra hlt
          rw [hlo.least b hk (UInt8.not_le.1 hlt)] at ht
          cases ht
        · exact Or.inr ⟨UInt8.lt_iff_toNat_lt.1 (UInt8.not_le.1 hhi), ht⟩

/-- The walk comes to an end, since each run ends at or above its start. -/
theorem Finds.exists_findsRuns {k : Nat} {o : Option UInt8} (h : s.Finds k o) :
    ∃ l, FindsRuns s o l := by
  cases o with
  | none => exact ⟨[], .done⟩
  | some lo =>
    have hlo := h.least lo rfl
    obtain ⟨hi, hext⟩ := s.exists_extends lo
    have hk := Nat.le_trans hlo.le (UInt8.le_iff_toNat_le.1 (hext.spec hlo.test).1)
    have hlt := hi.toNat_lt
    obtain ⟨l, hl⟩ := (s.finds_next? hi.toNat).exists_findsRuns
    exact ⟨(lo, hi) :: l, .run hext hl⟩
termination_by 256 - k

/-- The walk that goes on behind each run meets the maximal runs, in ascending order. -/
theorem findsRuns_iff {l : List (UInt8 × UInt8)} : FindsRuns s s.first? l ↔ l = s.runs := by
  have heq : ∀ {l}, FindsRuns s s.first? l → l = s.runs := fun h =>
    (h.runsFrom s.finds_first?).unique s.runsFrom_runs
  refine ⟨heq, ?_⟩
  rintro rfl
  obtain ⟨l, hl⟩ := s.finds_first?.exists_findsRuns
  exact heq hl ▸ hl

end ByteRegex.ByteSet
