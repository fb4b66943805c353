-- The runs of a set of bytes: each member lies in just one of them, and
-- nothing else lies in any.
import ByteRegex.Matcher
import ByteRegex.Proofs.ByteSet.Words
import Mathlib.Data.List.Basic

namespace ByteRegex

namespace ByteSet

/-! ## Runs of numbers -/

theorem joinRuns_cons (a : Nat) (l : List Nat) :
    ∃ hi runs, joinRuns (a :: l) = (a, hi) :: runs := by
  unfold joinRuns
  split
  · split
    · exact ⟨_, _, rfl⟩
    · exact ⟨_, _, rfl⟩
  · exact ⟨_, _, rfl⟩

theorem mem_joinRuns {l : List Nat} {r : Nat × Nat} (h : r ∈ joinRuns l) : r.1 ∈ l ∧ r.2 ∈ l := by
  induction l generalizing r with
  | nil => simp [joinRuns] at h
  | cons a l ih =>
    unfold joinRuns at h
    split at h
    · rename_i lo hi runs heq
      rw [heq] at ih
      have hfirst := ih (r := (lo, hi)) (by simp)
      split at h
      · rcases List.mem_cons.1 h with rfl | h
        · exact ⟨List.mem_cons_self, List.mem_cons_of_mem _ hfirst.2⟩
        · have := ih (List.mem_cons_of_mem _ h)
          exact ⟨List.mem_cons_of_mem _ this.1, List.mem_cons_of_mem _ this.2⟩
      · rcases List.mem_cons.1 h with rfl | h
        · exact ⟨List.mem_cons_self, List.mem_cons_self⟩
        · have := ih h
          exact ⟨List.mem_cons_of_mem _ this.1, List.mem_cons_of_mem _ this.2⟩
    · rw [List.mem_singleton.1 h]
      exact ⟨List.mem_cons_self, List.mem_cons_self⟩

/-- Among the runs of an ascending list, just one holds a member, and none holds another number. -/
theorem filterMap_joinRuns {α : Type} {l : List Nat} (h : l.Pairwise (· < ·)) (n : Nat) (x : α) :
    (joinRuns l).filterMap (fun r => if r.1 ≤ n ∧ n ≤ r.2 then some x else none) =
      if n ∈ l then [x] else [] := by
  induction l with
  | nil => simp [joinRuns]
  | cons a l ih =>
    obtain ⟨hlt, hl⟩ := List.pairwise_cons.1 h
    have ih := ih hl
    cases l with
    | nil =>
      simp only [joinRuns, List.filterMap_cons, List.filterMap_nil, List.mem_singleton]
      by_cases hn : n = a
      · simp [hn]
      · rw [if_neg (by omega), if_neg hn]
    | cons b l =>
      obtain ⟨hi, runs, heq⟩ := joinRuns_cons b l
      have hb := hlt b (by simp)
      have hhi : b ≤ hi := by
        have := (mem_joinRuns (r := (b, hi)) (l := b :: l) (by simp [heq])).2
        rcases List.mem_cons.1 this with heq | hm
        · exact Nat.le_of_eq heq.symm
        · exact Nat.le_of_lt ((List.pairwise_cons.1 hl).1 hi hm)
      have hna : a ∉ b :: l := fun hm => Nat.lt_irrefl a (hlt a hm)
      rw [heq, List.filterMap_cons] at ih
      rw [joinRuns, heq]
      simp only
      split
      · rename_i hab
        rw [List.filterMap_cons]
        by_cases hn : n = a
        · subst hn
          rw [if_neg hna, if_neg (by omega)] at ih
          rw [if_pos (by omega), if_pos (by simp)]
          simpa using ih
        · have hiff : (a ≤ n ∧ n ≤ hi) ↔ (b ≤ n ∧ n ≤ hi) := by omega
          simp only [hiff]
          rw [ih]
          simp [hn]
      · rw [List.filterMap_cons, List.filterMap_cons]
        by_cases hn : n = a
        · subst hn
          have hno : ¬ (b ≤ n ∧ n ≤ hi) := by omega
          rw [if_neg hna] at ih
          simp only [if_neg hno] at ih ⊢
          rw [if_pos (by omega), if_pos (by simp), ih]
        · rw [if_neg (by omega), ih]
          simp [hn]

/-! ## Runs of bytes -/

theorem pairwise_toList (s : ByteSet) : (s.toList.map UInt8.toNat).Pairwise (· < ·) := by
  have hall : (allBytes.map UInt8.toNat) = List.range 256 := by
    rw [allBytes, List.map_map]
    refine (List.map_congr_left fun n hn => ?_).trans (List.map_id _)
    simp [Nat.mod_eq_of_lt (List.mem_range.1 hn)]
  have hsub : List.Sublist (s.toList.map UInt8.toNat) (List.range 256) := by
    rw [← hall]
    exact List.filter_sublist.map _
  exact List.pairwise_lt_range.sublist hsub

theorem mem_map_toList {s : ByteSet} {b : UInt8} :
    b.toNat ∈ s.toList.map UInt8.toNat ↔ s.test b = true := by
  rw [← mem_toList]
  constructor
  · intro h
    obtain ⟨c, hc, heq⟩ := List.mem_map.1 h
    exact UInt8.toNat_inj.1 heq ▸ hc
  · exact List.mem_map_of_mem

theorem toList_ne_nil {s : ByteSet} (h : s.isEmpty = false) : s.toList ≠ [] := by
  intro hnil
  have hempty : s = empty := ext_test fun c => by
    rw [test_empty, ← Bool.not_eq_true, ← mem_toList, hnil]
    exact List.not_mem_nil
  rw [hempty] at h
  cases h

/-- The first member is the least one. -/
theorem first?_le {s : ByteSet} {b c : UInt8} (h : s.first? = some c) (hb : s.test b = true) :
    c ≤ b := by
  by_contra hbc
  have := (first?_eq_some_iff.1 h).least b (Nat.zero_le _) (UInt8.not_le.1 hbc)
  rw [hb] at this
  cases this

/-- The ends of the runs are members, so that they are bytes as they stand. -/
theorem map_toNat_runs (s : ByteSet) :
    s.runs.map (fun r => (r.1.toNat, r.2.toNat)) = joinRuns (s.toList.map UInt8.toNat) := by
  rw [runs, List.map_map]
  refine (List.map_congr_left fun r hr => ?_).trans (List.map_id _)
  obtain ⟨lo, hi⟩ := r
  obtain ⟨h1, h2⟩ := mem_joinRuns hr
  obtain ⟨c1, _, rfl⟩ := List.mem_map.1 h1
  obtain ⟨c2, _, rfl⟩ := List.mem_map.1 h2
  simp

theorem filterMap_runs {α : Type} (s : ByteSet) (b : UInt8) (x : α) :
    s.runs.filterMap (fun r => if r.1 ≤ b && b ≤ r.2 then some x else none) =
      if s.test b then [x] else [] := by
  have hruns := filterMap_joinRuns s.pairwise_toList b.toNat x
  rw [← map_toNat_runs, List.filterMap_map] at hruns
  simpa [Function.comp_def, mem_map_toList, UInt8.le_iff_toNat_le] using hruns

theorem exists_mem_runs (s : ByteSet) (b : UInt8) :
    (∃ r ∈ s.runs, r.1 ≤ b ∧ b ≤ r.2) ↔ s.test b = true := by
  have h := s.filterMap_runs b ()
  constructor
  · rintro ⟨r, hr, hb⟩
    by_contra hc
    rw [if_neg hc, List.filterMap_eq_nil_iff] at h
    have := h r hr
    simp [hb.1, hb.2] at this
  · intro ht
    rw [if_pos ht] at h
    have : () ∈ s.runs.filterMap fun r => if r.1 ≤ b && b ≤ r.2 then some () else none := by
      rw [h]
      exact List.mem_singleton_self ()
    obtain ⟨r, hr, hb⟩ := List.mem_filterMap.1 this
    split at hb
    · rename_i hle
      exact ⟨r, hr, by simpa using hle⟩
    · cases hb

end ByteSet

/-- The set of a byte node holds what the node allows. -/
theorem Pattern.test_byteSet (ranges : List (UInt8 × UInt8)) (b : UInt8) :
    (byteSet ranges).test b = Matcher.byteAllowed ranges b := by
  have hfold : ∀ s : ByteSet, (ranges.foldl (fun s r => s.insertRange r.1 r.2) s).test b =
      (s.test b || Matcher.byteAllowed ranges b) := by
    induction ranges with
    | nil => simp [Matcher.byteAllowed]
    | cons r ranges ih =>
      intro s
      rw [List.foldl_cons, ih, ByteSet.insertRange, ByteSet.test_union, ByteSet.test_range,
        Bool.or_assoc]
      rfl
  rw [byteSet, hfold, ByteSet.test_empty, Bool.false_or]

end ByteRegex
