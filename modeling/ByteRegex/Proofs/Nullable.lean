-- Which patterns match the empty string. The flag of a tree misses no empty
-- match, and without looks it promises one at every place of every text.
import ByteRegex.Proofs.Matcher

namespace ByteRegex

namespace Pattern

/-- The node asks what stands around its place. -/
def isLook : Pattern → Bool
  | anchor _ _ => true
  | wordEdge _ _ => true
  | _ => false

/-- No node of the tree asks what stands around its place. -/
def LookFree (p : Pattern) : Prop := p.AllNodes fun n => n.isLook = false

end Pattern

variable {p : Pattern} {data : Bytes}

/-- What can be passed without moving can be passed so any number of times. -/
theorem Passes.stay {R : Nat → Nat → Prop} {i : Nat} (h : R i i) (k : Nat) : Passes R k i i := by
  induction k with
  | zero => rfl
  | succ k ih => exact ⟨i, h, ih⟩

/-- Patterns that all match the empty string at a place do so one after another. -/
theorem matchesSeq_stay {ps : List Pattern} {i : Nat} (h : ∀ p ∈ ps, Matches data p i i) :
    MatchesSeq data ps i i := by
  induction ps with
  | nil => rfl
  | cons p ps ih =>
    have hrest := ih fun q hq => h q (List.mem_cons_of_mem p hq)
    exact ⟨i, h p List.mem_cons_self, hrest⟩

/-- A pattern that matches the empty string is nullable. -/
theorem Matches.nullable {i : Nat} (h : Matches data p i i) : p.nullable = true := by
  by_contra hn
  have hlt := h.lt (Bool.eq_false_iff.2 hn)
  exact Nat.lt_irrefl i hlt

/-- A nullable pattern without looks matches the empty string at every place. -/
theorem matches_empty (hs : p.Supported) (hb : p.Bounded) (hl : p.LookFree)
    (hn : p.nullable = true) (i : Nat) : Matches data p i i := by
  induction p using Pattern.induction with
  | chars loc ranges negated => cases hn
  | bytes loc ranges => cases hn
  | seq loc parts ih =>
    have hs := (Pattern.allNodes_seq.1 hs).2
    have hb := (Pattern.allNodes_seq.1 hb).2
    have hl := (Pattern.allNodes_seq.1 hl).2
    simp only [Pattern.nullable, Pattern.allNullable_eq_all, List.all_eq_true] at hn
    exact matchesSeq_stay fun q hq => ih q hq (hs q hq) (hb q hq) (hl q hq) (hn q hq)
  | alt loc parts ih =>
    simp only [Pattern.nullable, Pattern.anyNullable_eq_any, List.any_eq_true] at hn
    obtain ⟨q, hq, hn⟩ := hn
    have hs := (Pattern.allNodes_alt.1 hs).2 q hq
    have hb := (Pattern.allNodes_alt.1 hb).2 q hq
    have hl := (Pattern.allNodes_alt.1 hl).2 q hq
    exact matchesAlt_iff.2 ⟨q, hq, ih q hq hs hb hl hn⟩
  | rep loc body min max greedy ih =>
    simp only [Pattern.nullable, Bool.or_eq_true, beq_iff_eq] at hn
    rcases hn with rfl | hn
    · exact ⟨0, Nat.le_refl 0, fun m _ => Nat.zero_le m, rfl⟩
    · obtain ⟨hbounds, hb⟩ := Pattern.allNodes_rep.1 hb
      have hbody := ih (Pattern.allNodes_rep.1 hs).2 hb (Pattern.allNodes_rep.1 hl).2 hn
      refine ⟨min, Nat.le_refl min, fun m hm => ?_, Passes.stay hbody min⟩
      subst hm
      exact hbounds
  | anchor loc atEnd => cases hl.self
  | wordEdge loc negated => cases hl.self
  | empty loc => rfl
  | backref loc group => cases hs.self
  | around loc body behind negated => cases hs.self

/-- A pattern that matches the empty string anywhere is nullable. A nullable pattern without looks
matches the empty string at every place of every text, and the matcher lists all these matches. -/
theorem nullable_exact (hs : p.Supported) (hb : p.Bounded) :
    ((∃ data i, Matches data p i i) → p.nullable = true) ∧
    (p.LookFree → p.nullable = true → ∀ data : Bytes, ∀ i ≤ data.size, Matches data p i i) ∧
    ∀ data M, Matcher.allMatches data p = some M →
      ((∃ i, ⟨i, i⟩ ∈ M) → p.nullable = true) ∧
      (p.LookFree → p.nullable = true → ∀ i ≤ data.size, ⟨i, i⟩ ∈ M) := by
  refine ⟨?_, fun hl hn data i _ => matches_empty hs hb hl hn i, fun data M hM => ?_⟩
  · rintro ⟨data, i, h⟩
    exact h.nullable
  · obtain ⟨_, hmem⟩ := Matcher.allMatches_exact hb hM
    constructor
    · rintro ⟨i, hi⟩
      obtain ⟨_, _, hm⟩ := (hmem ⟨i, i⟩).1 hi
      exact hm.nullable
    · intro hl hn i hi
      exact (hmem ⟨i, i⟩).2 ⟨Nat.le_refl i, hi, matches_empty hs hb hl hn i⟩

/-- A look may fail where it stands, and then its flag promises too much. -/
example : (Pattern.anchor none true).nullable = true ∧ ¬ Matches #[97] (.anchor none true) 0 0 :=
  ⟨rfl, fun h => absurd h.1 (by decide)⟩

theorem nullable_exact_emptyFirst : ∃ M, Matcher.emptyFirst.Supported ∧
    Matcher.emptyFirst.Bounded ∧ Matcher.emptyFirst.LookFree ∧
    Matcher.emptyFirst.nullable = true ∧ Matches #[97, 97] Matcher.emptyFirst 1 1 ∧
    Matcher.allMatches #[97, 97] Matcher.emptyFirst = some M ∧ ⟨1, 1⟩ ∈ M := by
  have hs : Matcher.emptyFirst.Supported := Pattern.supported_of_checkSupported rfl
  have hb : Matcher.emptyFirst.Bounded := Pattern.Ranged.bounded (Pattern.ranged_of_checkRanges rfl)
  have hl : Matcher.emptyFirst.LookFree := by
    intro n hn
    simp only [Matcher.emptyFirst, Pattern.nodes, Pattern.nodesOfList, List.append_nil,
      List.cons_append, List.nil_append, List.mem_cons, List.not_mem_nil, or_false] at hn
    rcases hn with rfl | rfl | rfl | rfl <;> rfl
  obtain ⟨hsound, hempty, hlisted⟩ := nullable_exact hs hb
  -- the first pass takes the empty branch, and so does the second
  have hpass : Matches #[97, 97] (.alt none [.empty none, .bytes none [(97, 97)]]) 1 1 := Or.inl rfl
  have hn := hsound ⟨#[97, 97], 1, 2, Nat.le_refl 2, by simp, Passes.stay hpass 2⟩
  obtain ⟨M, hM⟩ : ∃ M, Matcher.allMatches #[97, 97] Matcher.emptyFirst = some M := ⟨_, rfl⟩
  exact ⟨M, hs, hb, hl, hn, hempty hl hn _ 1 (by decide), hM,
    (hlisted _ M hM).2 hl hn 1 (by decide)⟩

end ByteRegex
