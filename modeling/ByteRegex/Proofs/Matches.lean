-- What a pattern matches, apart from any way to find it: the pairs of places
-- between which a text matches the pattern. The order of preference plays no
-- part in this.
import ByteRegex.Matcher
import ByteRegex.Proofs.Utf8
import Mathlib.Tactic.Common

namespace ByteRegex

namespace Pattern

/-- To prove something of every pattern, prove it of each node from its parts. What a node looks
around for plays no part. -/
theorem induction {motive : Pattern → Prop}
    (chars : ∀ loc ranges negated, motive (.chars loc ranges negated))
    (bytes : ∀ loc ranges, motive (.bytes loc ranges))
    (seq : ∀ loc parts, (∀ p ∈ parts, motive p) → motive (.seq loc parts))
    (alt : ∀ loc parts, (∀ p ∈ parts, motive p) → motive (.alt loc parts))
    (rep : ∀ loc body min max greedy, motive body → motive (.rep loc body min max greedy))
    (anchor : ∀ loc atEnd, motive (.anchor loc atEnd))
    (wordEdge : ∀ loc negated, motive (.wordEdge loc negated))
    (empty : ∀ loc, motive (.empty loc))
    (backref : ∀ loc group, motive (.backref loc group))
    (around : ∀ loc body behind negated, motive (.around loc body behind negated))
    (p : Pattern) : motive p := by
  refine @Pattern.rec motive (fun ps => ∀ p ∈ ps, motive p) (fun _ => True)
    chars bytes seq alt rep anchor wordEdge empty backref
    (fun loc body behind negated _ => around loc body behind negated) ?_ ?_ trivial
    (fun _ _ => trivial) p
  · intro p hp
    cases hp
  · intro p ps hp hps q hq
    rcases List.mem_cons.1 hq with rfl | h
    · exact hp
    · exact hps q h

/-! ## What holds of every node -/

/-- `P` holds of every node of the tree. -/
def AllNodes (P : Pattern → Prop) (p : Pattern) : Prop := ∀ n ∈ p.nodes, P n

variable {P : Pattern → Prop}

theorem allNodes_seq {loc : Location} {parts : List Pattern} :
    AllNodes P (.seq loc parts) ↔ P (.seq loc parts) ∧ ∀ p ∈ parts, AllNodes P p := by
  simp only [AllNodes, nodes, nodesOfList_eq_flatMap, List.mem_cons, List.mem_flatMap]
  grind

theorem allNodes_alt {loc : Location} {parts : List Pattern} :
    AllNodes P (.alt loc parts) ↔ P (.alt loc parts) ∧ ∀ p ∈ parts, AllNodes P p := by
  simp only [AllNodes, nodes, nodesOfList_eq_flatMap, List.mem_cons, List.mem_flatMap]
  grind

theorem allNodes_rep {loc : Location} {body : Pattern} {min : Nat} {max : Option Nat}
    {greedy : Bool} :
    AllNodes P (.rep loc body min max greedy) ↔
      P (.rep loc body min max greedy) ∧ AllNodes P body := by
  simp only [AllNodes, nodes, List.mem_cons]
  grind

theorem AllNodes.self {p : Pattern} (h : AllNodes P p) : P p := by
  apply h p
  cases p <;> simp [nodes]

/-- No range of the tree is the wrong way round or too large, and no bounds of a repeat are. -/
def Ranged (p : Pattern) : Prop := p.AllNodes fun n => n.rangeFault? = none

/-- No bounds of a repeat in the tree are the wrong way round. -/
def Bounded (p : Pattern) : Prop := p.AllNodes fun
  | .rep _ _ min (some max) _ => min ≤ max
  | _ => True

theorem Ranged.bounded {p : Pattern} (h : p.Ranged) : p.Bounded := by
  intro n hn
  have hn := h n hn
  unfold rangeFault? at hn
  grind

/-- The tree holds no construct that no automaton can match. -/
def Supported (p : Pattern) : Prop := p.AllNodes fun n => n.construct? = none

theorem ranged_of_checkRanges {p : Pattern} (h : p.checkRanges = .ok ()) : p.Ranged := by
  unfold checkRanges at h
  split at h
  · cases h
  · rename_i hnone
    intro n hn
    simpa using List.findSome?_eq_none_iff.1 hnone n hn

theorem supported_of_checkSupported {p : Pattern} (h : p.checkSupported = .ok ()) :
    p.Supported := by
  unfold checkSupported at h
  split at h
  · cases h
  · rename_i hnone
    intro n hn
    simpa using List.findSome?_eq_none_iff.1 hnone n hn

end Pattern

/-- `k` passes of a relation between places, one after another. -/
def Passes (R : Nat → Nat → Prop) : Nat → Nat → Nat → Prop
  | 0, i, j => i = j
  | k + 1, i, j => ∃ m, R i m ∧ Passes R k m j

mutual

/-- The text from `i` to `j` matches the pattern. -/
def Matches (data : Bytes) : Pattern → Nat → Nat → Prop
  | .chars _ ranges negated, i, j =>
    ∃ c, Utf8.IsScalar c ∧ Matcher.charAllowed ranges negated c = true ∧
      Utf8.StandsAt data i (Utf8.encode c) ∧ j = i + (Utf8.encode c).length
  | .bytes _ ranges, i, j =>
    ∃ b, data[i]? = some b ∧ Matcher.byteAllowed ranges b = true ∧ j = i + 1
  | .seq _ parts, i, j => MatchesSeq data parts i j
  | .alt _ parts, i, j => MatchesAlt data parts i j
  | .rep _ body min max _, i, j =>
    ∃ k, min ≤ k ∧ (∀ m, max = some m → k ≤ m) ∧ Passes (Matches data body) k i j
  | .anchor _ atEnd, i, j => (if atEnd then i = data.size else i = 0) ∧ j = i
  | .wordEdge _ negated, i, j => (Matcher.wordEdgeAt data i != negated) = true ∧ j = i
  | .empty _, i, j => j = i
  | .backref _ _, _, _ => False
  | .around _ _ _ _, _, _ => False

/-- The text from `i` to `j` matches the patterns of a list one after another. -/
def MatchesSeq (data : Bytes) : List Pattern → Nat → Nat → Prop
  | [], i, j => j = i
  | p :: ps, i, j => ∃ m, Matches data p i m ∧ MatchesSeq data ps m j

/-- The text from `i` to `j` matches some pattern of a list. -/
def MatchesAlt (data : Bytes) : List Pattern → Nat → Nat → Prop
  | [], _, _ => False
  | p :: ps, i, j => Matches data p i j ∨ MatchesAlt data ps i j

end

variable {data : Bytes}

theorem matchesAlt_iff {ps : List Pattern} {i j : Nat} :
    MatchesAlt data ps i j ↔ ∃ p ∈ ps, Matches data p i j := by
  induction ps with
  | nil => simp [MatchesAlt]
  | cons p ps ih => simp [MatchesAlt, ih]

/-! ## Passes -/

namespace Passes

variable {R : Nat → Nat → Prop}

theorem single {i j : Nat} : Passes R 1 i j ↔ R i j := by simp [Passes]

/-- A repeat with no pass left is empty. -/
theorem none_iff {i j : Nat} :
    (∃ k, 0 ≤ k ∧ (∀ m, some 0 = some m → k ≤ m) ∧ Passes R k i j) ↔ j = i := by
  constructor
  · rintro ⟨k, _, hk, hp⟩
    obtain rfl := Nat.le_zero.1 (hk 0 rfl)
    exact (show i = j from hp).symm
  · rintro rfl
    exact ⟨0, Nat.le_refl 0, fun m _ => Nat.zero_le m, rfl⟩

/-- A pass that must be made comes first. -/
theorem must_iff {min i j : Nat} {max : Option Nat} :
    (∃ k, min + 1 ≤ k ∧ (∀ m, max.map (· + 1) = some m → k ≤ m) ∧ Passes R k i j) ↔
      ∃ y, R i y ∧ ∃ k, min ≤ k ∧ (∀ m, max = some m → k ≤ m) ∧ Passes R k y j := by
  constructor
  · rintro ⟨k, hmin, hmax, hp⟩
    obtain ⟨k, rfl⟩ := Nat.exists_eq_succ_of_ne_zero (show k ≠ 0 by omega)
    obtain ⟨y, hy, hp⟩ := hp
    refine ⟨y, hy, k, by omega, fun m hm => ?_, hp⟩
    have := hmax (m + 1) (by rw [hm]; rfl)
    omega
  · rintro ⟨y, hy, k, hmin, hmax, hp⟩
    refine ⟨k + 1, by omega, fun m hm => ?_, y, hy, hp⟩
    obtain ⟨m', hm', rfl⟩ := Option.map_eq_some_iff.1 hm
    have := hmax m' hm'
    omega

/-- A pass that may be left out is made first, or there is none. -/
theorem option_iff {top i j : Nat} :
    (∃ k, 0 ≤ k ∧ (∀ m, some (top + 1) = some m → k ≤ m) ∧ Passes R k i j) ↔
      (∃ y, R i y ∧ ∃ k, 0 ≤ k ∧ (∀ m, some top = some m → k ≤ m) ∧ Passes R k y j) ∨ j = i := by
  constructor
  · rintro ⟨_ | k, _, hmax, hp⟩
    · exact Or.inr (show i = j from hp).symm
    · obtain ⟨y, hy, hp⟩ := hp
      refine Or.inl ⟨y, hy, k, Nat.zero_le k, fun m hm => ?_, hp⟩
      obtain rfl := Option.some.inj hm
      exact Nat.le_of_succ_le_succ (hmax _ rfl)
  · rintro (⟨y, hy, k, _, hmax, hp⟩ | rfl)
    · refine ⟨k + 1, Nat.zero_le _, fun m hm => ?_, y, hy, hp⟩
      obtain rfl := Option.some.inj hm
      exact Nat.succ_le_succ (hmax top rfl)
    · exact ⟨0, Nat.le_refl 0, fun m _ => Nat.zero_le m, rfl⟩

/-- What every pass keeps, all passes keep. -/
theorem keeps {P : Nat → Prop} (hR : ∀ i j, P i → R i j → P j) {k i j : Nat} (hi : P i)
    (h : Passes R k i j) : P j := by
  induction k generalizing i with
  | zero => exact (show i = j from h) ▸ hi
  | succ k ih =>
    obtain ⟨m, hm, hk⟩ := h
    exact ih (hR i m hi hm) hk

end Passes

/-! ## Where matches end -/

namespace Matches

/-- A match ends where it starts or behind that, and within the text if it starts there. One of a
pattern that is not nullable holds a byte at least. -/
theorem bounds {p : Pattern} {i j : Nat} (h : Matches data p i j) :
    i ≤ j ∧ (i ≤ data.size → j ≤ data.size) ∧ (p.nullable = false → i < j) := by
  induction p using Pattern.induction generalizing i j with
  | chars loc ranges negated =>
    obtain ⟨c, _, _, ⟨rest, hs⟩, rfl⟩ := h
    have hpos := List.length_pos_iff.2 (Utf8.encode_ne_nil c)
    have hlen := congrArg List.length hs
    simp only [List.length_append, List.length_drop, Array.length_toList] at hlen
    refine ⟨by omega, fun _ => by omega, fun _ => by omega⟩
  | bytes loc ranges =>
    obtain ⟨b, hb, _, rfl⟩ := h
    have := (Array.getElem?_eq_some_iff.1 hb).1
    refine ⟨by omega, fun _ => by omega, fun _ => by omega⟩
  | seq loc parts ih =>
    simp only [Matches] at h
    induction parts generalizing i with
    | nil =>
      rw [show j = i from h]
      exact ⟨Nat.le_refl i, id, fun hn => by simp [Pattern.nullable, Pattern.allNullable] at hn⟩
    | cons p ps ihs =>
      obtain ⟨m, hm, hs⟩ := h
      obtain ⟨h1, h2, h3⟩ := ih p (by simp) hm
      obtain ⟨h4, h5, h6⟩ := ihs (fun q hq => ih q (by simp [hq])) hs
      refine ⟨Nat.le_trans h1 h4, fun hi => h5 (h2 hi), fun hn => ?_⟩
      simp only [Pattern.nullable, Pattern.allNullable, Bool.and_eq_false_iff] at hn
      rcases hn with hn | hn
      · exact Nat.lt_of_lt_of_le (h3 hn) h4
      · exact Nat.lt_of_le_of_lt h1 (h6 hn)
  | alt loc parts ih =>
    obtain ⟨p, hp, hm⟩ := matchesAlt_iff.1 h
    obtain ⟨h1, h2, h3⟩ := ih p hp hm
    refine ⟨h1, h2, fun hn => h3 ?_⟩
    simp only [Pattern.nullable, Pattern.anyNullable_eq_any, List.any_eq_false] at hn
    simpa using hn p hp
  | rep loc body min max greedy ih =>
    obtain ⟨k, hmin, _, hk⟩ := h
    have hle := hk.keeps (P := fun x => i ≤ x) (fun x y hx hy => Nat.le_trans hx (ih hy).1)
      (Nat.le_refl i)
    refine ⟨hle, fun hi => hk.keeps (P := fun x => x ≤ data.size)
      (fun x y hx hy => (ih hy).2.1 hx) hi, fun hn => ?_⟩
    simp only [Pattern.nullable, Bool.or_eq_false_iff, beq_eq_false_iff_ne] at hn
    obtain ⟨k, rfl⟩ := Nat.exists_eq_succ_of_ne_zero (show k ≠ 0 by omega)
    obtain ⟨m, hm, hk⟩ := hk
    exact Nat.lt_of_lt_of_le ((ih hm).2.2 hn.2)
      (hk.keeps (P := fun x => m ≤ x) (fun x y hx hy => Nat.le_trans hx (ih hy).1)
        (Nat.le_refl m))
  | anchor loc atEnd =>
    rw [h.2]
    exact ⟨Nat.le_refl i, id, fun hn => by cases hn⟩
  | wordEdge loc negated =>
    rw [h.2]
    exact ⟨Nat.le_refl i, id, fun hn => by cases hn⟩
  | empty loc =>
    rw [show j = i from h]
    exact ⟨Nat.le_refl i, id, fun hn => by cases hn⟩
  | backref loc group => exact absurd h id
  | around loc body behind negated => exact absurd h id

theorem le {p : Pattern} {i j : Nat} (h : Matches data p i j) : i ≤ j := h.bounds.1

theorem le_size {p : Pattern} {i j : Nat} (h : Matches data p i j) (hi : i ≤ data.size) :
    j ≤ data.size := h.bounds.2.1 hi

theorem lt {p : Pattern} {i j : Nat} (h : Matches data p i j) (hn : p.nullable = false) : i < j :=
  h.bounds.2.2 hn

end Matches

end ByteRegex
