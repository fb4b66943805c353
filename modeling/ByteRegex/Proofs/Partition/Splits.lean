-- What any number of splits keeps. The blocks always share out the numbers, and
-- each split cuts one block in two and touches no other.
import ByteRegex.Proofs.Partition

namespace ByteRegex.Partition

variable {n i : Nat} {p q : Partition} {keys : KeySet} {blockOf : Array Nat}

/-- The blocks share out the numbers below `n`, and each number is noted with its block. -/
structure Shares (n : Nat) (p : Partition) : Prop where
  nonempty : ∀ i < p.size, p.block i ≠ []
  ascending : ∀ i < p.size, (p.block i).Pairwise (· < ·)
  disjoint : ∀ i < p.size, ∀ j < p.size, i ≠ j → (p.block i).Disjoint (p.block j)
  cover : ∀ s, s < n ↔ ∃ i < p.size, s ∈ p.block i
  named : ∀ i < p.size, ∀ s ∈ p.block i, p.blockIndex s = i

theorem Valid.shares (h : p.Valid n) : p.Shares n where
  nonempty i hi := by
    obtain ⟨s, hs, hsi⟩ := h.occupied i hi
    exact List.ne_nil_of_mem ((h.mem i s).2 ⟨hs, hi, hsi⟩)
  ascending i _ := h.sorted i
  disjoint i _ j _ hij s hsi hsj :=
    hij (((h.mem i s).1 hsi).2.2.symm.trans ((h.mem j s).1 hsj).2.2)
  cover s := by
    constructor
    · intro hs
      exact ⟨p.blockIndex s, h.index_lt s hs, (h.mem _ s).2 ⟨hs, h.index_lt s hs, rfl⟩⟩
    · rintro ⟨i, _, hs⟩
      exact ((h.mem i s).1 hs).1
  named i _ s hs := ((h.mem i s).1 hs).2.2

/-! ## The first partition -/

/-- Each number up to the largest one in use names a block. -/
def Dense (blockOf : Array Nat) : Prop := ∀ b ∈ blockOf, ∀ c < b, c ∈ blockOf

theorem exists_of_lt_foldl_max {l : List Nat} {k i : Nat}
    (h : i < l.foldl (fun m b => max m (b + 1)) k) : i < k ∨ ∃ b ∈ l, i ≤ b := by
  induction l generalizing k with
  | nil => exact Or.inl h
  | cons a l ih =>
    rcases ih h with hi | ⟨b, hb, hi⟩
    · rcases lt_max_iff.1 hi with hk | ha
      · exact Or.inl hk
      · exact Or.inr ⟨a, List.mem_cons_self, Nat.le_of_lt_succ ha⟩
    · exact Or.inr ⟨b, List.mem_cons_of_mem a hb, hi⟩

theorem Dense.valid (h : Dense blockOf) : (ofBlockOf blockOf).Valid blockOf.size := by
  have hget : ∀ s (hs : s < blockOf.size), blockOf.getD s 0 = blockOf[s] := fun s hs => by
    rw [Array.getD_eq_getD_getElem?, Array.getElem?_eq_getElem hs, Option.getD_some]
  refine (ofBlockOf_valid blockOf (m := blockOf.toList.foldl (fun m b => max m (b + 1)) 0)
    (fun s hs => ?_) fun i hi => ?_).1
  · rw [hget s hs]
    exact le_foldl_max (Or.inr (Array.getElem_mem_toList hs))
  · have hmem : i ∈ blockOf := by
      rcases exists_of_lt_foldl_max hi with hi | ⟨b, hb, hib⟩
      · cases hi
      · rcases Nat.lt_or_eq_of_le hib with hib | rfl
        · exact h b (Array.mem_def.2 hb) i hib
        · exact Array.mem_def.2 hb
    obtain ⟨s, hs, rfl⟩ := Array.getElem_of_mem hmem
    exact ⟨s, hs, hget s hs⟩

/-! ## Splits one after another -/

/-- The partitions that splits lead to, whatever blocks they are asked for and by whatever keys. -/
inductive Splits (blockOf : Array Nat) : Partition → Prop
  | start : Splits blockOf (ofBlockOf blockOf)
  | split {p : Partition} {i : Nat} (h : Splits blockOf p) (hi : i < p.size) (keys : KeySet) :
      Splits blockOf (p.split i keys)

/-- Splits never join what the first partition tells apart. -/
theorem Splits.valid (hd : Dense blockOf) (h : Splits blockOf p) :
    p.Valid blockOf.size ∧ Refines blockOf.size (ofBlockOf blockOf) p := by
  induction h with
  | start => exact ⟨hd.valid, Refines.refl _⟩
  | split _ hi keys ih =>
    obtain ⟨hv, href, _, _⟩ := split_spec ih.1 hi keys
    exact ⟨hv, ih.2.trans href⟩

/-- Block `i` is replaced by its two parts. The larger one keeps the index, the members that are
keys if none is larger, and the other one becomes a new last block. -/
structure SplitsInto (p : Partition) (i : Nat) (keys : KeySet) (q : Partition) : Prop where
  size : q.size = p.size + 1
  parts : if (p.outside i keys).length ≤ (p.inside i keys).length
    then q.block i = p.inside i keys ∧ q.block p.size = p.outside i keys
    else q.block i = p.outside i keys ∧ q.block p.size = p.inside i keys
  others : ∀ j < p.size, j ≠ i → q.block j = p.block j

theorem splitsInto (hp : p.Valid n) (hi : i < p.size) (h : p.split? i keys = some q) :
    p.SplitsInto i keys q := by
  have hblock : ∀ kept moved j, j < p.size → j ≠ i →
      (p.moveOut i kept moved).block j = p.block j := fun kept moved j hj hji => by
    rw [block_moveOut hi, if_neg (Nat.ne_of_lt hj), if_neg hji]
  have hkept : ∀ kept moved, (p.moveOut i kept moved).block i = kept ∧
      (p.moveOut i kept moved).block p.size = moved := fun kept moved => by
    rw [block_moveOut hi, block_moveOut hi, if_neg (Nat.ne_of_lt hi), if_pos rfl, if_pos rfl]
    exact ⟨rfl, rfl⟩
  rw [split?_eq (hp.sorted i)] at h
  split at h
  · cases h
  · split at h
    next hlt =>
      obtain rfl := Option.some.inj h
      refine ⟨size_moveOut, ?_, hblock _ _⟩
      rw [if_neg (Nat.not_le.2 hlt)]
      exact hkept _ _
    next hge =>
      obtain rfl := Option.some.inj h
      refine ⟨size_moveOut, ?_, hblock _ _⟩
      rw [if_pos (Nat.not_lt.1 hge)]
      exact hkept _ _

theorem mem_overlapping (hp : p.Valid n) {keys : List Nat} (hkeys : ∀ k ∈ keys, k < n) :
    i ∈ p.overlapping keys ↔ i < p.size ∧ ∃ s ∈ p.block i, s ∈ keys := by
  rw [overlapping, mem_sortUnique, List.mem_map]
  constructor
  · rintro ⟨s, hs, rfl⟩
    have hlt := hp.index_lt s (hkeys s hs)
    exact ⟨hlt, s, (hp.mem _ s).2 ⟨hkeys s hs, hlt, rfl⟩, hs⟩
  · rintro ⟨_, s, hs, hk⟩
    exact ⟨s, hk, ((hp.mem i s).1 hs).2.2⟩

/-- After any splits the blocks share out the numbers, and refine the blocks of the start. A split
of a block changes nothing just if the keys hold none of its members or all of them, and otherwise
cuts it in two. The blocks that some keys overlap are listed in ascending order. -/
theorem splits_kept (hd : Dense blockOf) (h : Splits blockOf p) :
    p.Shares blockOf.size ∧ Refines blockOf.size (ofBlockOf blockOf) p ∧
    (∀ i < p.size, ∀ keys : KeySet,
      (p.split? i keys = none ↔ (∀ s ∈ p.block i, keys.contains s = false) ∨
        ∀ s ∈ p.block i, keys.contains s = true) ∧
      (p.split? i keys = none → p.split i keys = p) ∧
      ∀ q, p.split? i keys = some q → p.split i keys = q ∧ p.SplitsInto i keys q) ∧
    ∀ keys : List Nat, (∀ k ∈ keys, k < blockOf.size) →
      (p.overlapping keys).Pairwise (· < ·) ∧
      ∀ i, i ∈ p.overlapping keys ↔ i < p.size ∧ ∃ s ∈ p.block i, s ∈ keys := by
  obtain ⟨hv, href⟩ := h.valid hd
  refine ⟨hv.shares, href, fun i hi keys => ⟨split?_eq_none_iff (hv.sorted i), fun hnone => ?_,
    fun q hq => ⟨?_, splitsInto hv hi hq⟩⟩, fun keys hkeys => ⟨pairwise_sortUnique _,
    fun i => mem_overlapping hv hkeys⟩⟩
  · rw [split, hnone, Option.getD_none]
  · rw [split, hq, Option.getD_some]

/-- Six numbers in two blocks. -/
def twoBlocks : Array Nat := #[0, 1, 0, 0, 1, 0]

/-- Keys with a member in each block. -/
def evens : KeySet := ⟨[0, 2, 4], by decide⟩

/-- Both parts of the first block have two members, and the keys keep the index. -/
theorem splits_kept_evens : Dense twoBlocks ∧
    Splits twoBlocks ((ofBlockOf twoBlocks).split 0 evens) ∧
    ((ofBlockOf twoBlocks).split 0 evens).block 0 = [0, 2] ∧
    ((ofBlockOf twoBlocks).split 0 evens).block 2 = [3, 5] ∧
    ((ofBlockOf twoBlocks).split 0 evens).split? 0 evens = none ∧
    2 ∈ ((ofBlockOf twoBlocks).split 0 evens).overlapping [5] := by
  have hdense : Dense twoBlocks := by
    intro b hb c hc
    have hlt : b < 2 := (by decide : ∀ b ∈ twoBlocks, b < 2) b hb
    obtain rfl : c = 0 := by omega
    simp [twoBlocks]
  have hsplits : Splits twoBlocks ((ofBlockOf twoBlocks).split 0 evens) :=
    .split .start (by decide) evens
  have hfirst : ((ofBlockOf twoBlocks).split 0 evens).block 0 = [0, 2] := by decide
  have hlast : ((ofBlockOf twoBlocks).split 0 evens).block 2 = [3, 5] := by decide
  obtain ⟨_, _, hsplit, hover⟩ := splits_kept hdense hsplits
  refine ⟨hdense, hsplits, hfirst, hlast, (hsplit 0 (by decide) evens).1.2 (Or.inr ?_),
    ((hover [5] (by decide)).2 2).2 ⟨by decide, 5, ?_, by decide⟩⟩
  · rw [hfirst]
    decide
  · rw [hlast]
    decide

end ByteRegex.Partition
