-- The laws of refining a partition. A split only moves members into a new last
-- block, and behind it no block mixes keys with other numbers.
import ByteRegex.Partition
import Mathlib.Data.Finset.Card
import Mathlib.Data.List.Pairwise
import Mathlib.Data.List.TakeWhile
import Mathlib.Tactic.Common

namespace ByteRegex.Partition

variable {n : Nat} {p q r : Partition} {keys : KeySet}

/-- The blocks hold each number below `n` once, in the block noted for it, and in ascending order.
No block is empty. -/
structure Valid (n : Nat) (p : Partition) : Prop where
  length : p.blockOf.size = n
  mem : ∀ i s, s ∈ p.block i ↔ s < n ∧ i < p.size ∧ p.blockIndex s = i
  index_lt : ∀ s < n, p.blockIndex s < p.size
  sorted : ∀ i, (p.block i).Pairwise (· < ·)
  occupied : ∀ i < p.size, ∃ s < n, p.blockIndex s = i

/-- The numbers are in the same block. -/
def Same (p : Partition) (s t : Nat) : Prop := p.blockIndex s = p.blockIndex t

/-- `q` is a refinement of `p`: the blocks keep their indices but may lose members to blocks that
are new. -/
structure Refines (n : Nat) (p q : Partition) : Prop where
  size_le : p.size ≤ q.size
  index : ∀ s < n, q.blockIndex s = p.blockIndex s ∨ p.size ≤ q.blockIndex s
  same : ∀ s < n, ∀ t < n, q.Same s t → p.Same s t

theorem Refines.refl (p : Partition) : Refines n p p :=
  ⟨Nat.le_refl _, fun _ _ => Or.inl rfl, fun _ _ _ _ => id⟩

theorem Refines.trans (h : Refines n p q) (h' : Refines n q r) : Refines n p r where
  size_le := Nat.le_trans h.size_le h'.size_le
  index s hs := by
    have := h.size_le
    rcases h'.index s hs with h1 | h1
    · rw [h1]
      exact h.index s hs
    · exact Or.inr (by omega)
  same s hs t ht hst := h.same s hs t ht (h'.same s hs t ht hst)

/-- There are no more blocks than numbers. -/
theorem Valid.size_le (h : p.Valid n) : p.size ≤ n := by
  have hinj : Set.InjOn (fun i => (p.block i).headD 0) (Finset.range p.size) := by
    intro i hi j hj heq
    have key : ∀ i < p.size, (p.block i).headD 0 ∈ p.block i := by
      intro i hi
      obtain ⟨s, hs, hsi⟩ := h.occupied i hi
      have hmem := (h.mem i s).2 ⟨hs, hi, hsi⟩
      cases hb : p.block i with
      | nil =>
        rw [hb] at hmem
        cases hmem
      | cons a l => exact List.mem_cons_self
    have h1 := ((h.mem i _).1 (key i (by simpa using hi))).2.2
    have h2 := ((h.mem j _).1 (key j (by simpa using hj))).2.2
    dsimp only at heq
    rw [heq, h2] at h1
    exact h1.symm
  have hmaps : ∀ i ∈ Finset.range p.size, (p.block i).headD 0 ∈ Finset.range n := by
    intro i hi
    obtain ⟨s, hs, hsi⟩ := h.occupied i (Finset.mem_range.1 hi)
    rw [Finset.mem_range]
    cases hb : p.block i with
    | nil => exact Nat.lt_of_le_of_lt (Nat.zero_le s) hs
    | cons a l => exact ((h.mem i a).1 (hb ▸ List.mem_cons_self)).1
  have := Finset.card_le_card_of_injOn _ hmaps hinj
  rwa [Finset.card_range, Finset.card_range] at this

/-! ## Splitting a block -/

theorem getD_foldl_set {l : List Nat} {v : Nat} {a : Array Nat} {s : Nat} :
    (l.foldl (fun b m => b.setIfInBounds m v) a).getD s 0 =
      if s ∈ l ∧ s < a.size then v else a.getD s 0 := by
  induction l generalizing a with
  | nil => simp
  | cons m l ih =>
    rw [List.foldl_cons, ih, Array.size_setIfInBounds, Array.getD_eq_getD_getElem?,
      Array.getElem?_setIfInBounds, Array.getD_eq_getD_getElem?]
    by_cases hm : m = s
    · subst hm
      by_cases hs : m < a.size
      · simp [hs]
      · simp [hs]
    · by_cases hl : s ∈ l ∧ s < a.size <;> simp [hm, Ne.symm hm, hl]

theorem size_foldl_set {l : List Nat} {v : Nat} {a : Array Nat} :
    (l.foldl (fun b m => b.setIfInBounds m v) a).size = a.size := by
  induction l generalizing a with
  | nil => rfl
  | cons m l ih => rw [List.foldl_cons, ih, Array.size_setIfInBounds]

/-- Keys below all members do not matter to them. -/
theorem mem_dropWhile_lt {keys : List Nat} {m x : Nat} (hx : m ≤ x) :
    x ∈ keys.dropWhile (· < m) ↔ x ∈ keys := by
  refine ⟨fun h => (List.dropWhile_suffix _).subset h, fun h => ?_⟩
  rw [← List.takeWhile_append_dropWhile (p := fun k => decide (k < m)) (l := keys),
    List.mem_append] at h
  refine h.resolve_left fun h => ?_
  have hlt := List.mem_takeWhile_imp (p := fun k => decide (k < m)) h
  rw [decide_eq_true_eq] at hlt
  omega

theorem separate_eq {members keys : List Nat} (hm : members.Pairwise (· < ·))
    (hk : keys.Pairwise (· < ·)) : separate members keys =
      (members.filter keys.contains, members.filter fun m => !keys.contains m) := by
  induction members generalizing keys with
  | nil => rfl
  | cons m members ih =>
    obtain ⟨hlt, hm⟩ := List.pairwise_cons.1 hm
    have hmem : ∀ x, m ≤ x → (x ∈ keys.dropWhile (· < m) ↔ x ∈ keys) := fun x => mem_dropWhile_lt
    have hascending := hk.sublist (List.dropWhile_sublist (· < m))
    rw [separate]
    generalize hrest : keys.dropWhile (· < m) = rest at hmem hascending
    cases rest with
    | nil =>
      have hnone : ∀ x ∈ m :: members, x ∉ keys := by
        intro x hx hxk
        have hmx : m ≤ x := by
          rcases List.mem_cons.1 hx with rfl | hx
          · exact Nat.le_refl x
          · exact Nat.le_of_lt (hlt x hx)
        exact List.not_mem_nil ((hmem x hmx).2 hxk)
      rw [List.filter_eq_nil_iff.2 (by simpa using hnone),
        List.filter_eq_self.2 (by simpa using hnone)]
    | cons k rest =>
      have hmk : m ≤ k := by
        have := List.head?_dropWhile_not (fun k => decide (k < m)) keys
        simpa [hrest] using this
      obtain ⟨hklt, _⟩ := List.pairwise_cons.1 hascending
      have hcongr : ∀ x ∈ members, (k :: rest).contains x = keys.contains x := by
        intro x hx
        rw [Bool.eq_iff_iff, List.contains_iff_mem, List.contains_iff_mem]
        exact hmem x (Nat.le_of_lt (hlt x hx))
      have hhead : keys.contains m = decide (k = m) := by
        rw [Bool.eq_iff_iff, List.contains_iff_mem, ← hmem m (Nat.le_refl m), List.mem_cons,
          decide_eq_true_eq]
        refine ⟨fun h => ?_, fun h => Or.inl h.symm⟩
        rcases h with rfl | h
        · rfl
        · have := hklt m h
          omega
      dsimp only
      rw [ih hm hascending, List.filter_congr hcongr,
        List.filter_congr fun x hx => congrArg (!·) (hcongr x hx), List.filter_cons,
        List.filter_cons, hhead]
      by_cases hkm : k = m
      · simp [hkm]
      · simp [hkm]

theorem not_mem_of_beside {members keys : List Nat} (hm : members.Pairwise (· < ·))
    (hk : keys.Pairwise (· < ·)) (h : beside members keys = true) {m : Nat} (hmem : m ∈ members) :
    m ∉ keys := by
  intro hkey
  have hne := List.ne_nil_of_mem hmem
  have hkne := List.ne_nil_of_mem hkey
  have hfirst := (hm.imp Nat.le_of_lt).rel_head hmem
  have hlast := (hm.imp Nat.le_of_lt).rel_getLast hmem
  have hleast := (hk.imp Nat.le_of_lt).rel_head hkey
  have hgreatest := (hk.imp Nat.le_of_lt).rel_getLast hkey
  rw [beside, List.head?_eq_some_head hkne, List.getLast?_eq_some_getLast hkne,
    List.getLastD_eq_getLast?, List.getLast?_eq_some_getLast hne, List.headD_eq_head?_getD,
    List.head?_eq_some_head hne] at h
  simp only [Option.getD_some, Bool.or_eq_true, decide_eq_true_eq] at h
  omega

/-- Block `i` keeps some of its members, and the others become the last block. -/
def moveOut (p : Partition) (i : Nat) (kept moved : List Nat) : Partition :=
  ⟨(p.blocks.setIfInBounds i kept).push moved,
    moved.foldl (fun b m => b.setIfInBounds m p.blocks.size) p.blockOf⟩

/-- The keys cut a block in two. -/
structure Cut (p : Partition) (i : Nat) (keys : KeySet) (kept moved : List Nat) : Prop where
  rest : kept = (p.block i).filter (· ∉ moved)
  sublist : moved.Sublist (p.block i)
  kept_ne : kept ≠ []
  moved_ne : moved ≠ []
  pure : (∀ s ∈ p.block i, s ∈ moved ↔ keys.contains s = true) ∨
    (∀ s ∈ p.block i, s ∈ moved ↔ keys.contains s = false)

/-- The members of a block that are keys. -/
def inside (p : Partition) (i : Nat) (keys : KeySet) : List Nat := (p.block i).filter keys.contains

/-- The members of a block that are no keys. -/
def outside (p : Partition) (i : Nat) (keys : KeySet) : List Nat :=
  (p.block i).filter fun m => !keys.contains m

/-- A split by its two parts: the members that are keys, and the others. -/
theorem split?_eq {i : Nat} (hb : (p.block i).Pairwise (· < ·)) : p.split? i keys =
    if p.inside i keys = [] ∨ p.outside i keys = [] then none
    else if (p.inside i keys).length < (p.outside i keys).length then
      some (p.moveOut i (p.outside i keys) (p.inside i keys))
    else some (p.moveOut i (p.inside i keys) (p.outside i keys)) := by
  have hparts : separate (p.block i) keys.keys = (p.inside i keys, p.outside i keys) :=
    separate_eq hb keys.ascending
  rw [split?, hparts]
  by_cases hbeside : beside (p.block i) keys.keys = true
  · have hnil : p.inside i keys = [] := List.filter_eq_nil_iff.2 fun m hm hk =>
      not_mem_of_beside hb keys.ascending hbeside hm (KeySet.contains_iff.1 hk)
    rw [if_pos hbeside, if_pos (Or.inl hnil)]
  · rw [if_neg hbeside]
    simp only [Bool.or_eq_true, List.isEmpty_iff, decide_eq_true_eq, moveOut]
    split
    · rfl
    · split <;> rfl

theorem split?_eq_some {i : Nat} (hb : (p.block i).Pairwise (· < ·))
    (h : p.split? i keys = some q) :
    ∃ kept moved, Cut p i keys kept moved ∧ q = p.moveOut i kept moved := by
  rw [split?_eq hb] at h
  split at h
  · cases h
  · rename_i hne
    obtain ⟨hin, hout⟩ := not_or.1 hne
    split at h
    · refine ⟨_, _, ⟨List.filter_congr fun s hs => ?_, List.filter_sublist, hout, hin,
        Or.inl fun s hs => ?_⟩, (Option.some.inj h).symm⟩
      · rw [Bool.eq_iff_iff]
        simp [hs]
      · simp [hs]
    · refine ⟨_, _, ⟨List.filter_congr fun s hs => ?_, List.filter_sublist, hin, hout,
        Or.inr fun s hs => ?_⟩, (Option.some.inj h).symm⟩
      · rw [Bool.eq_iff_iff]
        simp [hs]
      · simp [hs]

/-- Nothing is split just if the keys hold no member of the block, or all of them. -/
theorem split?_eq_none_iff {i : Nat} (hb : (p.block i).Pairwise (· < ·)) : p.split? i keys = none ↔
    (∀ s ∈ p.block i, keys.contains s = false) ∨ ∀ s ∈ p.block i, keys.contains s = true := by
  have hparts : p.inside i keys = [] ∨ p.outside i keys = [] ↔
      (∀ s ∈ p.block i, keys.contains s = false) ∨ ∀ s ∈ p.block i, keys.contains s = true := by
    rw [inside, outside, List.filter_eq_nil_iff, List.filter_eq_nil_iff]
    simp
  rw [split?_eq hb, ← hparts]
  split
  next h => exact iff_of_true rfl h
  next h =>
    refine iff_of_false (fun hnone => ?_) h
    split at hnone <;> cases hnone

section MoveOut

variable {i : Nat} {kept moved : List Nat}

theorem size_moveOut : (p.moveOut i kept moved).size = p.size + 1 := by
  rw [moveOut, size, Array.size_push, Array.size_setIfInBounds]
  rfl

theorem block_moveOut (hi : i < p.size) (j : Nat) : (p.moveOut i kept moved).block j =
    if j = p.size then moved else if j = i then kept else p.block j := by
  have hblocks : p.blocks.size = p.size := rfl
  rw [moveOut, block, Array.getD_eq_getD_getElem?, Array.getElem?_push, Array.size_setIfInBounds,
    hblocks]
  split
  · rfl
  · rw [Array.getElem?_setIfInBounds, hblocks]
    by_cases hj : i = j
    · subst hj
      rw [if_pos rfl, if_pos hi, if_pos rfl]
      rfl
    · rw [if_neg hj, if_neg (Ne.symm hj), block, Array.getD_eq_getD_getElem?]

theorem blockIndex_moveOut (h : ∀ s ∈ moved, s < p.blockOf.size) (s : Nat) :
    (p.moveOut i kept moved).blockIndex s = if s ∈ moved then p.size else p.blockIndex s := by
  rw [blockIndex, moveOut, getD_foldl_set]
  by_cases hs : s ∈ moved
  · rw [if_pos ⟨hs, h s hs⟩, if_pos hs]
    rfl
  · rw [if_neg (fun hc => hs hc.1), if_neg hs]
    rfl

namespace Cut

variable (hp : p.Valid n) (hi : i < p.size) (h : Cut p i keys kept moved)

include hp h

theorem moved_lt : ∀ s ∈ moved, s < n ∧ p.blockIndex s = i := fun s hs =>
  have hm := (hp.mem i s).1 (h.sublist.subset hs)
  ⟨hm.1, hm.2.2⟩

theorem blockIndex (s : Nat) : (p.moveOut i kept moved).blockIndex s =
    if s ∈ moved then p.size else p.blockIndex s :=
  blockIndex_moveOut (fun s hs => hp.length.symm ▸ (h.moved_lt hp s hs).1) s

theorem same_iff {s t : Nat} (hs : s < n) (ht : t < n) : (p.moveOut i kept moved).Same s t ↔
    p.Same s t ∧ (s ∈ moved ↔ t ∈ moved) := by
  have hs' := Nat.ne_of_lt (hp.index_lt s hs)
  have ht' := Nat.ne_of_lt (hp.index_lt t ht)
  rw [Same, Same, h.blockIndex hp, h.blockIndex hp]
  by_cases h1 : s ∈ moved <;> by_cases h2 : t ∈ moved
  · simp [h1, h2, (h.moved_lt hp s h1).2, (h.moved_lt hp t h2).2]
  · simp [h1, h2, ht'.symm]
  · simp [h1, h2, hs']
  · simp [h1, h2]

include hi

theorem mem (j s : Nat) : s ∈ (p.moveOut i kept moved).block j ↔
    s < n ∧ j < (p.moveOut i kept moved).size ∧ (p.moveOut i kept moved).blockIndex s = j := by
  rw [block_moveOut hi, h.blockIndex hp, size_moveOut]
  by_cases hj : j = p.size
  · rw [if_pos hj]
    refine ⟨fun hs => ⟨(h.moved_lt hp s hs).1, by omega, by rw [if_pos hs, hj]⟩, ?_⟩
    rintro ⟨hs, _, heq⟩
    by_contra hc
    rw [if_neg hc, hj] at heq
    exact Nat.ne_of_lt (hp.index_lt s hs) heq
  · rw [if_neg hj]
    by_cases hji : j = i
    · rw [if_pos hji, h.rest, List.mem_filter, hp.mem, decide_eq_true_eq]
      constructor
      · rintro ⟨⟨h1, h2, h3⟩, h4⟩
        exact ⟨h1, by omega, by rw [if_neg h4, h3, hji]⟩
      · rintro ⟨h1, h2, h3⟩
        by_cases hs : s ∈ moved
        · rw [if_pos hs] at h3
          exact absurd h3.symm hj
        · rw [if_neg hs, hji] at h3
          exact ⟨⟨h1, hi, h3⟩, hs⟩
    · rw [if_neg hji, hp.mem]
      constructor
      · rintro ⟨h1, h2, h3⟩
        refine ⟨h1, by omega, ?_⟩
        rw [if_neg (fun hs => hji (h3 ▸ (h.moved_lt hp s hs).2)), h3]
      · rintro ⟨h1, h2, h3⟩
        by_cases hs : s ∈ moved
        · rw [if_pos hs] at h3
          exact absurd h3.symm hj
        · rw [if_neg hs] at h3
          exact ⟨h1, by omega, h3⟩

omit hi in
theorem occupied {j : Nat} (hj : j < p.size + 1) :
    ∃ s < n, (p.moveOut i kept moved).blockIndex s = j := by
  rcases Nat.lt_succ_iff_lt_or_eq.1 hj with hj | rfl
  · by_cases hji : j = i
    · obtain ⟨s, hs⟩ := List.exists_mem_of_ne_nil _ h.kept_ne
      rw [h.rest, List.mem_filter, hp.mem, decide_eq_true_eq] at hs
      refine ⟨s, hs.1.1, ?_⟩
      rw [h.blockIndex hp, if_neg hs.2, hs.1.2.2, hji]
    · obtain ⟨s, hs, hsj⟩ := hp.occupied j hj
      refine ⟨s, hs, ?_⟩
      rw [h.blockIndex hp, if_neg (fun hc => hji (hsj ▸ (h.moved_lt hp s hc).2)), hsj]
  · obtain ⟨s, hs⟩ := List.exists_mem_of_ne_nil _ h.moved_ne
    exact ⟨s, (h.moved_lt hp s hs).1, by rw [h.blockIndex hp, if_pos hs]⟩

theorem valid : (p.moveOut i kept moved).Valid n where
  length := by
    rw [moveOut, size_foldl_set]
    exact hp.length
  mem := h.mem hp hi
  index_lt s hs := by
    have := hp.index_lt s hs
    rw [h.blockIndex hp, size_moveOut]
    split <;> omega
  sorted j := by
    rw [block_moveOut hi]
    split
    · exact (hp.sorted i).sublist h.sublist
    · split
      · rw [h.rest]
        exact (hp.sorted i).filter _
      · exact hp.sorted j
  occupied j hj := h.occupied hp (by rwa [size_moveOut] at hj)

omit hi in
theorem refines : Refines n p (p.moveOut i kept moved) where
  size_le := by
    rw [size_moveOut]
    exact Nat.le_succ _
  index s _ := by
    rw [h.blockIndex hp]
    split
    · exact Or.inr (Nat.le_refl _)
    · exact Or.inl rfl
  same s hs t ht hst := ((h.same_iff hp hs ht).1 hst).1

/-- Behind a split the block does not mix keys with other numbers. -/
theorem pure_iff {s t : Nat} (hs : s < n) (ht : t < n) (hsi : p.blockIndex s = i)
    (hst : (p.moveOut i kept moved).Same s t) :
    keys.contains s = true ↔ keys.contains t = true := by
  obtain ⟨hsame, hiff⟩ := (h.same_iff hp hs ht).1 hst
  have hsb : s ∈ p.block i := (hp.mem i s).2 ⟨hs, hi, hsi⟩
  have htb : t ∈ p.block i := (hp.mem i t).2 ⟨ht, hi, hsame ▸ hsi⟩
  rcases h.pure with hpure | hpure
  · rw [← hpure s hsb, ← hpure t htb]
    exact hiff
  · rw [hpure s hsb, hpure t htb] at hiff
    simpa using not_congr hiff

end Cut

end MoveOut

/-- Splitting a block leaves the others as they are. -/
theorem split_spec (hp : p.Valid n) {i : Nat} (hi : i < p.size) (keys : KeySet) :
    (p.split i keys).Valid n ∧ Refines n p (p.split i keys) ∧
      (∀ s < n, p.blockIndex s ≠ i → (p.split i keys).blockIndex s = p.blockIndex s) ∧
      ∀ s < n, ∀ t < n, p.blockIndex s = i → (p.split i keys).Same s t →
        (keys.contains s = true ↔ keys.contains t = true) := by
  rw [split]
  rcases hq : p.split? i keys with _ | q
  · refine ⟨hp, Refines.refl p, fun _ _ _ => rfl, fun s hs t ht hsi hst => ?_⟩
    have hsb : s ∈ p.block i := (hp.mem i s).2 ⟨hs, hi, hsi⟩
    have htb : t ∈ p.block i := (hp.mem i t).2 ⟨ht, hi, hst ▸ hsi⟩
    rcases (split?_eq_none_iff (hp.sorted i)).1 hq with h | h
    · rw [h s hsb, h t htb]
    · rw [h s hsb, h t htb]
  · obtain ⟨kept, moved, h, rfl⟩ := split?_eq_some (hp.sorted i) hq
    refine ⟨h.valid hp hi, h.refines hp, fun s hs hne => ?_, fun s hs t ht hsi hst =>
      h.pure_iff hp hi hs ht hsi hst⟩
    exact (h.blockIndex hp s).trans (if_neg fun hc => hne (h.moved_lt hp s hc).2)

/-- Members of one block that are both keys, or both not, stay together. -/
theorem split_same (hp : p.Valid n) {i s t : Nat} (hi : i < p.size) (hs : s < n) (ht : t < n)
    (hst : p.Same s t) (hkeys : keys.contains s = keys.contains t) : (p.split i keys).Same s t := by
  rw [split]
  rcases hq : p.split? i keys with _ | q
  · exact hst
  · obtain ⟨kept, moved, h, rfl⟩ := split?_eq_some (hp.sorted i) hq
    refine (h.same_iff hp hs ht).2 ⟨hst, ?_⟩
    by_cases hsi : p.blockIndex s = i
    · have hsb : s ∈ p.block i := (hp.mem i s).2 ⟨hs, hi, hsi⟩
      have htb : t ∈ p.block i := (hp.mem i t).2 ⟨ht, hi, hst ▸ hsi⟩
      rcases h.pure with hpure | hpure
      · rw [hpure s hsb, hpure t htb, hkeys]
      · rw [hpure s hsb, hpure t htb, hkeys]
    · exact iff_of_false (fun hm => hsi (h.moved_lt hp s hm).2)
        fun hm => hsi (hst.trans (h.moved_lt hp t hm).2)

theorem foldl_split_same (hp : p.Valid n) {blocks : List Nat} (hb : ∀ i ∈ blocks, i < p.size)
    {s t : Nat} (hs : s < n) (ht : t < n) (hst : p.Same s t)
    (hkeys : keys.contains s = keys.contains t) :
    (blocks.foldl (fun p i => p.split i keys) p).Same s t := by
  induction blocks generalizing p with
  | nil => exact hst
  | cons i rest ih =>
    have hi := hb i List.mem_cons_self
    obtain ⟨hv, href, _, _⟩ := split_spec hp hi keys
    exact ih hv (fun j hj => Nat.lt_of_lt_of_le (hb j (List.mem_cons_of_mem i hj)) href.size_le)
      (split_same hp hi hs ht hst hkeys)

/-- Splitting some blocks one after another leaves none of them with keys and other numbers. -/
theorem foldl_split_spec (hp : p.Valid n) {blocks : List Nat} (hb : ∀ i ∈ blocks, i < p.size)
    (keys : KeySet) :
    (blocks.foldl (fun p i => p.split i keys) p).Valid n ∧
      Refines n p (blocks.foldl (fun p i => p.split i keys) p) ∧
      ∀ s < n, ∀ t < n, p.blockIndex s ∈ blocks →
        (blocks.foldl (fun p i => p.split i keys) p).Same s t →
        (keys.contains s = true ↔ keys.contains t = true) := by
  induction blocks generalizing p with
  | nil => exact ⟨hp, Refines.refl p, fun _ _ _ _ h => absurd h List.not_mem_nil⟩
  | cons i rest ih =>
    obtain ⟨hv, href, hother, hpure⟩ := split_spec hp (hb i List.mem_cons_self) keys
    obtain ⟨hv', href', hpure'⟩ := ih hv fun j hj =>
      Nat.lt_of_lt_of_le (hb j (List.mem_cons_of_mem i hj)) href.size_le
    refine ⟨hv', href.trans href', fun s hs t ht hmem hst => ?_⟩
    by_cases hsi : p.blockIndex s = i
    · exact hpure s hs t ht hsi (href'.same s hs t ht hst)
    · refine hpure' s hs t ht ?_ hst
      rw [hother s hs hsi]
      exact (List.mem_cons.1 hmem).resolve_left hsi

/-! ## The first partition -/

theorem le_foldl_max {l : List Nat} {k b : Nat} (h : b + 1 ≤ k ∨ b ∈ l) :
    b + 1 ≤ l.foldl (fun m b => max m (b + 1)) k := by
  induction l generalizing k with
  | nil => exact h.resolve_right List.not_mem_nil
  | cons a l ih =>
    rw [List.foldl_cons]
    refine ih ?_
    rcases h with h | h
    · exact Or.inl (by omega)
    · rcases List.mem_cons.1 h with rfl | h
      · exact Or.inl (Nat.le_max_right _ _)
      · exact Or.inr h

theorem foldl_max_le {l : List Nat} {k m : Nat} (hk : k ≤ m) (h : ∀ b ∈ l, b < m) :
    l.foldl (fun m b => max m (b + 1)) k ≤ m := by
  induction l generalizing k with
  | nil => exact hk
  | cons a l ih =>
    rw [List.foldl_cons]
    have := h a List.mem_cons_self
    exact ih (by omega) fun b hb => h b (List.mem_cons_of_mem a hb)

theorem size_foldr_modify {α : Type} {l : List Nat} {f : Nat → Nat} {g : Nat → α → α}
    {a : Array α} : (l.foldr (fun i a => a.modify (f i) (g i)) a).size = a.size := by
  induction l with
  | nil => rfl
  | cons i l ih => rw [List.foldr_cons, Array.size_modify, ih]

theorem getD_foldr_modify {l : List Nat} {f : Nat → Nat} {m j : Nat} (hj : j < m) :
    (l.foldr (fun i a => a.modify (f i) (i :: ·)) (Array.replicate m [])).getD j []
      = l.filter (f · = j) := by
  induction l with
  | nil => simp [Array.getD_eq_getD_getElem?, hj]
  | cons i l ih =>
    rw [Array.getD_eq_getD_getElem?] at ih
    rw [List.foldr_cons, Array.getD_eq_getD_getElem?, Array.getElem?_modify, List.filter_cons, ← ih]
    by_cases hi : f i = j
    · have hlt : j <
          (l.foldr (fun i a => a.modify (f i) (i :: ·)) (Array.replicate m [])).size := by
        rw [size_foldr_modify, Array.size_replicate]
        exact hj
      simp [hi, Array.getElem?_eq_getElem hlt]
    · simp [hi]

/-- A partition is valid if all blocks up to the last one have members. -/
theorem ofBlockOf_valid (blockOf : Array Nat) {m : Nat}
    (hlt : ∀ s < blockOf.size, blockOf.getD s 0 < m)
    (hocc : ∀ i < m, ∃ s < blockOf.size, blockOf.getD s 0 = i) :
    (ofBlockOf blockOf).Valid blockOf.size ∧ (ofBlockOf blockOf).size = m := by
  have hmem : ∀ b ∈ blockOf.toList, b < m := by
    intro b hb
    obtain ⟨s, hs, rfl⟩ := List.getElem_of_mem hb
    have hs' : s < blockOf.size := by simpa using hs
    have := hlt s hs'
    rw [Array.getD_eq_getD_getElem?, Array.getElem?_eq_getElem hs'] at this
    simpa using this
  have hcount : blockOf.foldl (fun m b => max m (b + 1)) 0 = m := by
    rw [← Array.foldl_toList]
    refine Nat.le_antisymm (foldl_max_le (Nat.zero_le m) hmem) ?_
    rcases Nat.eq_zero_or_pos m with rfl | hm
    · exact Nat.zero_le _
    · obtain ⟨s, hs, heq⟩ := hocc (m - 1) (by omega)
      have hin : m - 1 ∈ blockOf.toList := by
        rw [← heq, Array.getD_eq_getD_getElem?, Array.getElem?_eq_getElem hs]
        simp
      have := le_foldl_max (k := 0) (Or.inr hin)
      omega
  have hsize : (ofBlockOf blockOf).size = m := by
    rw [ofBlockOf, size]
    dsimp only
    rw [size_foldr_modify, Array.size_replicate, hcount]
  have hblock : ∀ j < m, (ofBlockOf blockOf).block j =
      (List.range blockOf.size).filter fun s => (blockOf.getD s 0 = j : Bool) := by
    intro j hj
    rw [ofBlockOf, block]
    dsimp only
    rw [hcount, getD_foldr_modify hj]
  have hempty : ∀ j, ¬ j < m → (ofBlockOf blockOf).block j = [] := by
    intro j hj
    rw [block, Array.getD_eq_getD_getElem?, Array.getElem?_eq_none]
    · rfl
    · have : (ofBlockOf blockOf).blocks.size = m := hsize
      omega
  refine ⟨⟨rfl, fun j s => ?_, fun s hs => ?_, fun j => ?_, fun j hj => ?_⟩, hsize⟩
  · rw [hsize]
    by_cases hj : j < m
    · rw [hblock j hj, List.mem_filter, List.mem_range, decide_eq_true_eq]
      exact ⟨fun ⟨h1, h2⟩ => ⟨h1, hj, h2⟩, fun ⟨h1, _, h2⟩ => ⟨h1, h2⟩⟩
    · rw [hempty j hj]
      exact ⟨fun h => absurd h List.not_mem_nil, fun h => absurd h.2.1 hj⟩
  · rw [hsize]
    exact hlt s hs
  · by_cases hj : j < m
    · rw [hblock j hj]
      exact List.pairwise_lt_range.filter _
    · rw [hempty j hj]
      exact List.Pairwise.nil
  · rw [hsize] at hj
    exact hocc j hj

end ByteRegex.Partition
