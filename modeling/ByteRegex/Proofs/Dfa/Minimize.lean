-- Minimising loses nothing. While a block is still to be processed it may tell
-- members of one block from one another; at the end no block can.
import ByteRegex.Dfa.Minimize
import ByteRegex.Proofs.Dfa.Keep
import ByteRegex.Proofs.Partition

namespace ByteRegex.Dfa

open ByteRegex.Partition (Refines)

variable {d : Dfa} {p q : Partition}

/-! ## Predecessors -/

theorem mem_predecessorsFor {c s t : Nat} (ht : t < d.size) :
    s ∈ (d.predecessorsFor c).getD t [] ↔ s < d.size ∧ d.step s c = t := by
  rw [predecessorsFor, List.foldl_eq_foldr_reverse, Partition.getD_foldr_modify ht,
    List.mem_filter, List.mem_reverse, List.mem_range, decide_eq_true_eq]

theorem mem_keys {members : List Nat} (hm : ∀ t ∈ members, t < d.size) (c s : Nat) :
    s ∈ members.flatMap (fun t => (d.predecessorsFor c).getD t []) ↔
      s < d.size ∧ d.step s c ∈ members := by
  rw [List.mem_flatMap]
  constructor
  · rintro ⟨t, ht, hs⟩
    obtain ⟨h1, rfl⟩ := (mem_predecessorsFor (hm t ht)).1 hs
    exact ⟨h1, ht⟩
  · rintro ⟨hs, ht⟩
    exact ⟨_, ht, (mem_predecessorsFor (hm _ ht)).2 ⟨hs, rfl⟩⟩

/-! ## One block -/

/-- Members of one block lead into the list together. -/
def Even (d : Dfa) (members : List Nat) (c : Nat) (p : Partition) : Prop :=
  ∀ s < d.size, ∀ t < d.size, p.Same s t → (d.step s c ∈ members ↔ d.step t c ∈ members)

theorem Even.refines {members : List Nat} {c : Nat} (h : Even d members c p)
    (hpq : Refines d.size p q) : Even d members c q :=
  fun s hs t ht hst => h s hs t ht (hpq.same s hs t ht hst)

theorem refineFor_spec (hp : p.Valid d.size) {members : List Nat}
    (hm : ∀ t ∈ members, t < d.size) (c : Nat) :
    (refineFor members p (d.predecessorsFor c)).Valid d.size ∧
      Refines d.size p (refineFor members p (d.predecessorsFor c)) ∧
      Even d members c (refineFor members p (d.predecessorsFor c)) := by
  have hkeys := mem_keys hm c
  rw [refineFor]
  generalize members.flatMap (fun t => (d.predecessorsFor c).getD t []) = keys at hkeys
  have hcontains : ∀ s, (KeySet.ofList keys).contains s = true ↔ s ∈ keys :=
    fun _ => KeySet.contains_ofList
  have hover : ∀ i, i ∈ p.overlapping keys ↔ ∃ s ∈ keys, p.blockIndex s = i := fun i => by
    rw [Partition.overlapping, mem_sortUnique, List.mem_map]
  have hblocks : ∀ i ∈ p.overlapping keys, i < p.size := by
    intro i hi
    obtain ⟨s, hs, rfl⟩ := (hover i).1 hi
    exact hp.index_lt s ((hkeys s).1 hs).1
  obtain ⟨hv, href, hpure⟩ := Partition.foldl_split_spec hp hblocks (KeySet.ofList keys)
  refine ⟨hv, href, fun s hs t ht hst => ?_⟩
  have hiff : s ∈ keys ↔ t ∈ keys := by
    by_cases hmem : p.blockIndex s ∈ p.overlapping keys
    · rw [← hcontains, ← hcontains]
      exact hpure s hs t ht hmem hst
    · have hsame : p.Same s t := href.same s hs t ht hst
      refine ⟨fun hk => absurd ((hover _).2 ⟨s, hk, rfl⟩) hmem,
        fun hk => absurd ((hover _).2 ⟨t, hk, hsame.symm⟩) hmem⟩
  rw [hkeys, hkeys] at hiff
  simpa [hs, ht] using hiff

theorem foldl_refineFor_spec (hp : p.Valid d.size) {members : List Nat}
    (hm : ∀ t ∈ members, t < d.size) (cs : List Nat) :
    ((cs.map d.predecessorsFor).foldl (refineFor members) p).Valid d.size ∧
      Refines d.size p ((cs.map d.predecessorsFor).foldl (refineFor members) p) ∧
      ∀ c ∈ cs, Even d members c ((cs.map d.predecessorsFor).foldl (refineFor members) p) := by
  induction cs generalizing p with
  | nil => exact ⟨hp, Refines.refl p, fun c hc => absurd hc List.not_mem_nil⟩
  | cons c cs ih =>
    rw [List.map_cons, List.foldl_cons]
    obtain ⟨hv, href, heven⟩ := refineFor_spec hp hm c
    obtain ⟨hv', href', heven'⟩ := ih hv
    refine ⟨hv', href.trans href', fun c' hc' => ?_⟩
    rcases List.mem_cons.1 hc' with rfl | hc'
    · exact heven.refines href'
    · exact heven' c' hc'

theorem refineBy_spec (hp : p.Valid d.size) (b : Nat) :
    (refineBy d.predecessors p b).Valid d.size ∧
      Refines d.size p (refineBy d.predecessors p b) ∧
      ∀ c < d.alphaSize, Even d (p.block b) c (refineBy d.predecessors p b) := by
  have hmembers : ∀ t ∈ p.block b, t < d.size := fun t ht => ((hp.mem b t).1 ht).1
  have h := foldl_refineFor_spec hp hmembers (List.range d.alphaSize)
  rw [refineBy, predecessors, List.foldl_toArray]
  exact ⟨h.1, h.2.1, fun c hc => h.2.2 c (List.mem_range.2 hc)⟩

/-! ## All blocks -/

/-- The blocks from `b` on are still to be processed, but not the one of the states that never
accept. -/
def Pending (d : Dfa) (b i : Nat) : Prop := b ≤ i ∧ i ≠ d.acceptances.length

/-- What holds before block `b` is processed: if members of one block lead to different blocks, one
of these is still to be processed. -/
structure Refined (d : Dfa) (b : Nat) (p : Partition) : Prop where
  valid : p.Valid d.size
  refines : Refines d.size d.initialPartition p
  idle : d.acceptances.length < p.size
  split : ∀ s < d.size, ∀ t < d.size, p.Same s t → ∀ c < d.alphaSize,
    p.Same (d.step s c) (d.step t c) ∨ Pending d b (p.blockIndex (d.step s c)) ∨
      Pending d b (p.blockIndex (d.step t c))

theorem Refined.skip {b : Nat} (h : Refined d b p) (hd : d.Closed)
    (hb : b = d.acceptances.length ∨ p.size ≤ b) : Refined d (b + 1) p := by
  have hnext : ∀ s < d.size, ∀ c < d.alphaSize, Pending d b (p.blockIndex (d.step s c)) →
      Pending d (b + 1) (p.blockIndex (d.step s c)) := by
    rintro s hs c hc ⟨h1, h2⟩
    have := h.valid.index_lt _ (hd.step s hs c hc)
    exact ⟨by omega, h2⟩
  refine ⟨h.valid, h.refines, h.idle, fun s hs t ht hst c hc => ?_⟩
  rcases h.split s hs t ht hst c hc with h1 | h1 | h1
  · exact Or.inl h1
  · exact Or.inr (Or.inl (hnext s hs c hc h1))
  · exact Or.inr (Or.inr (hnext t ht c hc h1))

/-- A block that was to be processed is so still, or has been split. -/
theorem pending_of_index {b u : Nat} (hq : Refines d.size p q)
    (hidle : d.acceptances.length < p.size) (hu : u < d.size)
    (hpend : Pending d b (p.blockIndex u)) (hne : p.blockIndex u ≠ b) (hb : b < p.size) :
    Pending d (b + 1) (q.blockIndex u) := by
  obtain ⟨h1, h2⟩ := hpend
  rcases hq.index u hu with h3 | h3
  · exact ⟨by omega, by omega⟩
  · exact ⟨by omega, by omega⟩

theorem Refined.process {b : Nat} (h : Refined d b p) (hd : d.Closed) (hb : b < p.size) :
    Refined d (b + 1) (refineBy d.predecessors p b) := by
  obtain ⟨hv, href, heven⟩ := refineBy_spec h.valid b
  generalize refineBy d.predecessors p b = q at hv href heven
  refine ⟨hv, h.refines.trans href, Nat.lt_of_lt_of_le h.idle href.size_le,
    fun s hs t ht hst c hc => ?_⟩
  have hu := hd.step s hs c hc
  have hv := hd.step t ht c hc
  have hmem := heven c hc s hs t ht hst
  have hold := h.split s hs t ht (href.same s hs t ht hst) c hc
  rw [h.valid.mem, h.valid.mem] at hmem
  generalize d.step s c = u at hu hmem hold ⊢
  generalize d.step t c = v at hv hmem hold ⊢
  have hsplit : p.Same u v → q.Same u v ∨ Pending d (b + 1) (q.blockIndex u) ∨
      Pending d (b + 1) (q.blockIndex v) := by
    -- of two blocks that were one, only one has the old index
    intro huv
    have := h.idle
    rcases href.index u hu with h1 | h1
    · rcases href.index v hv with h2 | h2
      · exact Or.inl ((h1.trans huv).trans h2.symm)
      · exact Or.inr (Or.inr ⟨by omega, by omega⟩)
    · exact Or.inr (Or.inl ⟨by omega, by omega⟩)
  by_cases hub : p.blockIndex u = b
  · exact hsplit (hub.trans (hmem.1 ⟨hu, hb, hub⟩).2.2.symm)
  · have hvb : p.blockIndex v ≠ b := fun hvb => hub (hmem.2 ⟨hv, hb, hvb⟩).2.2
    rcases hold with h1 | h1 | h1
    · exact hsplit h1
    · exact Or.inr (Or.inl (pending_of_index href h.idle hu h1 hub hb))
    · exact Or.inr (Or.inr (pending_of_index href h.idle hv h1 hvb hb))

/-! ## The first partition -/

theorem foldl_dedup_spec {l seen : List Acceptance} (hn : seen.Nodup) :
    (l.foldl (fun seen a => if seen.contains a then seen else seen ++ [a]) seen).Nodup ∧
      ∀ a, a ∈ l.foldl (fun seen a => if seen.contains a then seen else seen ++ [a]) seen ↔
        a ∈ seen ∨ a ∈ l := by
  induction l generalizing seen with
  | nil => simp [hn]
  | cons b l ih =>
    rw [List.foldl_cons]
    by_cases hb : b ∈ seen
    · rw [if_pos (List.contains_iff_mem.2 hb)]
      obtain ⟨h1, h2⟩ := ih hn
      refine ⟨h1, fun a => (h2 a).trans ?_⟩
      rw [List.mem_cons]
      constructor
      · rintro (h | h)
        · exact Or.inl h
        · exact Or.inr (Or.inr h)
      · rintro (h | rfl | h)
        · exact Or.inl h
        · exact Or.inl hb
        · exact Or.inr h
    · rw [if_neg (fun h => hb (List.contains_iff_mem.1 h))]
      have hseen : (seen ++ [b]).Nodup :=
        List.nodup_append.2 ⟨hn, List.nodup_singleton b, fun x hx y hy => by
          rw [List.mem_singleton.1 hy]
          exact fun h => hb (h ▸ hx)⟩
      obtain ⟨h1, h2⟩ := ih hseen
      refine ⟨h1, fun a => (h2 a).trans ?_⟩
      rw [List.mem_append, List.mem_singleton, List.mem_cons, or_assoc]

theorem nodup_acceptances (d : Dfa) : d.acceptances.Nodup := (foldl_dedup_spec List.nodup_nil).1

theorem state_eq_getElem {s : Nat} (hs : s < d.states.size) : d.state s = d.states[s] := by
  rw [Dfa.state, Array.getD_eq_getD_getElem?, Array.getElem?_eq_getElem hs]
  rfl

theorem mem_acceptances {a : Acceptance} :
    a ∈ d.acceptances ↔ ∃ s < d.size, (d.state s).acceptance? = some a := by
  rw [acceptances, (foldl_dedup_spec List.nodup_nil).2]
  simp only [List.not_mem_nil, false_or, List.mem_filterMap]
  constructor
  · rintro ⟨st, hst, ha⟩
    obtain ⟨s, hs, rfl⟩ := Array.mem_iff_getElem.1 (Array.mem_toList_iff.1 hst)
    exact ⟨s, hs, by rw [state_eq_getElem hs, ha]⟩
  · rintro ⟨s, hs, ha⟩
    rw [state_eq_getElem hs] at ha
    exact ⟨_, Array.mem_toList_iff.2 (Array.getElem_mem hs), ha⟩

/-- The block of a state in the first partition. -/
theorem blockIndex_initial {s : Nat} (hs : s < d.size) :
    d.initialPartition.blockIndex s =
      match (d.state s).acceptance? with
      | some a => d.acceptances.idxOf a
      | none => d.acceptances.length := by
  rw [initialPartition, Partition.ofBlockOf, Partition.blockIndex]
  dsimp only
  rw [Array.getD_eq_getD_getElem?, Array.getElem?_map, Dfa.state, Array.getD_eq_getD_getElem?,
    Array.getElem?_eq_getElem hs]
  rfl

theorem initial_spec (hd : d.Closed) (h0 : (d.state 0).accept = .never) :
    d.initialPartition.Valid d.size ∧ d.initialPartition.size = d.acceptances.length + 1 := by
  have hpos : 0 < d.size := Nat.lt_of_le_of_lt (Nat.zero_le _) hd.startOther
  have hsize : (d.states.map fun s => match s.acceptance? with
      | some a => d.acceptances.idxOf a
      | none => d.acceptances.length).size = d.size := Array.size_map
  have h := Partition.ofBlockOf_valid
    (d.states.map fun s => match s.acceptance? with
      | some a => d.acceptances.idxOf a
      | none => d.acceptances.length) (m := d.acceptances.length + 1) ?_ ?_
  · rw [hsize] at h
    exact h
  · intro s hs
    rw [hsize] at hs
    have hb := blockIndex_initial hs
    rw [Partition.blockIndex] at hb
    refine hb.trans_lt ?_
    split
    · exact Nat.lt_succ_of_le List.idxOf_le_length
    · exact Nat.lt_succ_self _
  · intro i hi
    rw [hsize]
    rcases Nat.lt_succ_iff_lt_or_eq.1 hi with hi | rfl
    · obtain ⟨s, hs, ha⟩ := mem_acceptances.1 (List.getElem_mem hi)
      refine ⟨s, hs, (blockIndex_initial hs).trans ?_⟩
      rw [ha]
      exact (nodup_acceptances d).idxOf_getElem i hi
    · refine ⟨0, hpos, (blockIndex_initial hpos).trans ?_⟩
      rw [State.acceptance?, h0]
      rfl

/-- What a state shows of itself says when it accepts. -/
theorem accept_eq_of_acceptance {s t : State} (h : s.acceptance? = t.acceptance?) :
    s.accept = t.accept := by
  have hnever : ∀ st : State, ¬ st.accept.any = true → st.accept = .never := by
    intro st hany
    rw [AcceptFlags.any, bne_iff_ne, not_not] at hany
    cases hacc : st.accept
    rw [hacc] at hany
    exact congrArg AcceptFlags.mk hany
  rw [State.acceptance?, State.acceptance?] at h
  split at h <;> rename_i hs <;> split at h <;> rename_i ht
  · exact congrArg Prod.fst (Option.some.inj h)
  · cases h
  · cases h
  · rw [hnever s hs, hnever t ht]

/-- The first partition puts states together that show the same of themselves. -/
theorem initial_acceptance {s t : Nat} (hs : s < d.size) (ht : t < d.size)
    (h : d.initialPartition.Same s t) : (d.state s).acceptance? = (d.state t).acceptance? := by
  rw [Partition.Same, blockIndex_initial hs, blockIndex_initial ht] at h
  rcases h1 : (d.state s).acceptance? with _ | a <;> rcases h2 : (d.state t).acceptance? with _ | b
  · rfl
  · rw [h1, h2] at h
    have := List.idxOf_lt_length_of_mem (mem_acceptances.2 ⟨t, ht, h2⟩)
    dsimp only at h
    omega
  · rw [h1, h2] at h
    have := List.idxOf_lt_length_of_mem (mem_acceptances.2 ⟨s, hs, h1⟩)
    dsimp only at h
    omega
  · rw [h1, h2] at h
    rw [(List.idxOf_inj (mem_acceptances.2 ⟨s, hs, h1⟩)).1 h]

theorem initial_same {s t : Nat} (hs : s < d.size) (ht : t < d.size)
    (h : d.initialPartition.Same s t) : (d.state s).accept = (d.state t).accept :=
  accept_eq_of_acceptance (initial_acceptance hs ht h)

/-! ## The smaller automaton -/

theorem refinedPartition_refined (hd : d.Closed) (h0 : (d.state 0).accept = .never) :
    Refined d d.size d.refinedPartition := by
  rw [refinedPartition]
  have key : ∀ b, Refined d b ((List.range b).foldl (fun p b =>
      if b = d.acceptances.length ∨ p.size ≤ b then p else refineBy d.predecessors p b)
        d.initialPartition) := by
    intro b
    induction b with
    | zero =>
      obtain ⟨hv, hsize⟩ := initial_spec hd h0
      refine ⟨hv, Refines.refl _, by rw [List.range_zero, List.foldl_nil]; omega,
        fun s hs t ht _ c hc => ?_⟩
      by_cases hidle : d.initialPartition.blockIndex (d.step s c) = d.acceptances.length
      · by_cases hidle' : d.initialPartition.blockIndex (d.step t c) = d.acceptances.length
        · exact Or.inl (hidle.trans hidle'.symm)
        · exact Or.inr (Or.inr ⟨Nat.zero_le _, hidle'⟩)
      · exact Or.inr (Or.inl ⟨Nat.zero_le _, hidle⟩)
    | succ b ih =>
      rw [List.range_succ, List.foldl_append, List.foldl_cons, List.foldl_nil]
      split
      · rename_i hb
        exact ih.skip hd hb
      · rename_i hb
        exact ih.process hd (by omega)
  exact key d.size

/-- At the end states of one block lead to one block. -/
theorem refined_stable (h : Refined d d.size p) (hd : d.Closed) {s t : Nat} (hs : s < d.size)
    (ht : t < d.size) (hst : p.Same s t) {c : Nat} (hc : c < d.alphaSize) :
    p.Same (d.step s c) (d.step t c) := by
  have hle := h.valid.size_le
  have hnot : ∀ u < d.size, ¬ Pending d d.size (p.blockIndex u) := by
    rintro u hu ⟨h1, _⟩
    have := h.valid.index_lt u hu
    omega
  rcases h.split s hs t ht hst c hc with h1 | h1 | h1
  · exact h1
  · exact absurd h1 (hnot _ (hd.step s hs c hc))
  · exact absurd h1 (hnot _ (hd.step t ht c hc))

theorem representative_mem (hp : p.Valid d.size) {s : Nat} (hs : s < d.size) :
    representative p s ∈ p.block (p.blockIndex s) := by
  have hmem := (hp.mem (p.blockIndex s) s).2 ⟨hs, hp.index_lt s hs, rfl⟩
  rw [representative]
  cases hb : p.block (p.blockIndex s) with
  | nil =>
    rw [hb] at hmem
    cases hmem
  | cons a l => exact List.mem_cons_self

theorem representative_le (hp : p.Valid d.size) {s : Nat} (hs : s < d.size) :
    representative p s ≤ s := by
  have hmem := (hp.mem (p.blockIndex s) s).2 ⟨hs, hp.index_lt s hs, rfl⟩
  have hsorted := hp.sorted (p.blockIndex s)
  rw [representative]
  cases hb : p.block (p.blockIndex s) with
  | nil => exact Nat.zero_le s
  | cons a l =>
    rw [hb] at hmem hsorted
    rcases List.mem_cons.1 hmem with rfl | hmem
    · exact Nat.le_refl _
    · exact Nat.le_of_lt ((List.pairwise_cons.1 hsorted).1 s hmem)

theorem merge_retract (hd : d.Closed) (h : Refined d d.size p) :
    Retract d ((List.range d.size).filter fun s => representative p s == s) (representative p)
      (· < d.size) p.Same := by
  have hpos : 0 < d.size := Nat.lt_of_le_of_lt (Nat.zero_le _) hd.startOther
  have hzero : representative p 0 = 0 := Nat.le_zero.1 (representative_le h.valid hpos)
  have hrep : ∀ s < d.size, representative p s < d.size ∧ p.Same s (representative p s) := by
    intro s hs
    obtain ⟨h1, _, h3⟩ := (h.valid.mem _ _).1 (representative_mem h.valid hs)
    exact ⟨h1, h3.symm⟩
  refine ⟨List.nodup_range.filter _, filter_range_head hpos (by rw [hzero]; rfl), hzero,
    ⟨hpos, hd.startOther, hd.startWord⟩, fun s hs c hc => hd.step s hs c hc, fun s hs => ?_,
    fun s hs => ?_, fun s hs => (hrep s hs).2, fun _ _ _ => Eq.trans, fun s t hs ht hst => ?_,
    fun s t hs ht hst c hc => refined_stable h hd hs ht hst hc⟩
  · have := List.mem_range.1 (List.mem_filter.1 hs).1
    exact ⟨this, this⟩
  · refine List.mem_filter.2 ⟨List.mem_range.2 (hrep s hs).1, beq_iff_eq.2 ?_⟩
    rw [representative, ← (hrep s hs).2]
    rfl
  · exact initial_same hs ht (h.refines.same s hs t ht hst)

/-- The states of the smallest automaton take the place of those that pruning leaves. -/
theorem minimize_retract (hd : d.Closed) (hdead : d.Dead) :
    Retract d.prune
      ((List.range d.prune.size).filter fun s => representative d.prune.refinedPartition s == s)
      (representative d.prune.refinedPartition) (· < d.prune.size) d.prune.refinedPartition.Same :=
  have hprune := prune_closed hd hdead
  merge_retract hprune (refinedPartition_refined hprune (prune_dead hd hdead).accept)

/-- The smallest automaton accepts behind the same words. -/
theorem minimize_agree (hd : d.Closed) (hdead : d.Dead) :
    Machine.Agree d.alphaSize d.machine d.minimize.machine :=
  (prune_agree hd hdead).trans (minimize_retract hd hdead).agree

theorem size_keep_filter_le {P : Nat → Bool} {stand : Nat → Nat} :
    (d.keep ((List.range d.size).filter P) stand).size ≤ d.size := by
  rw [Retract.size_keep]
  exact Nat.le_trans (List.length_filter_le _ _) (Nat.le_of_eq List.length_range)

theorem minimize_size_le : d.minimize.size ≤ d.size :=
  Nat.le_trans size_keep_filter_le size_keep_filter_le

theorem minimize_closed (hd : d.Closed) (hdead : d.Dead) : d.minimize.Closed :=
  (minimize_retract hd hdead).closed

theorem minimize_dead (hd : d.Closed) (hdead : d.Dead) : d.minimize.Dead :=
  (prune_dead hd hdead).keep (minimize_retract hd hdead)

end ByteRegex.Dfa
