-- Minimising makes the smallest automaton. Blocks are split only where a word
-- tells their members apart, so that no two states that are left do the same,
-- and there is nothing more to drop or to merge.
import ByteRegex.Proofs.Dfa.Acceptance

namespace ByteRegex.Dfa

/-- The word leads from the two states to states that accept differently. -/
def Parts (d : Dfa) (w : List Nat) (s t : Nat) : Prop :=
  ¬ (d.state (d.run s w)).AcceptsAs (d.state (d.run t w))

/-- Some word of classes tells the states apart. -/
def Differ (d : Dfa) (s t : Nat) : Prop :=
  ∃ w : List Nat, (∀ c ∈ w, c < d.alphaSize) ∧ d.Parts w s t

/-- Some word of classes leads to the state from one of the starts. -/
def Met (d : Dfa) (s : Nat) : Prop :=
  ∃ w : List Nat, (∀ c ∈ w, c < d.alphaSize) ∧ (d.run d.startOther w = s ∨ d.run d.startWord w = s)

/-- Each state has one successor for each class, and the first state leads only to itself. It may
accept. -/
structure Absorbing (d : Dfa) : Prop extends d.Closed where
  width : ∀ s < d.size, (d.state s).next.size = d.alphaSize
  zero : ∀ c < d.alphaSize, d.step 0 c = 0

/-- The state is the first one, or it is met. -/
def Kept (d : Dfa) (s : Nat) : Prop := s = 0 ∨ d.Met s

/-- Every state but the dead one is met from a start, and any two states differ. -/
structure Minimal (d : Dfa) : Prop where
  met : ∀ s < d.size, s ≠ 0 → d.Met s
  differ : ∀ s < d.size, ∀ t < d.size, s ≠ t → d.Differ s t

variable {d : Dfa} {p : Partition} {s t : Nat}

theorem Complete.absorbing (hd : d.Complete) : d.Absorbing := ⟨hd.toClosed, hd.width, hd.dead.step⟩

/-! ## States that differ -/

theorem State.AcceptsAs.symm {s t : State} (h : s.AcceptsAs t) : t.AcceptsAs s :=
  ⟨h.accept.symm, fun ht => (h.priority (h.accept ▸ ht)).symm⟩

/-- States that accept alike show the same of themselves. -/
theorem State.AcceptsAs.acceptance {s t : State} (h : s.AcceptsAs t) :
    s.acceptance? = t.acceptance? := by
  unfold State.acceptance?
  rw [← h.accept]
  split
  · rw [h.priority ‹_›]
  · rfl

theorem Differ.symm (h : d.Differ s t) : d.Differ t s := by
  obtain ⟨w, hw, hparts⟩ := h
  exact ⟨w, hw, fun hts => hparts hts.symm⟩

/-- States differ if their successors do. -/
theorem Differ.of_step {c : Nat} (hc : c < d.alphaSize) (h : d.Differ (d.step s c) (d.step t c)) :
    d.Differ s t := by
  obtain ⟨w, hw, hparts⟩ := h
  refine ⟨c :: w, fun c' hc' => ?_, hparts⟩
  rcases List.mem_cons.1 hc' with rfl | hc'
  · exact hc
  · exact hw c' hc'

/-! ## Blocks are only split where states differ -/

/-- States that do not share a block differ. -/
structure Coarse (d : Dfa) (p : Partition) : Prop where
  valid : p.Valid d.size
  differ : ∀ s < d.size, ∀ t < d.size, p.Same s t ∨ d.Differ s t

theorem initial_coarse (hd : d.Closed) (h0 : (d.state 0).accept = .never) :
    Coarse d d.initialPartition := by
  refine ⟨(initial_spec hd h0).1, fun s hs t ht => ?_⟩
  by_cases haccept : (d.state s).AcceptsAs (d.state t)
  · left
    rw [Partition.Same, blockIndex_initial hs, blockIndex_initial ht, haccept.acceptance]
  · exact Or.inr ⟨[], by simp, haccept⟩

/-- States that lead into the list together stay together. -/
theorem refineFor_same (hp : p.Valid d.size) {members : List Nat} (hm : ∀ u ∈ members, u < d.size)
    {c : Nat} (hs : s < d.size) (ht : t < d.size) (hst : p.Same s t)
    (hiff : d.step s c ∈ members ↔ d.step t c ∈ members) :
    (refineFor members p (d.predecessorsFor c)).Same s t := by
  have hkeys := mem_keys hm c
  unfold refineFor
  generalize members.flatMap (fun u => (d.predecessorsFor c).getD u []) = keys at hkeys
  have hcontains : ∀ u, (KeySet.ofList keys).contains u = true ↔ u ∈ keys :=
    fun _ => KeySet.contains_ofList
  apply Partition.foldl_split_same hp _ hs ht hst
  · rw [Bool.eq_iff_iff, hcontains, hcontains, hkeys, hkeys]
    simpa [hs, ht] using hiff
  · intro i hi
    rw [Partition.overlapping, mem_sortUnique] at hi
    obtain ⟨u, hu, rfl⟩ := List.mem_map.1 hi
    exact hp.index_lt u ((hkeys u).1 hu).1

theorem Coarse.refineFor (h : Coarse d p) {members : List Nat} (hm : ∀ u ∈ members, u < d.size)
    (hout : ∀ u ∈ members, ∀ v < d.size, v ∉ members → d.Differ u v) (hd : d.Closed) {c : Nat}
    (hc : c < d.alphaSize) : Coarse d (refineFor members p (d.predecessorsFor c)) := by
  refine ⟨(refineFor_spec h.valid hm c).1, fun s hs t ht => ?_⟩
  have hs' := hd.step s hs c hc
  have ht' := hd.step t ht c hc
  rcases h.differ s hs t ht with hst | hdiffer
  · by_cases hsm : d.step s c ∈ members <;> by_cases htm : d.step t c ∈ members
    · exact Or.inl (refineFor_same h.valid hm hs ht hst (iff_of_true hsm htm))
    · exact Or.inr (.of_step hc (hout _ hsm _ ht' htm))
    · exact Or.inr (Differ.of_step hc (hout _ htm _ hs' hsm)).symm
    · exact Or.inl (refineFor_same h.valid hm hs ht hst (iff_of_false hsm htm))
  · exact Or.inr hdiffer

theorem Coarse.foldl_refineFor (h : Coarse d p) {members : List Nat}
    (hm : ∀ u ∈ members, u < d.size)
    (hout : ∀ u ∈ members, ∀ v < d.size, v ∉ members → d.Differ u v) (hd : d.Closed)
    {cs : List Nat} (hcs : ∀ c ∈ cs, c < d.alphaSize) :
    Coarse d ((cs.map d.predecessorsFor).foldl (Dfa.refineFor members) p) := by
  induction cs generalizing p with
  | nil => exact h
  | cons c cs ih =>
    exact ih (h.refineFor hm hout hd (hcs c List.mem_cons_self)) fun c' hc' =>
      hcs c' (List.mem_cons_of_mem c hc')

theorem Coarse.refineBy (h : Coarse d p) (hd : d.Closed) (b : Nat) :
    Coarse d (refineBy d.predecessors p b) := by
  unfold Dfa.refineBy predecessors
  rw [List.foldl_toArray]
  refine h.foldl_refineFor (fun u hu => ((h.valid.mem b u).1 hu).1) (fun u hu v hv hvb => ?_) hd
    fun c hc => List.mem_range.1 hc
  -- a block that was there before holds only some of the states that share no block with `v`
  obtain ⟨hud, hb, hub⟩ := (h.valid.mem b u).1 hu
  refine (h.differ u hud v hv).resolve_left fun huv => hvb ?_
  exact (h.valid.mem b v).2 ⟨hv, hb, huv.symm.trans hub⟩

theorem refinedPartition_coarse (hd : d.Closed) (h0 : (d.state 0).accept = .never) :
    Coarse d d.refinedPartition := by
  unfold refinedPartition
  generalize List.range d.size = bs
  have h := initial_coarse hd h0
  generalize d.initialPartition = p at h
  induction bs generalizing p with
  | nil => exact h
  | cons b bs ih =>
    rw [List.foldl_cons]
    apply ih
    split
    · exact h
    · exact h.refineBy hd b

/-! ## What pruning and merging leave -/

namespace Retract

variable {kept : List Nat} {stand : Nat → Nat} {Live : Nat → Prop} {E : Nat → Nat → Prop}

/-- A kept state that stands for itself has its place as its number. -/
theorem index_kept (h : Retract d kept stand Live E) {i u : Nat} (hi : kept[i]? = some u)
    (hu : stand u = u) : index d kept stand u = i := by
  unfold index
  rw [hu]
  exact getD_ranks h.nodup (fun v hv => (h.live_kept v hv).1) hi

theorem differ (h : Retract d kept stand Live E)
    (hE : ∀ s t, Live s → Live t → E s t → (d.state s).AcceptsAs (d.state t))
    (hself : ∀ u ∈ kept, stand u = u) {i j u v : Nat} (hi : kept[i]? = some u)
    (hj : kept[j]? = some v) (huv : d.Differ u v) : (d.keep kept stand).Differ i j := by
  obtain ⟨w, hw, hparts⟩ := huv
  have hu := List.mem_of_getElem? hi
  have hv := List.mem_of_getElem? hj
  have hleft := h.acceptsAs_run hE (h.live_kept u hu).2 hw
  have hright := h.acceptsAs_run hE (h.live_kept v hv).2 hw
  rw [h.index_kept hi (hself u hu)] at hleft
  rw [h.index_kept hj (hself v hv)] at hright
  exact ⟨w, hw, fun hij => hparts ((hleft.trans hij).trans hright.symm)⟩

/-- A run from a live state to a kept state ends at the place of that state. -/
theorem run_kept (h : Retract d kept stand Live E)
    (hone : ∀ u ∈ kept, ∀ v ∈ kept, E u v → u = v) {i u : Nat} {w : List Nat} (hs : Live s)
    (hw : ∀ c ∈ w, c < d.alphaSize) (hi : kept[i]? = some u) (hrun : d.run s w = u) :
    (d.keep kept stand).run (index d kept stand s) w = i := by
  obtain ⟨_, v, hv, hrel⟩ := h.rel_run hs (h.index_spec hs) (h.stand_rel s hs) hw
  rw [hrun] at hrel
  obtain rfl := hone u (List.mem_of_getElem? hi) v (List.mem_of_getElem? hv) hrel
  have hlt := (List.getElem?_eq_some_iff.1 hv).1
  exact (List.getElem?_inj hlt h.nodup).1 (hv.trans hi.symm)

theorem met (h : Retract d kept stand Live E) (hone : ∀ u ∈ kept, ∀ v ∈ kept, E u v → u = v)
    {i u : Nat} (hi : kept[i]? = some u) (hu : d.Met u) : (d.keep kept stand).Met i := by
  obtain ⟨w, hw, hrun | hrun⟩ := hu
  · exact ⟨w, hw, Or.inl (h.run_kept hone h.live_start.2.1 hw hi hrun)⟩
  · exact ⟨w, hw, Or.inr (h.run_kept hone h.live_start.2.2 hw hi hrun)⟩

end Retract

theorem run_append (d : Dfa) (s : Nat) (w w' : List Nat) :
    d.run s (w ++ w') = d.run (d.run s w) w' := List.foldl_append

/-- What a walk over the successors reaches, a run reaches. -/
theorem exists_run (hd : d.Absorbing) (hs : s < d.size) (h : Walk.Reach d.successors s t) :
    t < d.size ∧ ∃ w : List Nat, (∀ c ∈ w, c < d.alphaSize) ∧ d.run s w = t := by
  induction h with
  | refl => exact ⟨hs, [], by simp, rfl⟩
  | @tail u v _ hv ih =>
    obtain ⟨hu, w, hw, hrun⟩ := ih
    unfold successors at hv
    split at hv
    · cases hv
    · obtain ⟨c, hc, hnext⟩ := List.getElem_of_mem hv
      rw [Array.length_toList] at hc
      have hstep : d.step u c = v := by
        rw [step, Array.getD_eq_getD_getElem?, Array.getElem?_eq_getElem hc, ← hnext]
        rfl
      rw [hd.width u hu] at hc
      refine ⟨hstep ▸ hd.step u hu c hc, w ++ [c], fun c' hc' => ?_, ?_⟩
      · rcases List.mem_append.1 hc' with hc' | hc'
        · exact hw c' hc'
        · exact List.mem_singleton.1 hc' ▸ hc
      · rw [run_append, hrun]
        exact hstep

/-- No walk leads on from the dead state. -/
theorem eq_zero_of_reach (h : Walk.Reach d.successors 0 t) : t = 0 := by
  rcases Relation.ReflTransGen.cases_head h with rfl | ⟨u, hu, _⟩
  · rfl
  · cases hu

/-- The walk of a pruning reaches the first state and what is met, and nothing else. -/
theorem reached_iff_kept (hd : d.Absorbing) :
    (s < d.size ∧
      (Walk.reachable d.successors d.size [0, d.startOther, d.startWord]).contains s = true) ↔
        d.Kept s := by
  have hretract := prune_retract hd.toClosed hd.zero
  constructor
  · rintro ⟨_, hreached⟩
    obtain ⟨start, hstart, hreach⟩ := Walk.exists_start_of_reachable hreached
    simp only [List.mem_cons, List.not_mem_nil, or_false] at hstart
    rcases hstart with rfl | rfl | rfl
    · exact Or.inl (eq_zero_of_reach hreach)
    · obtain ⟨_, w, hw, hrun⟩ := exists_run hd hd.startOther hreach
      exact Or.inr ⟨w, hw, Or.inl hrun⟩
    · obtain ⟨_, w, hw, hrun⟩ := exists_run hd hd.startWord hreach
      exact Or.inr ⟨w, hw, Or.inr hrun⟩
  · rintro (rfl | ⟨w, hw, rfl | rfl⟩)
    · exact hretract.live_start.1
    · exact hretract.live_run hretract.live_start.2.1 hw
    · exact hretract.live_run hretract.live_start.2.2 hw

/-- Pruning leaves no state that is not met, apart from the dead one. -/
theorem prune_met (hd : d.Complete) : ∀ i < d.prune.size, i ≠ 0 → d.prune.Met i := by
  intro i hi hne
  have hretract := prune_retract hd.toClosed hd.dead.step
  unfold prune at hi ⊢
  rw [Retract.size_keep] at hi
  have hu := List.getElem?_eq_getElem hi
  generalize ((List.range d.size).filter
    (Walk.reachable d.successors d.size [0, d.startOther, d.startWord]).contains)[i] = u at hu
  apply hretract.met (fun _ _ _ _ => id) hu
  have hlive := hretract.live_kept u (List.mem_of_getElem? hu)
  refine ((reached_iff_kept hd.absorbing).1 hlive.2).resolve_left ?_
  rintro rfl
  exact hne ((List.getElem?_inj hi hretract.nodup).1 (hu.trans hretract.zero.symm))

/-- Representatives of one block are one state. -/
theorem eq_of_representative (hst : p.Same s t) (hs : representative p s = s)
    (ht : representative p t = t) : s = t := by
  rw [← hs, ← ht, representative, representative, hst]

/-- Merging tells all states apart, and loses no state that is met. -/
theorem merge_minimal (hd : d.Complete) (hmet : ∀ s < d.size, s ≠ 0 → d.Met s) :
    (d.merge d.refinedPartition).Minimal := by
  have h := refinedPartition_refined hd.toClosed hd.dead.accept
  have hcoarse := refinedPartition_coarse hd.toClosed hd.dead.accept
  have hretract := merge_retract hd.toClosed h
  have hkept : ∀ u ∈ (List.range d.size).filter fun s => representative d.refinedPartition s == s,
      u < d.size ∧ representative d.refinedPartition u = u := by
    intro u hu
    obtain ⟨hlt, hself⟩ := List.mem_filter.1 hu
    exact ⟨List.mem_range.1 hlt, beq_iff_eq.1 hself⟩
  have hone : ∀ u ∈ (List.range d.size).filter fun s => representative d.refinedPartition s == s,
      ∀ v ∈ (List.range d.size).filter fun s => representative d.refinedPartition s == s,
      d.refinedPartition.Same u v → u = v :=
    fun u hu v hv huv => eq_of_representative huv (hkept u hu).2 (hkept v hv).2
  unfold merge
  constructor
  · intro i hi hne
    rw [Retract.size_keep] at hi
    have hu := List.getElem?_eq_getElem hi
    refine hretract.met hone hu (hmet _ (hkept _ (List.getElem_mem hi)).1 fun hzero => hne ?_)
    rw [hzero] at hu
    exact (List.getElem?_inj hi hretract.nodup).1 (hu.trans hretract.zero.symm)
  · intro i hi j hj hne
    rw [Retract.size_keep] at hi hj
    have hu := List.getElem_mem hi
    have hv := List.getElem_mem hj
    refine hretract.differ (fun s t hs ht => h.acceptsAs hs ht) (fun u hu => (hkept u hu).2)
      (List.getElem?_eq_getElem hi) (List.getElem?_eq_getElem hj) ?_
    refine (hcoarse.differ _ (hkept _ hu).1 _ (hkept _ hv).1).resolve_left fun hsame => hne ?_
    exact (List.Nodup.getElem_inj_iff hretract.nodup).1 (hone _ hu _ hv hsame)

theorem minimize_minimal (hd : d.Complete) : d.minimize.Minimal :=
  merge_minimal (prune_complete hd) (prune_met hd)

/-! ## Minimising again -/

theorem Absorbing.next_lt (hd : d.Absorbing) :
    ∀ s < d.size, ∀ t ∈ (d.state s).next, t < d.size := by
  intro s hs t ht
  obtain ⟨c, hc, rfl⟩ := Array.mem_iff_getElem.1 ht
  have hstep := hd.step s hs c (hd.width s hs ▸ hc)
  rwa [step, Array.getD_eq_getD_getElem?, Array.getElem?_eq_getElem hc] at hstep

/-- Keeping all states changes nothing. -/
theorem keep_range (ho : d.startOther < d.size) (hw : d.startWord < d.size)
    (hnext : ∀ s < d.size, ∀ t ∈ (d.state s).next, t < d.size) {stand : Nat → Nat}
    (hself : ∀ s < d.size, stand s = s) : d.keep (List.range d.size) stand = d := by
  have hindex : ∀ s < d.size, (ranks d.size (List.range d.size)).getD (stand s) 0 = s := by
    intro s hs
    rw [hself s hs]
    exact getD_ranks List.nodup_range (fun u hu => List.mem_range.1 hu) (List.getElem?_range hs)
  have hrow : ∀ s < d.size, (d.state s).next.map
      (fun t => (ranks d.size (List.range d.size)).getD (stand t) 0) = (d.state s).next := by
    intro s hs
    refine Array.ext Array.size_map fun c _ hc => ?_
    rw [Array.getElem_map]
    exact hindex _ (hnext s hs _ (Array.getElem_mem hc))
  have hstates : ((List.range d.size).map fun s => { d.state s with
      next := (d.state s).next.map
        fun t => (ranks d.size (List.range d.size)).getD (stand t) 0 }).toArray = d.states := by
    refine Array.ext (by simp [size]) fun s hs hs' => ?_
    rw [List.getElem_toArray, List.getElem_map, List.getElem_range, hrow s hs',
      state_eq_getElem hs']
  unfold keep
  dsimp only
  rw [hstates, hindex _ ho, hindex _ hw]

/-- Pruning changes nothing if all states are reached. -/
theorem prune_eq_self (ho : d.startOther < d.size) (hw : d.startWord < d.size)
    (hnext : ∀ s < d.size, ∀ t ∈ (d.state s).next, t < d.size)
    (hall : ∀ s < d.size,
      (Walk.reachable d.successors d.size [0, d.startOther, d.startWord]).contains s = true) :
    d.prune = d := by
  have hrange : (List.range d.size).filter
      (Walk.reachable d.successors d.size [0, d.startOther, d.startWord]).contains =
        List.range d.size :=
    List.filter_eq_self.2 fun s hs => hall s (List.mem_range.1 hs)
  unfold prune
  dsimp only
  rw [hrange]
  exact keep_range ho hw hnext fun _ _ => rfl

/-- All states of a minimal automaton are reached. -/
theorem Minimal.prune_eq (h : d.Minimal) (hd : d.Complete) : d.prune = d := by
  refine prune_eq_self hd.startOther hd.startWord hd.absorbing.next_lt fun s hs => ?_
  refine ((reached_iff_kept hd.absorbing).2 ?_).2
  exact or_iff_not_imp_left.2 (h.met s hs)

/-- At the end no word tells states of one block apart. -/
theorem Refined.not_differ (h : Refined d d.size p) (hd : d.Closed) (hs : s < d.size)
    (ht : t < d.size) (hst : p.Same s t) : ¬ d.Differ s t := by
  rintro ⟨w, hw, hparts⟩
  refine hparts ?_
  clear hparts
  induction w generalizing s t with
  | nil => exact h.acceptsAs hs ht hst
  | cons c w ih =>
    have hc := hw c List.mem_cons_self
    exact ih (hd.step s hs c hc) (hd.step t ht c hc) (refined_stable h hd hs ht hst hc)
      fun c' hc' =>
      hw c' (List.mem_cons_of_mem c hc')

/-- The states of a minimal automaton all have blocks of their own. -/
theorem Minimal.merge_eq (h : d.Minimal) (hd : d.Complete) :
    d.merge d.refinedPartition = d := by
  have hrefined := refinedPartition_refined hd.toClosed hd.dead.accept
  have hself : ∀ s < d.size, representative d.refinedPartition s = s := by
    intro s hs
    obtain ⟨hlt, _, hsame⟩ := (hrefined.valid.mem _ _).1 (representative_mem hrefined.valid hs)
    by_contra hne
    exact hrefined.not_differ hd.toClosed hlt hs hsame (h.differ _ hlt s hs hne)
  have hall : (List.range d.size).filter (fun s => representative d.refinedPartition s == s) =
      List.range d.size :=
    List.filter_eq_self.2 fun s hs => beq_iff_eq.2 (hself s (List.mem_range.1 hs))
  unfold merge
  rw [hall]
  exact keep_range hd.startOther hd.startWord hd.absorbing.next_lt hself

theorem Minimal.minimize_eq (h : d.Minimal) (hd : d.Complete) : d.minimize = d := by
  unfold minimize
  dsimp only
  rw [h.prune_eq hd, h.merge_eq hd]

/-- Minimising a complete automaton leaves no state but the dead one that is not met from a start,
and no two states that accept alike behind all words. So minimising once more changes nothing. -/
theorem minimized_minimal {tuning : Tuning} (hmin : tuning.minimize = true) (hd : d.Complete) :
    (tuning.minimized d).Minimal ∧
      tuning.minimized (tuning.minimized d) = tuning.minimized d := by
  have heq : ∀ e, tuning.minimized e = e.minimize := fun e => if_pos hmin
  rw [heq, heq]
  have hminimal := minimize_minimal hd
  exact ⟨hminimal, hminimal.minimize_eq (minimize_complete hd)⟩

theorem minimized_minimal_twoWays :
    ({} : Tuning).minimize = true ∧ twoWays.Complete ∧
      ∃ e, ({} : Tuning).minimized twoWays = e ∧ e.Minimal ∧ ({} : Tuning).minimized e = e := by
  obtain ⟨hminimal, hagain⟩ :=
    minimized_minimal (show ({} : Tuning).minimize = true from rfl) twoWays_complete
  exact ⟨rfl, twoWays_complete, _, rfl, hminimal, hagain⟩

end ByteRegex.Dfa
