-- Keeping some of the states of an automaton, each of which may stand for
-- others that accept behind the same words.
import ByteRegex.Proofs.Dfa.Machine
import ByteRegex.Proofs.Table.Encode
import ByteRegex.Proofs.Walk

namespace ByteRegex.Dfa

/-! ## Ranks -/

theorem getD_foldl_ranks {kept : List Nat} {k s : Nat} {a : Array Nat} (hn : kept.Nodup)
    (ha : ∀ u ∈ kept, u < a.size) :
    (s ∉ kept → ((kept.zipIdx k).foldl (fun a r => a.setIfInBounds r.1 r.2) a).getD s 0
      = a.getD s 0) ∧
    ∀ i : Nat, kept[i]? = some s →
      ((kept.zipIdx k).foldl (fun a r => a.setIfInBounds r.1 r.2) a).getD s 0 = k + i := by
  induction kept generalizing k a with
  | nil => simp
  | cons u rest ih =>
    obtain ⟨hu, hrest⟩ := List.nodup_cons.1 hn
    have hset : ∀ v,
        (a.setIfInBounds u k).getD v 0 = if u = v ∧ u < a.size then k else a.getD v 0 := by
      intro v
      rw [Array.getD_eq_getD_getElem?, Array.getElem?_setIfInBounds, Array.getD_eq_getD_getElem?]
      by_cases huv : u = v
      · subst huv
        simp [ha u List.mem_cons_self]
      · simp [huv]
    obtain ⟨h1, h2⟩ := ih (k := k + 1) (a := a.setIfInBounds u k) hrest fun v hv => by
      rw [Array.size_setIfInBounds]
      exact ha v (List.mem_cons_of_mem u hv)
    rw [List.zipIdx_cons, List.foldl_cons]
    refine ⟨fun hs => ?_, fun i hi => ?_⟩
    · rw [List.mem_cons, not_or] at hs
      rw [h1 hs.2, hset, if_neg fun h => hs.1 h.1.symm]
    · cases i with
      | zero =>
        obtain rfl : u = s := Option.some.inj hi
        rw [h1 hu, hset, if_pos ⟨rfl, ha u List.mem_cons_self⟩]
        rfl
      | succ i =>
        rw [h2 i hi]
        omega

/-- The rank of a kept state is its place. -/
theorem getD_ranks {kept : List Nat} {size s i : Nat} (hn : kept.Nodup) (hk : ∀ u ∈ kept, u < size)
    (hi : kept[i]? = some s) : (ranks size kept).getD s 0 = i := by
  have h := (getD_foldl_ranks (k := 0) (a := Array.replicate size 0) (s := s) hn
    (by simpa using hk)).2 i hi
  rwa [Nat.zero_add] at h

/-! ## The kept states -/

/-- The kept states can take the place of the live ones, those that can be met: `E` relates live
states that accept behind the same words. -/
structure Retract (d : Dfa) (kept : List Nat) (stand : Nat → Nat) (Live : Nat → Prop)
    (E : Nat → Nat → Prop) : Prop where
  nodup : kept.Nodup
  zero : kept[0]? = some 0
  stand_zero : stand 0 = 0
  live_start : Live 0 ∧ Live d.startOther ∧ Live d.startWord
  live_step : ∀ s, Live s → ∀ c < d.alphaSize, Live (d.step s c)
  live_kept : ∀ s ∈ kept, s < d.size ∧ Live s
  stand_mem : ∀ s, Live s → stand s ∈ kept
  stand_rel : ∀ s, Live s → E s (stand s)
  trans : ∀ s t u, E s t → E t u → E s u
  accept : ∀ s t, Live s → Live t → E s t → (d.state s).accept = (d.state t).accept
  step : ∀ s t, Live s → Live t → E s t → ∀ c < d.alphaSize, E (d.step s c) (d.step t c)

namespace Retract

variable {d : Dfa} {kept : List Nat} {stand : Nat → Nat} {Live : Nat → Prop}
  {E : Nat → Nat → Prop}

/-- The number of the kept state that takes the place of a state. -/
def index (d : Dfa) (kept : List Nat) (stand : Nat → Nat) (s : Nat) : Nat :=
  (ranks d.size kept).getD (stand s) 0

theorem index_spec (h : Retract d kept stand Live E) {s : Nat} (hs : Live s) :
    kept[index d kept stand s]? = some (stand s) := by
  obtain ⟨i, hi⟩ := List.mem_iff_getElem?.1 (h.stand_mem s hs)
  rw [index, getD_ranks h.nodup (fun u hu => (h.live_kept u hu).1) hi]
  exact hi

theorem index_zero (h : Retract d kept stand Live E) : index d kept stand 0 = 0 := by
  rw [index, h.stand_zero]
  exact getD_ranks h.nodup (fun u hu => (h.live_kept u hu).1) h.zero

theorem state_keep {i u : Nat} (hi : kept[i]? = some u) :
    (d.keep kept stand).state i =
      { d.state u with next := (d.state u).next.map (index d kept stand) } := by
  rw [Dfa.state, keep, Array.getD_eq_getD_getElem?]
  dsimp only
  rw [List.getElem?_toArray, List.getElem?_map, hi]
  rfl

theorem step_keep (h : Retract d kept stand Live E) {i u : Nat} (hi : kept[i]? = some u) (c : Nat) :
    (d.keep kept stand).step i c = index d kept stand (d.step u c) := by
  rw [Dfa.step, state_keep hi, Dfa.step, Array.getD_eq_getD_getElem?, Array.getElem?_map,
    Array.getD_eq_getD_getElem?]
  cases (d.state u).next[c]? with
  | none => exact h.index_zero.symm
  | some v => rfl

theorem size_keep : (d.keep kept stand).size = kept.length := by
  rw [Dfa.size, keep, List.size_toArray, List.length_map]

/-- A step keeps what holds between a live state and the kept state in its place. -/
theorem rel_step (h : Retract d kept stand Live E) {s i u c : Nat} (hs : Live s)
    (hu : kept[i]? = some u) (hsu : E s u) (hc : c < d.alphaSize) :
    Live (d.step s c) ∧
      ∃ v, kept[(d.keep kept stand).step i c]? = some v ∧ E (d.step s c) v := by
  have hlive := (h.live_kept u (List.mem_of_getElem? hu)).2
  have hnext := h.live_step u hlive c hc
  refine ⟨h.live_step s hs c hc, stand (d.step u c), ?_, ?_⟩
  · rw [h.step_keep hu]
    exact h.index_spec hnext
  · exact h.trans _ _ _ (h.step s u hs hlive hsu c hc) (h.stand_rel _ hnext)

/-- A live state and the kept state in its place accept behind the same words. -/
theorem alike (h : Retract d kept stand Live E) {s : Nat} (hs : Live s) :
    Machine.Alike d.alphaSize d.machine s (d.keep kept stand).machine (index d kept stand s) := by
  refine Machine.Alike.of_bisim (R := fun s i => Live s ∧ ∃ u, kept[i]? = some u ∧ E s u) ?_ ?_
    ⟨hs, stand s, h.index_spec hs, h.stand_rel s hs⟩
  · rintro s i ⟨hs, u, hu, hsu⟩
    have hlive := (h.live_kept u (List.mem_of_getElem? hu)).2
    rw [show (d.keep kept stand).machine.accept i = ((d.keep kept stand).state i).accept from rfl,
      state_keep hu]
    exact h.accept s u hs hlive hsu
  · rintro s i c ⟨hs, u, hu, hsu⟩ hc
    exact h.rel_step hs hu hsu hc

/-- Nothing is lost. -/
theorem agree (h : Retract d kept stand Live E) :
    Machine.Agree d.alphaSize d.machine (d.keep kept stand).machine := by
  refine ⟨?_, h.alike h.live_start.2.1, h.alike h.live_start.2.2⟩
  have := h.alike h.live_start.1
  rwa [h.index_zero] at this

theorem closed (h : Retract d kept stand Live E) : (d.keep kept stand).Closed := by
  have hlt : ∀ s, Live s → index d kept stand s < (d.keep kept stand).size := by
    intro s hs
    rw [size_keep]
    exact (List.getElem?_eq_some_iff.1 (h.index_spec hs)).1
  refine ⟨hlt _ h.live_start.2.1, hlt _ h.live_start.2.2, fun i hi c hc => ?_⟩
  rw [size_keep] at hi
  have hu := List.getElem?_eq_getElem hi
  rw [h.step_keep hu]
  exact hlt _ (h.live_step _ (h.live_kept _ (List.mem_of_getElem? hu)).2 c hc)

end Retract

/-! ## Pruning -/

/-- State 0 never accepts, and leads only to itself. -/
structure Dead (d : Dfa) : Prop where
  accept : (d.state 0).accept = .never
  step : ∀ c < d.alphaSize, d.step 0 c = 0

/-- Nothing accepts behind the dead state. -/
theorem Dead.quiet {d : Dfa} (h : d.Dead) : d.machine.Quiet d.alphaSize 0 := by
  intro w hw
  induction w with
  | nil => exact h.accept
  | cons c w ih =>
    have hstep : d.machine.step 0 c = 0 := h.step c (hw c List.mem_cons_self)
    rw [Machine.shows, List.foldl_cons, hstep]
    exact ih fun c' hc' => hw c' (List.mem_cons_of_mem c hc')

/-- The dead state is kept as such. -/
theorem Dead.keep {d : Dfa} {kept : List Nat} {stand : Nat → Nat} {Live : Nat → Prop}
    {E : Nat → Nat → Prop} (hdead : d.Dead) (h : Retract d kept stand Live E) :
    (d.keep kept stand).Dead := by
  constructor
  · rw [Retract.state_keep h.zero]
    exact hdead.accept
  · intro c hc
    rw [h.step_keep h.zero, hdead.step c hc, h.index_zero]

theorem filter_range_head {P : Nat → Bool} {n : Nat} (hn : 0 < n) (h0 : P 0 = true) :
    ((List.range n).filter P)[0]? = some 0 := by
  obtain ⟨m, rfl⟩ := Nat.exists_eq_add_of_lt hn
  rw [Nat.zero_add, List.range_succ_eq_map, List.filter_cons, if_pos h0]
  rfl

variable {d : Dfa}

/-- A step to another state than the dead one is seen by a walk. -/
theorem mem_successors {s c : Nat} (hs : s ≠ 0) (hstep : d.step s c ≠ 0) :
    d.step s c ∈ d.successors s := by
  rw [successors, if_neg hs, Array.mem_toList_iff]
  rw [step, Array.getD_eq_getD_getElem?] at hstep ⊢
  rcases hget : (d.state s).next[c]? with _ | v
  · rw [hget] at hstep
    exact absurd rfl hstep
  · exact Array.mem_of_getElem? hget

/-- What is reached takes its own place, if the first state leads only to itself. -/
theorem prune_retract (hd : d.Closed) (hzero : ∀ c < d.alphaSize, d.step 0 c = 0) :
    Retract d ((List.range d.size).filter
        (Walk.reachable d.successors d.size [0, d.startOther, d.startWord]).contains) id
      (fun s => s < d.size ∧
        (Walk.reachable d.successors d.size [0, d.startOther, d.startWord]).contains s = true)
      (· = ·) := by
  have hpos : 0 < d.size := Nat.lt_of_le_of_lt (Nat.zero_le _) hd.startOther
  have h0 : (Walk.reachable d.successors d.size [0, d.startOther, d.startWord]).contains 0 = true :=
    Walk.start_reachable (by simp) hpos
  refine ⟨List.nodup_range.filter _, filter_range_head hpos h0, rfl,
    ⟨⟨hpos, h0⟩, ⟨hd.startOther, Walk.start_reachable (by simp) hd.startOther⟩,
      ⟨hd.startWord, Walk.start_reachable (by simp) hd.startWord⟩⟩, ?_, ?_, ?_, fun _ _ => rfl,
    fun _ _ _ => Eq.trans, ?_, ?_⟩
  · rintro s ⟨hs, hr⟩ c hc
    have hlt := hd.step s hs c hc
    refine ⟨hlt, ?_⟩
    rcases Nat.eq_zero_or_pos s with rfl | hspos
    · rw [hzero c hc]
      exact h0
    · by_cases hstep : d.step s c = 0
      · rw [hstep]
        exact h0
      · exact Walk.step_reachable hr (mem_successors (Nat.ne_of_gt hspos) hstep) hlt
  · intro s hs
    obtain ⟨h1, h2⟩ := List.mem_filter.1 hs
    exact ⟨List.mem_range.1 h1, List.mem_range.1 h1, h2⟩
  · rintro s ⟨h1, h2⟩
    exact List.mem_filter.2 ⟨List.mem_range.2 h1, h2⟩
  · rintro s _ _ _ rfl
    rfl
  · rintro s _ _ _ rfl c _
    rfl

/-- Pruning loses nothing. -/
theorem prune_agree (hd : d.Closed) (hdead : d.Dead) :
    Machine.Agree d.alphaSize d.machine d.prune.machine := (prune_retract hd hdead.step).agree

theorem prune_closed (hd : d.Closed) (hdead : d.Dead) : d.prune.Closed :=
  (prune_retract hd hdead.step).closed

theorem prune_dead (hd : d.Closed) (hdead : d.Dead) : d.prune.Dead :=
  hdead.keep (prune_retract hd hdead.step)

end ByteRegex.Dfa
