-- Pruning keeps what can be met, and only renumbers it. What a construction
-- has just made it leaves alone, since every state has been found from one of
-- the starts.
import ByteRegex.Proofs.Dfa.Shape

namespace ByteRegex.Dfa

/-- The states of `e` are the kept ones of `d` in their order, under their numbers. Nothing else has
changed. -/
structure Renumbered (d e : Dfa) (number : Nat → Nat) : Prop where
  zero : number 0 = 0
  mono : ∀ s t, d.Kept s → d.Kept t → s < t → number s < number t
  onto : ∀ i, i < e.size ↔ ∃ s, d.Kept s ∧ number s = i
  state : ∀ s, d.Kept s →
    e.state (number s) = { d.state s with next := (d.state s).next.map number }
  step : ∀ s, d.Kept s → ∀ c < d.alphaSize,
    d.Kept (d.step s c) ∧ e.step (number s) c = number (d.step s c)
  startOther : d.Kept d.startOther ∧ e.startOther = number d.startOther
  startWord : d.Kept d.startWord ∧ e.startWord = number d.startWord
  others : e = { d with states := e.states, startOther := e.startOther, startWord := e.startWord }

variable {d : Dfa}

/-! ## Renumbering -/

/-- The places of an ascending list come in the order of its members. -/
theorem lt_of_getElem?_lt {l : List Nat} (hl : l.Pairwise (· < ·)) {i j s t : Nat}
    (hi : l[i]? = some s) (hj : l[j]? = some t) (hst : s < t) : i < j := by
  obtain ⟨hilt, rfl⟩ := List.getElem?_eq_some_iff.1 hi
  obtain ⟨hjlt, rfl⟩ := List.getElem?_eq_some_iff.1 hj
  by_contra hle
  rcases Nat.lt_or_eq_of_le (Nat.le_of_not_lt hle) with hlt | rfl
  · exact Nat.lt_asymm hst (List.pairwise_iff_getElem.1 hl j i hjlt hilt hlt)
  · exact Nat.lt_irrefl _ hst

theorem prune_renumbered (hd : d.Absorbing) : ∃ number, Renumbered d d.prune number := by
  have hretract := prune_retract hd.toClosed hd.zero
  have hlive : ∀ s, _ ↔ d.Kept s := fun s => reached_iff_kept hd
  have hsorted : ((List.range d.size).filter (Walk.reachable d.successors d.size
      [0, d.startOther, d.startWord]).contains).Pairwise (· < ·) := List.pairwise_lt_range.filter _
  unfold prune
  dsimp only
  generalize (List.range d.size).filter (Walk.reachable d.successors d.size
    [0, d.startOther, d.startWord]).contains = kept at hretract hsorted
  have hspec : ∀ s, d.Kept s → kept[Retract.index d kept id s]? = some s := fun s hs =>
    hretract.index_spec ((hlive s).2 hs)
  refine ⟨Retract.index d kept id, ?_⟩
  refine
    { zero := hretract.index_zero
      mono := fun s t hs ht => lt_of_getElem?_lt hsorted (hspec s hs) (hspec t ht)
      onto := fun i => ?_
      state := fun s hs => Retract.state_keep (hspec s hs)
      step := fun s hs c hc => ⟨?_, hretract.step_keep (hspec s hs) c⟩
      startOther := ⟨(hlive _).1 hretract.live_start.2.1, rfl⟩
      startWord := ⟨(hlive _).1 hretract.live_start.2.2, rfl⟩
      others := rfl }
  · rw [Retract.size_keep]
    constructor
    · intro hi
      have hu := List.getElem?_eq_getElem hi
      exact ⟨kept[i], (hlive _).1 (hretract.live_kept _ (List.mem_of_getElem? hu)).2,
        hretract.index_kept hu rfl⟩
    · rintro ⟨s, hs, rfl⟩
      exact (List.getElem?_eq_some_iff.1 (hspec s hs)).1
  · exact (hlive _).1 (hretract.live_step s ((hlive s).2 hs) c hc)

/-! ## What has just been built -/

namespace Built

variable {c : Subset} {sets : Array ThreadSet}

theorem lt_size (h : Built c d sets) {i : Nat} {s : ThreadSet} (hs : sets[i]? = some s) :
    i < d.size := by
  rw [h.size_eq]
  exact (Array.getElem?_eq_some_iff.1 hs).1

theorem next_lt (h : Built c d sets) : ∀ i < d.size, ∀ t ∈ (d.state i).next, t < d.size := by
  intro i hi t ht
  rcases Nat.eq_zero_or_pos i with rfl | hpos
  · rw [state_eq rfl h.numbered.first] at ht
    obtain rfl := List.eq_of_mem_replicate (Array.mem_toList_iff.2 ht)
    exact hi
  · obtain ⟨s, hs⟩ := h.exists_set hi
    obtain ⟨st, hst, next, rfl, hnext⟩ := h.numbered.row i s hpos hs
    rw [state_eq rfl hst] at ht
    rw [h.size_eq]
    exact hnext.lt_size (Array.mem_toList_iff.2 ht)

/-- Every state is found from one of the starts, by induction on its number. -/
theorem reached (h : Built c d sets) {i : Nat} (hi : i < d.size) :
    (Walk.reachable d.successors d.size [0, d.startOther, d.startWord]).contains i = true := by
  induction i using Nat.strongRecOn with
  | ind i ih =>
    rcases Nat.eq_zero_or_pos i with rfl | hpos
    · exact Walk.start_reachable (by simp) hi
    · obtain ⟨s, hs⟩ := h.exists_set hi
      rcases h.grown i s hpos hs with hinit | ⟨k, u, hk, hki, hu, hsu⟩
      · rcases Subset.mem_initial_iff.1 hinit with rfl | rfl
        · exact Walk.start_reachable (by simp [eq_of_getElem? h.nodup hs h.startOther]) hi
        · exact Walk.start_reachable (by simp [eq_of_getElem? h.nodup hs h.startWord]) hi
      · obtain ⟨cls, hcls⟩ := List.mem_iff_getElem?.1 hsu
        have hstep : d.step k cls = i :=
          eq_of_getElem? h.nodup (h.numbered.leads rfl hk hu hcls) hs
        have hmem := mem_successors (Nat.ne_of_gt hk) (hstep.trans_ne (Nat.ne_of_gt hpos))
        exact Walk.step_reachable (ih k hki (h.lt_size hu)) (hstep ▸ hmem) hi

end Built

theorem ofNfa_prune {n : Nfa} {alpha : Alphabet} {direction : Direction} {kind : MatchKind}
    {limit : Nat} (h : ofNfa n alpha direction kind limit = .ok d) : d.prune = d := by
  obtain ⟨sets, hbuilt⟩ := ofNfa_built h
  exact prune_eq_self (hbuilt.lt_size hbuilt.startOther) (hbuilt.lt_size hbuilt.startWord)
    hbuilt.next_lt fun _ hs => hbuilt.reached hs

/-- Pruning keeps the first state and all states that are met, and no others. They get the numbers
from 0 on in their order, and lead where they have led. An automaton that has just been built stays
as it is. -/
theorem prune_exact (d : Dfa) : (d.Absorbing → ∃ number, Renumbered d d.prune number) ∧
    ∀ n alpha direction kind limit, ofNfa n alpha direction kind limit = .ok d → d.prune = d :=
  ⟨prune_renumbered, fun _ _ _ _ _ => ofNfa_prune⟩

/-- No word leads to the last of the two ways. -/
theorem twoWays_kept {s : Nat} (h : twoWays.Kept s) : s < 5 := by
  have hstep : ∀ s < 5, ∀ c < 3, twoWays.step s c < 5 := by decide
  have hrun : ∀ (w : List Nat) (s : Nat), (∀ c ∈ w, c < 3) → s < 5 → twoWays.run s w < 5 := by
    intro w
    induction w with
    | nil => exact fun s _ hs => hs
    | cons c w ih =>
      exact fun s hw hs => ih _ (fun c' hc' => hw c' (List.mem_cons_of_mem c hc'))
        (hstep s hs c (hw c List.mem_cons_self))
  rcases h with rfl | ⟨w, hw, rfl | rfl⟩
  · decide
  · exact hrun w 1 hw (by decide)
  · exact hrun w 2 hw (by decide)

theorem prune_exact_twoWays : twoWays.Absorbing ∧ ¬ twoWays.Kept 5 ∧
    (∃ number, Renumbered twoWays twoWays.prune number) ∧
    ∃ d, ofNfa Nfa.knot knotAlphabet .forward .leftmostFirst 3000 = .ok d ∧ d.prune = d := by
  have hwell := twoWays_complete.absorbing
  obtain ⟨d, hd⟩ := exists_ofNfa_knot .leftmostFirst
  exact ⟨hwell, fun h => absurd (twoWays_kept h) (by decide), (prune_exact twoWays).1 hwell,
    d, hd, (prune_exact d).2 _ _ _ _ _ hd⟩

end ByteRegex.Dfa
