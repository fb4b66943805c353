-- The shape that scans rely on. Only the start takes the start of the text, and
-- the end of the text leads nowhere or to a state that accepts and has nothing
-- behind it. Automata are built in this shape, and pruning and minimising keep
-- it.
import ByteRegex.Proofs.Dfa.Discovery
import ByteRegex.Proofs.Dfa.Exact
import ByteRegex.Proofs.Dfa.Minimal

namespace ByteRegex

/-- The two ends of the text have the last two classes. -/
structure Alphabet.EndsLast (a : Alphabet) : Prop where
  size_eq : a.size = a.byteClassCount + 2
  start : a.symbolClass.getD startSymbol 0 = a.byteClassCount
  stop : a.symbolClass.getD endSymbol 0 = a.byteClassCount + 1

theorem Alphabet.Formed.endsLast {a : Alphabet} (h : a.Formed) : a.EndsLast :=
  ⟨h.size_eq, h.start, h.stop⟩

namespace Dfa

/-- The state accepts before everything, and all classes lead from it to the dead state. -/
structure Final (d : Dfa) (s : Nat) : Prop where
  accept : (d.state s).accept = .always
  step : ∀ c < d.alphaSize, d.step s c = 0

/-- A complete automaton in which the two ends of the text have the last two classes, and lead where
scans expect it. -/
structure Shaped (d : Dfa) : Prop extends d.Complete where
  startClass_eq : d.startClass + 2 = d.alphaSize
  endClass_eq : d.endClass + 1 = d.alphaSize
  start : ∀ s < d.size, s ≠ d.startOther → d.step s d.startClass = 0
  stop : ∀ s < d.size, d.step s d.endClass = 0 ∨ d.Final (d.step s d.endClass)

/-! ## The automaton that is built -/

/-- The states of an automaton stand for sets of threads, each for another one. -/
structure Built (c : Subset) (d : Dfa) (sets : Array ThreadSet) : Prop where
  numbered : Numbered c.automaton c.alpha.size d.states sets
  nodup : sets.toList.Nodup
  grown : Grown c.automaton sets
  startOther : sets[d.startOther]? = some c.startOther
  startWord : sets[d.startWord]? = some c.startWord

section OfNfa

variable {n : Nfa} {alpha : Alphabet} {direction : Direction} {kind : MatchKind} {limit : Nat}
  {d : Dfa}

theorem ofNfa_built (h : ofNfa n alpha direction kind limit = .ok d) :
    ∃ sets, Built (Subset.ofNfa n alpha kind) d sets := by
  obtain ⟨states, sets, hdet, rfl⟩ := ofNfa_ok h
  obtain ⟨hlists, hgrown⟩ := determinize_lists hdet
  have hnum := determinize_numbered hdet
  exact ⟨sets, hnum, hlists ▸ nodup_eraseDups _, hgrown,
    hnum.getElem?_idxOf (Subset.mem_initial_iff.2 (Or.inl rfl)),
    hnum.getElem?_idxOf (Subset.mem_initial_iff.2 (Or.inr rfl))⟩

end OfNfa

namespace Built

variable {c : Subset} {d : Dfa} {sets : Array ThreadSet} {i : Nat} {s : ThreadSet}

theorem size_eq (h : Built c d sets) : d.size = sets.size := h.numbered.size_eq

/-- Each state has the set of its number. -/
theorem exists_set (h : Built c d sets) (hi : i < d.size) : ∃ s, sets[i]? = some s :=
  ⟨_, Array.getElem?_eq_getElem (h.size_eq ▸ hi)⟩

/-- Only the first state stands for the dead set. -/
theorem eq_zero (h : Built c d sets) (hi : sets[i]? = some .dead) : i = 0 :=
  eq_of_getElem? h.nodup hi h.numbered.dead

/-- A class that leads to no thread leads to the dead state. -/
theorem step_eq_zero (h : Built c d sets) {k : Nat} (hk : k < c.alpha.size) (hs : sets[i]? = some s)
    (hdead : (c.successors c.startOther s)[k]? = some .dead) : d.step i k = 0 := by
  rcases Nat.eq_zero_or_pos i with rfl | hi
  · exact h.numbered.step_zero rfl hk
  · exact h.eq_zero (h.numbered.leads rfl hi hs hdead)

theorem width (h : Built c d sets) (hsize : c.alpha.size = c.alpha.byteClassCount + 2)
    (hi : i < d.size) : (d.state i).next.size = c.alpha.size := by
  rcases Nat.eq_zero_or_pos i with rfl | hpos
  · rw [state_eq rfl h.numbered.first]
    exact List.length_replicate
  · obtain ⟨s, hs⟩ := h.exists_set hi
    obtain ⟨st, hst, hrow⟩ := h.numbered.row i s hpos hs
    rw [state_eq rfl hst, hrow.width]
    exact (Subset.idling hsize).length s

/-- The state of a set in which the text has ended is final. -/
theorem final (h : Built c d sets) (hsize : d.alphaSize = c.alpha.size) (hs : sets[i]? = some s)
    (hfinal : s.final = true) : d.Final i := by
  constructor
  · have hi : 1 ≤ i := by
      refine Nat.pos_of_ne_zero fun hzero => ?_
      rw [hzero, h.numbered.dead] at hs
      rw [← Option.some.inj hs] at hfinal
      cases hfinal
    obtain ⟨st, hst, hrow⟩ := h.numbered.row i s hi hs
    rw [state_eq rfl hst, show st.accept = (c.report s).1 from congrArg Prod.fst hrow.report,
      Subset.report, if_pos hfinal]
  · intro k hk
    rw [hsize] at hk
    exact h.step_eq_zero hk hs (c.successors_final hfinal _ hk)

/-- The start of the text leads on only from the set of the start. -/
theorem step_start (h : Built c d sets) (hsize : c.alpha.size = c.alpha.byteClassCount + 2)
    (hi : i < d.size) (hne : i ≠ d.startOther) : d.step i c.alpha.byteClassCount = 0 := by
  have hlt : c.alpha.byteClassCount < c.alpha.size := by omega
  obtain ⟨s, hs⟩ := h.exists_set hi
  refine h.step_eq_zero hlt hs ?_
  cases hfinal : s.final with
  | true => exact c.successors_final hfinal _ hlt
  | false =>
    have hstart : s ≠ c.startOther := fun heq =>
      hne (eq_of_getElem? h.nodup hs (heq ▸ h.startOther))
    rw [(c.successors_ends hfinal _).1, Subset.afterStart, if_neg hstart]

/-- The end of the text leads to a set in which it has ended, if to any threads at all. -/
theorem step_end (h : Built c d sets) (hsize : c.alpha.size = c.alpha.byteClassCount + 2)
    (halpha : d.alphaSize = c.alpha.size) (hi : i < d.size) :
    d.step i (c.alpha.byteClassCount + 1) = 0 ∨
      d.Final (d.step i (c.alpha.byteClassCount + 1)) := by
  have hlt : c.alpha.byteClassCount + 1 < c.alpha.size := by omega
  obtain ⟨s, hs⟩ := h.exists_set hi
  rcases Nat.eq_zero_or_pos i with rfl | hpos
  · exact Or.inl (h.numbered.step_zero rfl hlt)
  cases hfinal : s.final with
  | true => exact Or.inl (h.step_eq_zero hlt hs (c.successors_final hfinal _ hlt))
  | false =>
    have hend := (c.successors_ends hfinal c.startOther).2
    rw [Subset.afterEnd] at hend
    split at hend
    · exact Or.inr (h.final halpha (h.numbered.leads rfl hpos hs hend) rfl)
    · exact Or.inl (h.step_eq_zero hlt hs hend)

end Built

section OfNfa

variable {n : Nfa} {alpha : Alphabet} {direction : Direction} {kind : MatchKind} {limit : Nat}
  {d : Dfa}

theorem ofNfa_shaped (ha : alpha.EndsLast) (h : ofNfa n alpha direction kind limit = .ok d) :
    d.Shaped := by
  obtain ⟨sets, hbuilt⟩ := ofNfa_built h
  obtain ⟨hclosed, hdead, halpha, hsymbols⟩ := ofNfa_closed ha.size_eq h
  have hstart : d.startClass = alpha.byteClassCount := by
    rw [startClass, classOf, hsymbols, ha.start]
  have hend : d.endClass = alpha.byteClassCount + 1 := by
    rw [endClass, classOf, hsymbols, ha.stop]
  have hsize := ha.size_eq
  refine ⟨⟨hclosed, hdead, fun s hs => ?_⟩, by omega, by omega, fun s hs hne => ?_, fun s hs => ?_⟩
  · rw [halpha]
    exact hbuilt.width hsize hs
  · rw [hstart]
    exact hbuilt.step_start hsize hs hne
  · rw [hend]
    exact hbuilt.step_end hsize halpha hs

end OfNfa

/-! ## Pruning and merging -/

variable {d e : Dfa}

namespace Retract

variable {kept : List Nat} {stand : Nat → Nat} {Live : Nat → Prop} {E : Nat → Nat → Prop}

/-- What takes the place of a final state is final. -/
theorem final (h : Retract d kept stand Live E) (hstand : ∀ s t, E s t → stand s = stand t)
    {s : Nat}
    (hs : Live s) (hfinal : d.Final s) : (d.keep kept stand).Final (index d kept stand s) := by
  have hplace := h.index_spec hs
  have hlive := (h.live_kept _ (List.mem_of_getElem? hplace)).2
  have hrel := h.stand_rel s hs
  constructor
  · rw [state_keep hplace]
    exact (h.accept _ _ hs hlive hrel).symm.trans hfinal.accept
  · intro c hc
    have hnext := h.step _ _ hs hlive hrel c hc
    rw [hfinal.step c hc] at hnext
    rw [h.step_keep hplace, ← h.index_zero, index, index, hstand _ _ hnext]

/-- The kept states have the shape if each of them stands for itself, and related states have one
state in their place. -/
theorem shaped (h : Retract d kept stand Live E) (hd : d.Shaped) (hself : ∀ u ∈ kept, stand u = u)
    (hstand : ∀ s t, E s t → stand s = stand t) : (d.keep kept stand).Shaped := by
  refine ⟨h.complete hd.toComplete, hd.startClass_eq, hd.endClass_eq, fun i hi hne => ?_,
    fun i hi => ?_⟩
  · rw [size_keep] at hi
    have hu := List.getElem?_eq_getElem hi
    have hmem := List.mem_of_getElem? hu
    rw [show (d.keep kept stand).startClass = d.startClass from rfl, h.step_keep hu,
      hd.start _ (h.live_kept _ hmem).1, h.index_zero]
    intro heq
    -- the start that is kept is the start of what is kept
    apply hne
    rw [← h.index_kept hu (hself _ hmem), heq]
    rfl
  · rw [size_keep] at hi
    have hu := List.getElem?_eq_getElem hi
    have hlive := h.live_kept _ (List.mem_of_getElem? hu)
    have hlt : d.endClass < d.alphaSize := Nat.lt_of_succ_le (Nat.le_of_eq hd.endClass_eq)
    rw [show (d.keep kept stand).endClass = d.endClass from rfl, h.step_keep hu]
    rcases hd.stop _ hlive.1 with hzero | hfinal
    · exact Or.inl (by rw [hzero, h.index_zero])
    · exact Or.inr (h.final hstand (h.live_step _ hlive.2 _ hlt) hfinal)

end Retract

theorem prune_shaped (hd : d.Shaped) : d.prune.Shaped :=
  (prune_retract hd.toClosed hd.dead.step).shaped hd (fun _ _ => rfl) fun _ _ => id

theorem minimize_shaped (hd : d.Shaped) : d.minimize.Shaped :=
  (minimize_retract hd.toClosed hd.dead).shaped (prune_shaped hd)
    (fun _ hu => beq_iff_eq.1 (List.mem_filter.1 hu).2)
    fun s t hst => by rw [representative, representative, hst]

/-! ## Any number of passes -/

/-- What one pass makes of an automaton. -/
inductive Pass (d : Dfa) : Dfa → Prop
  | prune : Pass d d.prune
  | minimized (t : Tuning) : Pass d (t.minimized d)

theorem Pass.shaped (h : Pass d e) (hd : d.Shaped) : e.Shaped := by
  cases h with
  | prune => exact prune_shaped hd
  | minimized t =>
    unfold Tuning.minimized
    split
    · exact minimize_shaped hd
    · exact hd

theorem shaped_of_passes (h : Relation.ReflTransGen Pass d e) (hd : d.Shaped) : e.Shaped := by
  induction h with
  | refl => exact hd
  | tail _ hpass ih => exact hpass.shaped ih

/-- An automaton that is built with the two ends of the text as its last two classes has the shape,
and so has everything that pruning and minimising make of it. -/
theorem passes_keep_shape {n : Nfa} {alpha : Alphabet} {direction : Direction} {kind : MatchKind}
    {limit : Nat} (ha : alpha.EndsLast) (h : ofNfa n alpha direction kind limit = .ok d)
    (hpasses : Relation.ReflTransGen Pass d e) : e.Shaped :=
  shaped_of_passes hpasses (ofNfa_shaped ha h)

theorem passes_keep_shape_knot : knotAlphabet.EndsLast ∧
    ∃ d, ofNfa Nfa.knot knotAlphabet .forward .leftmostFirst 3000 = .ok d ∧
      Relation.ReflTransGen Pass d (({} : Tuning).minimized d.prune) ∧
      (({} : Tuning).minimized d.prune).Shaped := by
  obtain ⟨d, hd⟩ := exists_ofNfa_knot .leftmostFirst
  have hpasses : Relation.ReflTransGen Pass d (({} : Tuning).minimized d.prune) :=
    .tail (.single .prune) (.minimized {})
  exact ⟨knot_formed.endsLast, d, hd, hpasses,
    passes_keep_shape knot_formed.endsLast hd hpasses⟩

end Dfa

end ByteRegex
