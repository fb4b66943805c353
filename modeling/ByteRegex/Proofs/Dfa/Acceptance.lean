-- A run over the minimised automaton ends in a state that accepts as the state
-- does in which the same run ends over the automaton as it was built: before
-- the same kinds of bytes, and with the same priority.
import ByteRegex.Compile
import ByteRegex.Proofs.Dfa.Minimize

namespace ByteRegex.Dfa

/-- Both states accept before the same kinds of bytes and, if they do at all, with one priority. -/
structure State.AcceptsAs (s t : State) : Prop where
  accept : s.accept = t.accept
  priority : s.accept.any = true → s.priority = t.priority

/-- Each state has one successor for each class, and the first state is dead. -/
structure Complete (d : Dfa) : Prop extends d.Closed where
  dead : d.Dead
  width : ∀ s < d.size, (d.state s).next.size = d.alphaSize

/-- The state behind a word of classes. -/
def run (d : Dfa) (s : Nat) (w : List Nat) : Nat := w.foldl d.step s

/-- The two automata accept alike behind the word, from either start. -/
def AcceptsAsAfter (d e : Dfa) (w : List Nat) : Prop :=
  (d.state (d.run d.startOther w)).AcceptsAs (e.state (e.run e.startOther w)) ∧
    (d.state (d.run d.startWord w)).AcceptsAs (e.state (e.run e.startWord w))

/-! ## Acceptance -/

theorem State.AcceptsAs.refl (s : State) : s.AcceptsAs s := ⟨rfl, fun _ => rfl⟩

theorem State.AcceptsAs.trans {s t u : State} (h : s.AcceptsAs t) (h' : t.AcceptsAs u) :
    s.AcceptsAs u := by
  refine ⟨h.accept.trans h'.accept, fun hs => ?_⟩
  have ht : t.accept.any = true := h.accept ▸ hs
  exact (h.priority hs).trans (h'.priority ht)

/-- States that show the same of themselves accept alike. -/
theorem State.AcceptsAs.of_acceptance {s t : State} (h : s.acceptance? = t.acceptance?) :
    s.AcceptsAs t := by
  have haccept := accept_eq_of_acceptance h
  refine ⟨haccept, fun hs => ?_⟩
  have ht : t.accept.any = true := haccept ▸ hs
  unfold State.acceptance? at h
  rw [if_pos hs, if_pos ht] at h
  exact congrArg Prod.snd (Option.some.inj h)

theorem AcceptsAsAfter.trans {d e f : Dfa} {w : List Nat} (h : d.AcceptsAsAfter e w)
    (h' : e.AcceptsAsAfter f w) : d.AcceptsAsAfter f w :=
  ⟨h.1.trans h'.1, h.2.trans h'.2⟩

/-! ## Runs over the kept states -/

namespace Retract

variable {d : Dfa} {kept : List Nat} {stand : Nat → Nat} {Live : Nat → Prop}
  {E : Nat → Nat → Prop}

/-- A run keeps what holds between a live state and the kept state in its place. -/
theorem rel_run (h : Retract d kept stand Live E) {s i u : Nat} {w : List Nat} (hs : Live s)
    (hu : kept[i]? = some u) (hsu : E s u) (hw : ∀ c ∈ w, c < d.alphaSize) :
    Live (d.run s w) ∧
      ∃ v, kept[(d.keep kept stand).run i w]? = some v ∧ E (d.run s w) v := by
  induction w generalizing s i u with
  | nil => exact ⟨hs, u, hu, hsu⟩
  | cons c w ih =>
    obtain ⟨hs', v, hv, hsv⟩ := h.rel_step hs hu hsu (hw c List.mem_cons_self)
    exact ih hs' hv hsv fun c' hc' => hw c' (List.mem_cons_of_mem c hc')

theorem live_run (h : Retract d kept stand Live E) {s : Nat} {w : List Nat} (hs : Live s)
    (hw : ∀ c ∈ w, c < d.alphaSize) : Live (d.run s w) :=
  (h.rel_run hs (h.index_spec hs) (h.stand_rel s hs) hw).1

/-- Runs end in states that accept alike if related states do. -/
theorem acceptsAs_run (h : Retract d kept stand Live E)
    (hE : ∀ s t, Live s → Live t → E s t → (d.state s).AcceptsAs (d.state t)) {s : Nat}
    {w : List Nat} (hs : Live s) (hw : ∀ c ∈ w, c < d.alphaSize) :
    (d.state (d.run s w)).AcceptsAs
      ((d.keep kept stand).state ((d.keep kept stand).run (index d kept stand s) w)) := by
  obtain ⟨hend, v, hv, hrel⟩ := h.rel_run hs (h.index_spec hs) (h.stand_rel s hs) hw
  have hlive := (h.live_kept v (List.mem_of_getElem? hv)).2
  have haccept := hE _ v hend hlive hrel
  rw [state_keep hv]
  exact ⟨haccept.accept, haccept.priority⟩

theorem acceptsAsAfter (h : Retract d kept stand Live E)
    (hE : ∀ s t, Live s → Live t → E s t → (d.state s).AcceptsAs (d.state t)) {w : List Nat}
    (hw : ∀ c ∈ w, c < d.alphaSize) : d.AcceptsAsAfter (d.keep kept stand) w :=
  ⟨h.acceptsAs_run hE h.live_start.2.1 hw, h.acceptsAs_run hE h.live_start.2.2 hw⟩

theorem complete (h : Retract d kept stand Live E) (hd : d.Complete) :
    (d.keep kept stand).Complete := by
  refine ⟨h.closed, hd.dead.keep h, fun i hi => ?_⟩
  rw [size_keep] at hi
  have hu := List.getElem?_eq_getElem hi
  rw [state_keep hu, Array.size_map]
  exact hd.width _ (h.live_kept _ (List.mem_of_getElem? hu)).1

end Retract

/-! ## Pruning and merging -/

variable {d : Dfa} {w : List Nat}

theorem prune_complete (hd : d.Complete) : d.prune.Complete :=
  (prune_retract hd.toClosed hd.dead.step).complete hd

theorem prune_acceptsAsAfter (hd : d.Complete) (hw : ∀ c ∈ w, c < d.alphaSize) :
    d.AcceptsAsAfter d.prune w := by
  apply (prune_retract hd.toClosed hd.dead.step).acceptsAsAfter _ hw
  rintro s _ _ _ rfl
  exact .refl _

/-- States of one block accept alike, since blocks are only ever split. -/
theorem Refined.acceptsAs {b : Nat} {p : Partition} (h : Refined d b p) {s t : Nat}
    (hs : s < d.size) (ht : t < d.size) (hst : p.Same s t) :
    (d.state s).AcceptsAs (d.state t) :=
  .of_acceptance (initial_acceptance hs ht (h.refines.same s hs t ht hst))

theorem merge_acceptsAsAfter (hd : d.Complete) (hw : ∀ c ∈ w, c < d.alphaSize) :
    d.AcceptsAsAfter (d.merge d.refinedPartition) w := by
  have h := refinedPartition_refined hd.toClosed hd.dead.accept
  exact (merge_retract hd.toClosed h).acceptsAsAfter (fun s t hs ht hst => h.acceptsAs hs ht hst) hw

theorem minimize_complete (hd : d.Complete) : d.minimize.Complete :=
  (minimize_retract hd.toClosed hd.dead).complete (prune_complete hd)

theorem minimize_acceptsAsAfter (hd : d.Complete) (hw : ∀ c ∈ w, c < d.alphaSize) :
    d.AcceptsAsAfter d.minimize w :=
  (prune_acceptsAsAfter hd hw).trans (merge_acceptsAsAfter (prune_complete hd) hw)

/-- Minimising a complete automaton gives a complete one over the same classes. Behind every word
of classes the two accept alike, whichever start the word is read from. -/
theorem minimized_keeps_acceptance {tuning : Tuning} (hmin : tuning.minimize = true)
    (hd : d.Complete) :
    (tuning.minimized d).Complete ∧ (tuning.minimized d).alphaSize = d.alphaSize ∧
      ∀ w : List Nat, (∀ c ∈ w, c < d.alphaSize) → d.AcceptsAsAfter (tuning.minimized d) w := by
  unfold Tuning.minimized
  rw [if_pos hmin]
  exact ⟨minimize_complete hd, rfl, fun w hw => minimize_acceptsAsAfter hd hw⟩

/-! ## Two ways to accept -/

/-- States 2 and 3 accept alike and are merged, state 4 accepts with another priority, and nothing
leads to state 5. -/
def twoWays : Dfa where
  direction := .forward
  alphaSize := 3
  symbolClass := #[]
  startOther := 1
  startWord := 2
  wordSensitive := true
  states := #[
    { next := #[0, 0, 0] },
    { next := #[2, 3, 4] },
    { accept := .always, priority := 1, next := #[1, 0, 2] },
    { accept := .always, priority := 1, next := #[1, 0, 3] },
    { accept := .always, priority := 2, next := #[1, 0, 3] },
    { accept := .beforeWord, next := #[5, 5, 5] }]

theorem twoWays_complete : twoWays.Complete where
  startOther := by decide
  startWord := by decide
  step := by decide
  dead := ⟨rfl, by decide⟩
  width := by decide

theorem minimized_keeps_acceptance_twoWays :
    twoWays.Complete ∧ ∃ e, ({} : Tuning).minimized twoWays = e ∧ e.Complete ∧
      twoWays.AcceptsAsAfter e [0, 2, 0, 1] ∧
      (e.state (e.run e.startOther [0, 2, 0, 1])).accept = .always ∧
      (e.state (e.run e.startOther [0, 2, 0, 1])).priority = 1 := by
  obtain ⟨hcomplete, _, hruns⟩ :=
    minimized_keeps_acceptance (show ({} : Tuning).minimize = true from rfl) twoWays_complete
  have hrun := hruns [0, 2, 0, 1] (by decide)
  refine ⟨twoWays_complete, _, rfl, hcomplete, hrun, ?_, ?_⟩
  · rw [← hrun.1.accept]
    rfl
  · rw [← hrun.1.priority rfl]
    rfl

end ByteRegex.Dfa
