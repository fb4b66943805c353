-- Where threads accept. As long as no thread has shut out others, every state
-- that matters and can be reached holds a thread, so the first end that is met
-- is the first one that can be reached.
import ByteRegex.Proofs.Dfa.Subset
import ByteRegex.Proofs.Walk
import Mathlib.Data.List.TakeWhile

namespace ByteRegex.Dfa.Subset

open Walk (Reach Visits)

variable {c : Subset} {n : Nfa} {data : Bytes}

/-! ## Free moves -/

theorem mem_freeTargets {ctx : Option LookContext} {s t : Nat} :
    t ∈ freeTargets n ctx s ↔ ∃ e ∈ (n.state s).edges.toList, freeTarget? ctx e = some t := by
  rw [freeTargets, List.mem_filterMap]

theorem free_move {i s t : Nat} (h : t ∈ freeTargets n (some (placeOf data i)) s) :
    (t, i) ∈ n.moves data (s, i) := by
  obtain ⟨e, he, ht⟩ := mem_freeTargets.1 h
  refine Nfa.mem_moves.2 ⟨e, he, ?_⟩
  cases e with
  | eps u => rw [← Option.some.inj ht, Nfa.Edge.next?]
  | bytes lo hi u => cases ht
  | look k u =>
    simp only [freeTarget?, Option.any_some] at ht
    split at ht
    · rename_i hk
      exact Nfa.next?_look.2 ⟨hk, by rw [Option.some.inj ht]⟩
    · cases ht

theorem free_of_none {ctx : LookContext} {s t : Nat} (h : t ∈ freeTargets n none s) :
    t ∈ freeTargets n (some ctx) s := by
  obtain ⟨e, he, ht⟩ := mem_freeTargets.1 h
  refine mem_freeTargets.2 ⟨e, he, ?_⟩
  cases e with
  | eps u => exact ht
  | bytes lo hi u => cases ht
  | look k u => simp [freeTarget?] at ht

theorem byte_move {i s t : Nat} (hi : i < data.size)
    (h : t ∈ (n.state s).byteTargets (data.getD i 0)) : (t, i + 1) ∈ n.moves data (s, i) := by
  obtain ⟨b, hb⟩ : ∃ b, data[i]? = some b := ⟨_, Array.getElem?_eq_getElem hi⟩
  rw [Array.getD_eq_getD_getElem?, hb, Option.getD_some] at h
  obtain ⟨e, he, ht⟩ := List.mem_filterMap.1 h
  refine Nfa.mem_moves.2 ⟨e, he, ?_⟩
  cases e with
  | eps u => cases ht
  | bytes lo hi' u =>
    rw [byteTarget?] at ht
    split at ht
    · rename_i hlohi
      rw [Bool.and_eq_true, decide_eq_true_eq, decide_eq_true_eq] at hlohi
      exact Nfa.next?_bytes.2 ⟨b, hb, hlohi.1, hlohi.2, by rw [Option.some.inj ht]⟩
    · cases ht
  | look k u => cases ht

/-- A move is free or takes the next byte. -/
theorem move_cases {i s : Nat} {d : Nat × Nat} (h : d ∈ n.moves data (s, i)) :
    (d.2 = i ∧ d.1 ∈ freeTargets n (some (placeOf data i)) s) ∨
      (i < data.size ∧ d.2 = i + 1 ∧ d.1 ∈ (n.state s).byteTargets (data.getD i 0)) := by
  obtain ⟨e, he, hn⟩ := Nfa.mem_moves.1 h
  cases e with
  | eps u =>
    rw [← Option.some.inj hn]
    exact Or.inl ⟨rfl, mem_freeTargets.2 ⟨_, he, rfl⟩⟩
  | bytes lo hi u =>
    obtain ⟨b, hb, h1, h2, rfl⟩ := Nfa.next?_bytes.1 hn
    have hi := (Array.getElem?_eq_some_iff.1 hb).1
    refine Or.inr ⟨hi, rfl, List.mem_filterMap.2 ⟨_, he, ?_⟩⟩
    rw [byteTarget?, Array.getD_eq_getD_getElem?, hb, Option.getD_some, decide_eq_true h1,
      decide_eq_true h2]
    rfl
  | look k u =>
    obtain ⟨hk, rfl⟩ := Nfa.next?_look.1 hn
    refine Or.inl ⟨rfl, mem_freeTargets.2 ⟨_, he, ?_⟩⟩
    dsimp only at hk
    rw [freeTarget?, Option.any_some, hk]
    rfl

theorem steps_of_reach {i s t : Nat} (h : Reach (freeTargets n (some (placeOf data i))) s t) :
    n.Steps data (s, i) (t, i) := by
  induction h with
  | refl => exact Nfa.Steps.refl _
  | tail _ ht ih => exact ih.tail (free_move ht)

theorem reach_of_none {ctx : LookContext} {s t : Nat} (h : Reach (freeTargets n none) s t) :
    Reach (freeTargets n (some ctx)) s t := by
  induction h with
  | refl => exact Reach.refl _
  | tail _ ht ih => exact ih.tail (free_of_none ht)

/-! ## States that matter -/

/-- The state matters. -/
def Important (n : Nfa) (s : Nat) : Prop := (n.state s).important = true

theorem important_of_accepting {s : Nat} (h : n.Accepting s) : Important n s := by
  rw [Important, Nfa.State.important, show (n.state s).accept.isSome = true from h, Bool.true_or]

theorem important_of_edge {s : Nat} {e : Nfa.Edge} (he : e ∈ (n.state s).edges.toList)
    (h : e.isEps = false) : Important n s := by
  rw [Important, Nfa.State.important, Bool.or_eq_true]
  refine Or.inr (Array.any_eq_true'.2 ⟨e, Array.mem_toList_iff.1 he, ?_⟩)
  rw [h]
  rfl

theorem important_of_byte {s t : Nat} {b : UInt8} (h : t ∈ (n.state s).byteTargets b) :
    Important n s := by
  obtain ⟨e, he, ht⟩ := List.mem_filterMap.1 h
  cases e with
  | eps u => cases ht
  | bytes lo hi u => exact important_of_edge he rfl
  | look k u => cases ht

/-- From a state that does not matter only empty edges lead on. -/
theorem free_none_of_not_important {ctx : LookContext} {s t : Nat} (hs : ¬ Important n s)
    (h : t ∈ freeTargets n (some ctx) s) : t ∈ freeTargets n none s := by
  obtain ⟨e, he, ht⟩ := mem_freeTargets.1 h
  refine mem_freeTargets.2 ⟨e, he, ?_⟩
  cases e with
  | eps u => exact ht
  | bytes lo hi u => cases ht
  | look k u => exact absurd (important_of_edge he rfl) hs

theorem important_lt {s : Nat} (h : Important n s) : s < n.size := by
  by_contra hc
  rw [Important, Nfa.state_of_le (Nat.le_of_not_lt hc)] at h
  simp [Nfa.State.important] at h

theorem source_lt {ctx : Option LookContext} {s t : Nat} (h : t ∈ freeTargets n ctx s) :
    s < n.size := by
  by_contra hc
  rw [freeTargets, Nfa.state_of_le (Nat.le_of_not_lt hc)] at h
  cases h

/-- On the way to a state that matters there is a first one. -/
theorem exists_first_important {ctx : LookContext} {s g : Nat}
    (h : Reach (freeTargets n (some ctx)) s g) (hg : Important n g) :
    ∃ f, Important n f ∧ Reach (freeTargets n none) s f ∧ Reach (freeTargets n (some ctx)) f g := by
  induction h using Relation.ReflTransGen.head_induction_on with
  | refl => exact ⟨g, hg, Reach.refl g, Reach.refl g⟩
  | @head s t ht hr ih =>
    by_cases hs : Important n s
    · exact ⟨s, hs, Reach.refl s, Reach.head ht hr⟩
    · obtain ⟨f, hf, h1, h2⟩ := ih
      exact ⟨f, hf, Reach.head (free_none_of_not_important hs ht) h1, h2⟩

/-! ## Closures -/

theorem mem_canonical {l : List Nat} {s : Nat} : s ∈ c.canonical l ↔ s ∈ l := by
  rw [canonical]
  cases c.kind with
  | leftmostFirst => rfl
  | all => exact mem_sortUnique

theorem mem_closure {ctx : Option LookContext} {seeds : List Nat} {s : Nat} :
    s ∈ c.closure ctx seeds ↔
      s ∈ Walk.orderUntil (freeTargets c.nfa ctx) c.shutsOut c.nfa.size seeds ∧
        Important c.nfa s := by
  rw [closure, List.mem_filter]
  rfl

theorem closure_of_trace {ctx : Option LookContext} {seeds l : List Nat} (fuel : Nat)
    (h : (Walk.trace? (freeTargets c.nfa ctx) c.shutsOut c.nfa.size fuel seeds []).map
      (·.filter fun s => (c.nfa.state s).important) = some l) : c.closure ctx seeds = l := by
  obtain ⟨o, ho, rfl⟩ := Option.map_eq_some_iff.1 h
  rw [closure, Walk.orderUntil_of_trace ho]

theorem accepting_of_shutsOut {s : Nat} (h : c.shutsOut s = true) : c.nfa.Accepting s := by
  rw [shutsOut, Bool.and_eq_true] at h
  exact h.2

/-- A closure holds only what free edges reach. -/
theorem closure_reached {ctx : Option LookContext} {seeds : List Nat} {s : Nat}
    (h : s ∈ c.closure ctx seeds) : ∃ u ∈ seeds, Reach (freeTargets c.nfa ctx) u s := by
  obtain ⟨_, hv⟩ := Walk.orderUntil_visits (freeTargets c.nfa ctx) c.shutsOut c.nfa.size seeds
  exact (hv.reached (mem_closure.1 h).1).resolve_left List.not_mem_nil

/-- A closure that nothing shuts out holds all that matters among what free edges reach. -/
theorem closure_complete {ctx : Option LookContext} {seeds : List Nat}
    (hcut : ∀ t ∈ c.closure ctx seeds, c.shutsOut t = false) {u g : Nat} (hu : u ∈ seeds)
    (h : Reach (freeTargets c.nfa ctx) u g) (hg : Important c.nfa g) : g ∈ c.closure ctx seeds := by
  obtain ⟨b, hv⟩ := Walk.orderUntil_visits (freeTargets c.nfa ctx) c.shutsOut c.nfa.size seeds
  cases b with
  | true =>
    obtain ⟨o, v, heq, hstop, _⟩ := hv.stopped
    have hmem : v ∈ c.closure ctx seeds := by
      refine mem_closure.2 ⟨?_, important_of_accepting (accepting_of_shutsOut hstop)⟩
      rw [heq]
      exact List.mem_append_right _ (List.mem_singleton_self v)
    rw [hcut v hmem] at hstop
    cases hstop
  | false =>
    refine mem_closure.2 ⟨?_, hg⟩
    -- along the way every state is met
    have hlt : ∀ v, Reach (freeTargets c.nfa ctx) v g → v < c.nfa.size := by
      intro v hr
      rcases Relation.ReflTransGen.cases_head hr with rfl | ⟨w, hw, _⟩
      · exact important_lt hg
      · exact source_lt hw
    have key : ∀ v, Reach (freeTargets c.nfa ctx) v g →
        v ∈ Walk.orderUntil (freeTargets c.nfa ctx) c.shutsOut c.nfa.size seeds →
        g ∈ Walk.orderUntil (freeTargets c.nfa ctx) c.shutsOut c.nfa.size seeds := by
      intro v hr
      induction hr using Relation.ReflTransGen.head_induction_on with
      | refl => exact id
      | head hw hr ih => exact fun hv' => ih (hv.closed hv' List.not_mem_nil hw (hlt _ hr))
    exact key u h (hv.stack_mem hu (hlt u h))

/-! ## Resolving -/

theorem resolve_eq (hkind : c.kind = .leftmostFirst) {i : Nat} {seeds l l' : List Nat}
    (hl : c.closure none seeds = l) (hl' : c.closure (some (placeOf data i)) l = l') :
    c.resolve data i seeds = l' := by
  rw [resolve, hl, canonical, hkind, ← hl']

/-- All that is resolved is reached from the seeds. -/
theorem resolve_steps {i t : Nat} {seeds : List Nat} (h : t ∈ c.resolve data i seeds) :
    ∃ s ∈ seeds, c.nfa.Steps data (s, i) (t, i) := by
  obtain ⟨u, hu, hr⟩ := closure_reached h
  obtain ⟨s, hs, hr'⟩ := closure_reached (mem_canonical.1 hu)
  exact ⟨s, hs, (steps_of_reach (reach_of_none hr')).trans (steps_of_reach hr)⟩

/-- If nothing is shut out, all that matters is resolved. -/
theorem resolve_complete {i : Nat} {seeds : List Nat}
    (hcut : ∀ t ∈ c.resolve data i seeds, c.shutsOut t = false) {s g : Nat} (hs : s ∈ seeds)
    (h : Reach (freeTargets c.nfa (some (placeOf data i))) s g) (hg : Important c.nfa g) :
    g ∈ c.resolve data i seeds := by
  obtain ⟨f, hf, h1, h2⟩ := exists_first_important h hg
  refine closure_complete hcut (mem_canonical.2 (closure_complete ?_ hs h1 hf)) h2 hg
  -- what is shut out without the looks would be so with them
  intro t ht
  by_contra hc
  have hstop : c.shutsOut t = true := by simpa using hc
  have himp := important_of_accepting (accepting_of_shutsOut hstop)
  have hmem := closure_complete hcut (mem_canonical.2 ht) (Reach.refl t) himp
  rw [hcut t hmem] at hstop
  cases hstop

/-! ## Threads and paths -/

theorem advance_steps {i t : Nat} {seeds : List Nat} (hi : i < data.size)
    (h : t ∈ c.advance data i seeds) : ∃ s ∈ seeds, c.nfa.Steps data (s, i) (t, i + 1) := by
  obtain ⟨u, hu, ht⟩ := List.mem_flatMap.1 h
  obtain ⟨s, hs, hsteps⟩ := resolve_steps ((List.takeWhile_sublist _).subset hu)
  exact ⟨s, hs, hsteps.tail (byte_move hi ht)⟩

theorem seedsAfter_steps {start k t : Nat} {seeds : List Nat} (hk : start + k ≤ data.size)
    (h : t ∈ c.seedsAfter data start seeds k) :
    ∃ s ∈ seeds, c.nfa.Steps data (s, start) (t, start + k) := by
  induction k generalizing t with
  | zero => exact ⟨t, h, Nfa.Steps.refl _⟩
  | succ k ih =>
    have hlt : start + k < data.size := hk
    obtain ⟨u, hu, hsteps⟩ := advance_steps hlt h
    obtain ⟨s, hs, hsteps'⟩ := ih (Nat.le_of_lt hlt) hu
    exact ⟨s, hs, hsteps'.trans hsteps⟩

/-- Threads accept only where a path does. -/
theorem Accepts.reaches {start i : Nat} {seeds : List Nat} (h : c.Accepts data start seeds i)
    (hstart : start ≤ i) (hi : i ≤ data.size) :
    ∃ s ∈ seeds, c.nfa.Reaches data (s, start) i := by
  obtain ⟨t, ht, hacc⟩ := h
  obtain ⟨u, hu, hsteps⟩ := resolve_steps ht
  obtain ⟨s, hs, hsteps'⟩ := seedsAfter_steps (by omega) hu
  rw [show start + (i - start) = i by omega] at hsteps'
  exact ⟨s, hs, Nfa.Reaches.iff_steps.2 ⟨t, hacc, hsteps'.trans hsteps⟩⟩

/-- Nothing is shut out before the place `i`. -/
def Uncut (c : Subset) (data : Bytes) (start : Nat) (seeds : List Nat) (i : Nat) : Prop :=
  ∀ j, start ≤ j → j < i →
    ∀ t ∈ c.resolve data j (c.seedsAfter data start seeds (j - start)), c.shutsOut t = false

/-- As long as nothing is shut out, the seeds cover every path. -/
theorem covered {start s : Nat} {seeds : List Nat} (hs : s ∈ seeds) {d : Nat × Nat}
    (h : c.nfa.Steps data (s, start) d) (hcut : c.Uncut data start seeds d.2) :
    ∃ u ∈ c.seedsAfter data start seeds (d.2 - start),
      Reach (freeTargets c.nfa (some (placeOf data d.2))) u d.1 := by
  induction h with
  | refl => exact ⟨s, by rw [Nat.sub_self]; exact hs, Reach.refl s⟩
  | @tail d d' hsteps hm ih =>
    have hle : start ≤ d.2 := Nfa.Steps.place_le hsteps
    rcases move_cases hm with ⟨hplace, hfree⟩ | ⟨hi, hplace, hbyte⟩
    · rw [hplace] at hcut ⊢
      obtain ⟨u, hu, hr⟩ := ih hcut
      exact ⟨u, hu, hr.tail hfree⟩
    · have hcut' : c.Uncut data start seeds d.2 := fun j hj hjd => hcut j hj (by omega)
      obtain ⟨u, hu, hr⟩ := ih hcut'
      have hnone := hcut d.2 hle (by omega)
      have hmem := resolve_complete hnone hu hr (important_of_byte hbyte)
      refine ⟨d'.1, ?_, Reach.refl _⟩
      rw [hplace, show d.2 + 1 - start = d.2 - start + 1 by omega, seedsAfter, advance,
        show start + (d.2 - start) = d.2 by omega,
        List.takeWhile_eq_self_iff.2 fun t ht => by rw [hnone t ht]; rfl]
      exact List.mem_flatMap.2 ⟨d.1, hmem, hbyte⟩

/-- If nothing has been shut out before, threads accept just where a path does. -/
theorem accepts_iff_reaches {start i : Nat} {seeds : List Nat} (hstart : start ≤ i)
    (hi : i ≤ data.size) (hcut : c.Uncut data start seeds i) :
    c.Accepts data start seeds i ↔ ∃ s ∈ seeds, c.nfa.Reaches data (s, start) i := by
  refine ⟨fun h => h.reaches hstart hi, ?_⟩
  rintro ⟨s, hs, hr⟩
  obtain ⟨t, hacc, hsteps⟩ := Nfa.Reaches.iff_steps.1 hr
  obtain ⟨u, hu, hreach⟩ := covered hs hsteps hcut
  by_cases hnone : ∀ v ∈ c.resolve data i (c.seedsAfter data start seeds (i - start)),
      c.shutsOut v = false
  · exact ⟨t, resolve_complete hnone hu hreach (important_of_accepting hacc), hacc⟩
  · push Not at hnone
    obtain ⟨v, hv, hstop⟩ := hnone
    exact ⟨v, hv, accepting_of_shutsOut (by simpa using hstop)⟩

/-- The first place before which threads accept is the first one before which a path does. -/
theorem leftmost_accepts {start : Nat} {seeds : List Nat} {r : Option Nat}
    (h : Leftmost (c.Accepts data start seeds) start data.size r) :
    Leftmost (fun i => ∃ s ∈ seeds, c.nfa.Reaches data (s, start) i) start data.size r := by
  have huncut : ∀ i, (∀ j, start ≤ j → j < i → ¬ c.Accepts data start seeds j) →
      c.Uncut data start seeds i := by
    intro i hnot j hj hji t ht
    by_contra hc
    exact hnot j hj hji ⟨t, ht, accepting_of_shutsOut (by simpa using hc)⟩
  cases r with
  | none =>
    intro i h1 h2
    have hcut := huncut i fun j hj hji => h j hj (by omega)
    exact fun hr => h i h1 h2 ((accepts_iff_reaches h1 h2 hcut).2 hr)
  | some e =>
    obtain ⟨h1, h2, h3, h4⟩ := h
    refine ⟨h1, h2, h3.reaches h1 h2, fun i hi hie hr => ?_⟩
    have hcut := huncut i fun j hj hji => h4 j hj (by omega)
    exact h4 i hi hie ((accepts_iff_reaches hi (by omega) hcut).2 hr)

/-- An automaton that follows all matches accepts everywhere just where a path does. -/
theorem accepts_iff_of_all (hkind : c.kind = .all) {start i : Nat} {seeds : List Nat}
    (hstart : start ≤ i) (hi : i ≤ data.size) :
    c.Accepts data start seeds i ↔ ∃ s ∈ seeds, c.nfa.Reaches data (s, start) i :=
  accepts_iff_reaches hstart hi fun _ _ _ t _ => by
    rw [shutsOut, hkind]
    rfl

end ByteRegex.Dfa.Subset
