-- Numbering the sets: every set that is met gets a number that it keeps, and
-- the rows of the numbers lead where the sets lead.
import ByteRegex.Dfa.Worklist
import ByteRegex.Proofs.Dfa.Machine
import ByteRegex.Proofs.Table.Encode
import Mathlib.Data.List.Forall2
import Mathlib.Data.List.GetD
import Mathlib.Data.List.Perm.Subperm

namespace ByteRegex.Dfa

variable {σ : Type} [BEq σ] [Hashable σ] [LawfulBEq σ] {limit : Nat}

/-! ## Numbers -/

namespace Numbering

/-- The number that is noted for a set is its place. -/
def Valid (n : Numbering σ limit) : Prop := 
  ∀ (s : σ) (i : Nat), n.ids[s]? = some i → n.sets[i]? = some s

/-- All sets keep their numbers. -/
def Extends (sets sets' : Array σ) : Prop :=
  ∀ (i : Nat) (s : σ), sets[i]? = some s → sets'[i]? = some s

/-- The numbers of a list are those of the sets of another. -/
def Numbers (sets : Array σ) (is : List Nat) (ss : List σ) : Prop :=
  List.Forall₂ (fun i s => sets[i]? = some s) is ss

omit [BEq σ] [Hashable σ] [LawfulBEq σ] in
theorem Extends.trans {a b c : Array σ} (h : Extends a b) (h' : Extends b c) : Extends a c :=
  fun i s hs => h' i s (h i s hs)

omit [BEq σ] [Hashable σ] [LawfulBEq σ] in
theorem Extends.size_le {a b : Array σ} (h : Extends a b) : a.size ≤ b.size := by
  rcases Nat.eq_zero_or_pos a.size with h0 | h0
  · omega
  · have hlast := h (a.size - 1) a[a.size - 1] (Array.getElem?_eq_getElem (by omega))
    have := (Array.getElem?_eq_some_iff.1 hlast).1
    omega

omit [BEq σ] [Hashable σ] [LawfulBEq σ] in
theorem Numbers.mono {a b : Array σ} {is : List Nat} {ss : List σ} (h : Numbers a is ss)
    (hab : Extends a b) : Numbers b is ss := List.Forall₂.imp (fun i s hs => hab i s hs) h

omit [BEq σ] [Hashable σ] [LawfulBEq σ] in
theorem Numbers.mem {sets : Array σ} {is : List Nat} {ss : List σ} {s : σ}
    (h : Numbers sets is ss) (hs : s ∈ ss) : ∃ i : Nat, sets[i]? = some s := by
  induction h with
  | nil => cases hs
  | cons hi _ ih =>
    rcases List.mem_cons.1 hs with rfl | hs
    · exact ⟨_, hi⟩
    · exact ih hs

omit [BEq σ] [Hashable σ] [LawfulBEq σ] in
theorem Numbers.lt_size {sets : Array σ} {is : List Nat} {ss : List σ} {i : Nat}
    (h : Numbers sets is ss) (hi : i ∈ is) : i < sets.size := by
  induction h with
  | nil => cases hi
  | cons hj _ ih =>
    rcases List.mem_cons.1 hi with rfl | hi
    · exact (Array.getElem?_eq_some_iff.1 hj).1
    · exact ih hi

omit [BEq σ] [Hashable σ] [LawfulBEq σ] in
theorem Numbers.getD {sets : Array σ} {is : List Nat} {ss : List σ} {c : Nat} (d : σ)
    (h : Numbers sets is ss) (hc : c < ss.length) :
    sets[is.getD c 0]? = some (ss.getD c d) := by
  induction h generalizing c with
  | nil => cases hc
  | cons hi _ ih =>
    cases c with
    | zero => exact hi
    | succ c => exact ih (Nat.lt_of_succ_lt_succ hc)

theorem start_valid (dead : σ) : (start limit dead).Valid := by
  intro s i h
  simp only [start, Std.HashMap.ofList_singleton, Std.HashMap.getElem?_insert,
    Std.HashMap.getElem?_empty] at h
  split at h
  · rename_i heq
    rw [← Option.some.inj h, ← eq_of_beq heq]
    rfl
  · cases h

omit [LawfulBEq σ] in
/-- A set that has a number keeps it, and a new one gets the next. -/
theorem number?_cases {n n' : Numbering σ limit} {s : σ} {i : Nat}
    (h : n.number? s = some (i, n')) :
    (n.ids[s]? = some i ∧ n' = n) ∨
      (n.ids[s]? = none ∧ i = n.sets.size ∧ n'.sets = n.sets.push s ∧
        n'.ids = n.ids.insert s i) := by
  rw [number?] at h
  split at h
  · rename_i j hj
    obtain ⟨rfl, rfl⟩ := Prod.mk.inj (Option.some.inj h)
    exact Or.inl ⟨hj, rfl⟩
  · rename_i hnew
    split at h
    · obtain ⟨rfl, rfl⟩ := Prod.mk.inj (Option.some.inj h)
      exact Or.inr ⟨hnew, rfl, rfl, rfl⟩
    · cases h

theorem number?_spec {n n' : Numbering σ limit} {s : σ} {i : Nat} (hn : n.Valid)
    (h : n.number? s = some (i, n')) :
    n'.Valid ∧ Extends n.sets n'.sets ∧ n'.sets[i]? = some s := by
  rcases number?_cases h with ⟨hi, rfl⟩ | ⟨_, rfl, hsets, hids⟩
  · exact ⟨hn, fun _ _ => id, hn s i hi⟩
  · have hext : Extends n.sets (n.sets.push s) := by
      intro j u hu
      rw [Array.getElem?_push, if_neg (Nat.ne_of_lt (Array.getElem?_eq_some_iff.1 hu).1)]
      exact hu
    rw [Valid, hsets, hids]
    refine ⟨fun u j hj => ?_, hext, Array.getElem?_push_size⟩
    simp only [Std.HashMap.getElem?_insert] at hj
    split at hj
    · rename_i heq
      rw [← Option.some.inj hj, ← eq_of_beq heq]
      exact Array.getElem?_push_size
    · exact hext j u (hn u j hj)

omit [LawfulBEq σ] in
/-- The sets of a list are numbered one after another. -/
theorem numberAll?_cons {n n' : Numbering σ limit} {s : σ} {rest : List σ} {is : List Nat}
    (h : n.numberAll? (s :: rest) = some (is, n')) :
    ∃ i n1 js, n.number? s = some (i, n1) ∧ n1.numberAll? rest = some (js, n') ∧ is = i :: js := by
  rw [numberAll?] at h
  split at h
  · cases h
  · rename_i i n1 h1
    split at h
    · cases h
    · rename_i js n2 h2
      obtain ⟨rfl, rfl⟩ := Prod.mk.inj (Option.some.inj h)
      exact ⟨i, n1, js, h1, h2, rfl⟩

theorem numberAll?_spec {n n' : Numbering σ limit} {ss : List σ} {is : List Nat} (hn : n.Valid)
    (h : n.numberAll? ss = some (is, n')) :
    n'.Valid ∧ Extends n.sets n'.sets ∧ Numbers n'.sets is ss := by
  induction ss generalizing n is with
  | nil =>
    obtain ⟨rfl, rfl⟩ := Prod.mk.inj (Option.some.inj h)
    exact ⟨hn, fun _ _ => id, .nil⟩
  | cons s rest ih =>
    obtain ⟨i, n1, js, h1, h2, rfl⟩ := numberAll?_cons h
    obtain ⟨hv1, he1, hs⟩ := number?_spec hn h1
    obtain ⟨hv2, he2, hrest⟩ := ih hv1 h2
    exact ⟨hv2, he1.trans he2, .cons (he2 _ _ hs) hrest⟩

end Numbering

open Dfa.Numbering

/-! ## Rows -/

variable {a : SetAutomaton σ}

/-- The row of a number leads to the numbers of the successors of its set. -/
def Row (a : SetAutomaton σ) (sets : Array σ) (s : σ) (st : State) : Prop :=
  ∃ next, st = stateOf a s next ∧ Numbers sets next (a.successors s)

omit [BEq σ] [Hashable σ] [LawfulBEq σ] in
theorem Row.mono {sets sets' : Array σ} {s : σ} {st : State} (h : Row a sets s st)
    (he : Extends sets sets') : Row a sets' s st := by
  obtain ⟨next, hst, hn⟩ := h
  exact ⟨next, hst, hn.mono he⟩

omit [BEq σ] [Hashable σ] [LawfulBEq σ] in
/-- A row holds what its set reports. -/
theorem Row.report {sets : Array σ} {s : σ} {st : State} (h : Row a sets s st) :
    (st.accept, st.priority) = a.report s := by
  obtain ⟨next, rfl, _⟩ := h
  rfl

omit [BEq σ] [Hashable σ] [LawfulBEq σ] in
theorem Row.width {sets : Array σ} {s : σ} {st : State} (h : Row a sets s st) :
    st.next.size = (a.successors s).length := by
  obtain ⟨next, rfl, hnext⟩ := h
  exact hnext.length_eq

omit [BEq σ] [Hashable σ] [LawfulBEq σ] in
theorem Row.leads {sets : Array σ} {s t : σ} {st : State} (h : Row a sets s st) {c : Nat}
    (ht : (a.successors s)[c]? = some t) : sets[st.next.getD c 0]? = some t := by
  obtain ⟨next, rfl, hnext⟩ := h
  have hget := hnext.getD t (List.getElem?_eq_some_iff.1 ht).1
  rw [List.getD_eq_getElem?_getD (l := a.successors s), ht] at hget
  have hrow : next.toArray.getD c 0 = next.getD c 0 := by
    rw [Array.getD_eq_getD_getElem?, List.getElem?_toArray, ← List.getD_eq_getElem?_getD]
  rw [show (stateOf a s next).next = next.toArray from rfl, hrow]
  exact hget

theorem fillRows_spec {n : Numbering σ limit} {i : Nat} {rows rows' : Array State}
    {sets : Array σ} (h : fillRows a n i rows = .ok (rows', sets)) (hn : n.Valid)
    (hi : 1 ≤ i) (hle : i ≤ n.sets.size) (hsize : rows.size = i)
    (hrows : ∀ (j : Nat) (s : σ), 1 ≤ j → j < i → n.sets[j]? = some s →
      ∃ st, rows[j]? = some st ∧ Row a n.sets s st) :
    Extends n.sets sets ∧ rows'.size = sets.size ∧ rows'[0]? = rows[0]? ∧
      ∀ (j : Nat) (s : σ), 1 ≤ j → sets[j]? = some s →
        ∃ st, rows'[j]? = some st ∧ Row a sets s st := by
  fun_induction fillRows a n i rows with
  | case1 => cases h
  | case2 n i rows hlt _ s next n' hnum ih =>
    obtain ⟨hv, he, hnext⟩ := numberAll?_spec hn hnum
    have hs : n'.sets[i]? = some s := he i s (Array.getElem?_eq_getElem hlt)
    obtain ⟨h1, h2, h3, h4⟩ := ih h hv (by omega)
      (Nat.lt_of_lt_of_le hlt he.size_le) (by simp [hsize]) (fun j u hj hji hu => by
        rw [Array.getElem?_push, hsize]
        rcases Nat.lt_succ_iff_lt_or_eq.1 hji with hlt' | rfl
        · obtain ⟨st, hst, hrow⟩ := hrows j n.sets[j] hj hlt'
            (Array.getElem?_eq_getElem (by omega))
          have hju := he j _ (Array.getElem?_eq_getElem (show j < n.sets.size by omega))
          rw [hu] at hju
          rw [if_neg (by omega), Option.some.inj hju]
          exact ⟨st, hst, hrow.mono he⟩
        · rw [hs] at hu
          rw [if_pos rfl, ← Option.some.inj hu]
          exact ⟨_, rfl, next, rfl, hnext⟩)
    refine ⟨he.trans h1, h2, ?_, h4⟩
    rw [h3, Array.getElem?_push, if_neg (by omega)]
  | case3 n i rows hlt =>
    obtain ⟨rfl, rfl⟩ := Prod.mk.inj (Except.ok.inj h)
    refine ⟨fun _ _ => id, by omega, rfl, fun j s hj hs => ?_⟩
    have := (Array.getElem?_eq_some_iff.1 hs).1
    exact hrows j s hj (by omega) hs

/-- The states stand for the sets: state 0 for the dead one, and the others lead where their sets
lead. -/
structure Numbered (a : SetAutomaton σ) (classes : Nat) (states : Array State)
    (sets : Array σ) : Prop where
  size_eq : states.size = sets.size
  dead : sets[0]? = some a.dead
  first : states[0]? = some (stateOf a a.dead (List.replicate classes 0))
  initial : ∀ s ∈ a.initial, ∃ i : Nat, sets[i]? = some s
  row : ∀ (i : Nat) (s : σ), 1 ≤ i → sets[i]? = some s →
    ∃ st, states[i]? = some st ∧ Row a sets s st

omit [LawfulBEq σ] in
/-- First the sets to start from are numbered, and then the rows are filled behind the dead one. -/
theorem determinize_ok {classes : Nat} {states : Array State} {sets : Array σ}
    (h : determinize a classes limit = .ok (states, sets)) :
    ∃ is n, (Numbering.start limit a.dead).numberAll? a.initial = some (is, n) ∧
      fillRows a n 1 #[stateOf a a.dead (List.replicate classes 0)] = .ok (states, sets) := by
  rw [determinize] at h
  split at h
  · cases h
  · rename_i is n hnum
    exact ⟨is, n, hnum, h⟩

omit [LawfulBEq σ] in
theorem fillRows_error {n : Numbering σ limit} {i : Nat} {rows left : Array State}
    (h : fillRows a n i rows = .error left) : left = #[] := by
  fun_induction fillRows a n i rows with
  | case1 => exact (Except.error.inj h).symm
  | case2 n i rows hlt _ s next n' hnum ih => exact ih h
  | case3 => cases h

omit [LawfulBEq σ] in
/-- A construction that gives up leaves no states, wherever it does so. -/
theorem determinize_error {classes : Nat} {left : Array State}
    (h : determinize a classes limit = .error left) : left = #[] := by
  rw [determinize] at h
  split at h
  · exact (Except.error.inj h).symm
  · exact fillRows_error h

theorem determinize_numbered {classes : Nat} {states : Array State} {sets : Array σ}
    (h : determinize a classes limit = .ok (states, sets)) :
    Numbered a classes states sets := by
  obtain ⟨is, n, hnum, hrows⟩ := determinize_ok h
  obtain ⟨hv, he, hinit⟩ := numberAll?_spec (start_valid a.dead) hnum
  have hsize := he.size_le
  obtain ⟨h1, h2, h3, h4⟩ := fillRows_spec hrows hv (Nat.le_refl 1) hsize rfl
    (fun j s hj hj' => by omega)
  refine ⟨h2, h1 0 _ (he 0 _ rfl), h3.trans rfl, fun s hs => ?_, h4⟩
  exact (hinit.mono h1).mem hs

/-! ## The automaton of the sets -/

omit [BEq σ] [Hashable σ] [LawfulBEq σ] in
/-- An automaton of sets with two of them to start from. -/
def SetAutomaton.machine (a : SetAutomaton σ) (startOther startWord : σ) : Machine σ :=
  ⟨a.dead, startOther, startWord, fun s c => (a.successors s).getD c a.dead,
    fun s => (a.report s).1⟩

/-- From the sets where `Idle` holds no other sets are met, and none of them accepts. -/
structure Idling (a : SetAutomaton σ) (classes : Nat) (Idle : σ → Prop) : Prop where
  dead : Idle a.dead
  report : ∀ s, Idle s → (a.report s).1 = .never
  successors : ∀ s, Idle s → ∀ t ∈ a.successors s, Idle t
  length : ∀ s, (a.successors s).length = classes

variable {classes : Nat} {states : Array State} {sets : Array σ} {Idle : σ → Prop}
  {startOther startWord : σ} {d : Dfa}

omit [BEq σ] [Hashable σ] [LawfulBEq σ] in
theorem Idling.getD (h : Idling a classes Idle) {s : σ} (hs : Idle s) (c : Nat) :
    Idle ((a.successors s).getD c a.dead) := by
  rw [List.getD_eq_getElem?_getD]
  rcases hc : (a.successors s)[c]? with _ | t
  · exact h.dead
  · exact h.successors s hs t (List.mem_of_getElem? hc)

omit [BEq σ] [Hashable σ] [LawfulBEq σ] in
theorem Idling.getElem? (h : Idling a classes Idle) (s : σ) {c : Nat} (hc : c < classes) :
    (a.successors s)[c]? = some ((a.successors s).getD c a.dead) := by
  rw [List.getD_eq_getElem?_getD, List.getElem?_eq_getElem (h.length s ▸ hc)]
  rfl

/-- The set of a number: the dead state may stand for any set from which nothing is accepted. -/
def StandsFor (sets : Array σ) (Idle : σ → Prop) (s : σ) (i : Nat) : Prop :=
  (1 ≤ i ∧ sets[i]? = some s) ∨ (i = 0 ∧ Idle s)

omit [BEq σ] [Hashable σ] [LawfulBEq σ] in
theorem state_eq {i : Nat} {st : State} (hd : d.states = states) (hst : states[i]? = some st) :
    d.state i = st := by
  rw [Dfa.state, hd, Array.getD_eq_getD_getElem?, hst]
  rfl

namespace Numbered

omit [BEq σ] [Hashable σ] [LawfulBEq σ] in
/-- The dead state leads only to itself. -/
theorem step_zero (h : Numbered a classes states sets) (hd : d.states = states) {c : Nat}
    (hc : c < classes) : d.step 0 c = 0 := by
  rw [step, state_eq hd h.first, stateOf, Array.getD_eq_getD_getElem?, List.getElem?_toArray,
    ← List.getD_eq_getElem?_getD, List.getD_replicate _ hc]

omit [BEq σ] [Hashable σ] [LawfulBEq σ] in
theorem standsFor (h : Numbered a classes states sets) (hidle : Idling a classes Idle) {s : σ}
    {i : Nat} (hs : sets[i]? = some s) : StandsFor sets Idle s i := by
  rcases Nat.eq_zero_or_pos i with rfl | hi
  · rw [h.dead] at hs
    exact Or.inr ⟨rfl, Option.some.inj hs ▸ hidle.dead⟩
  · exact Or.inl ⟨hi, hs⟩

omit [BEq σ] [Hashable σ] [LawfulBEq σ] in
theorem getElem?_idxOf [BEq σ] [LawfulBEq σ] (h : Numbered a classes states sets) {s : σ}
    (hs : s ∈ a.initial) : sets[sets.idxOf s]? = some s := by
  obtain ⟨i, hi⟩ := h.initial s hs
  have hmem : s ∈ sets := Array.mem_of_getElem? hi
  have hlt := Array.idxOf_lt_length_of_mem hmem
  rw [Array.getElem?_eq_getElem hlt]
  exact congrArg some (eq_of_beq (Array.findIdx_getElem (p := (· == s)) (w := hlt)))

omit [BEq σ] [Hashable σ] [LawfulBEq σ] in
/-- From the number of a set the class leads to the number of its successor. -/
theorem leads (h : Numbered a classes states sets) (hd : d.states = states) {i c : Nat} {s t : σ}
    (hi : 1 ≤ i) (hs : sets[i]? = some s) (ht : (a.successors s)[c]? = some t) :
    sets[d.step i c]? = some t := by
  obtain ⟨st, hst, hrow⟩ := h.row i s hi hs
  rw [step, state_eq hd hst]
  exact hrow.leads ht

omit [BEq σ] [Hashable σ] [LawfulBEq σ] in
/-- The states of the numbers accept behind the words behind which the sets do. -/
theorem alike (h : Numbered a classes states sets) (hidle : Idling a classes Idle)
    (hd : d.states = states) {s : σ} {i : Nat} (hs : StandsFor sets Idle s i) :
    Machine.Alike classes (a.machine startOther startWord) s d.machine i := by
  refine Machine.Alike.of_bisim (R := StandsFor sets Idle) ?_ ?_ hs
  · rintro s i (⟨hi, hs⟩ | ⟨rfl, hs⟩)
    · obtain ⟨st, hst, next, rfl, _⟩ := h.row i s hi hs
      rw [show d.machine.accept i = (d.state i).accept from rfl, state_eq hd hst]
      rfl
    · rw [show d.machine.accept 0 = (d.state 0).accept from rfl, state_eq hd h.first]
      exact (hidle.report s hs).trans (hidle.report _ hidle.dead).symm
  · rintro s i c (⟨hi, hs⟩ | ⟨rfl, hs⟩) hc
    · exact h.standsFor hidle (h.leads hd hi hs (hidle.getElem? s hc))
    · exact Or.inr ⟨h.step_zero hd hc, hidle.getD hs c⟩

omit [BEq σ] [Hashable σ] [LawfulBEq σ] in
theorem closed (h : Numbered a classes states sets) (hidle : Idling a classes Idle)
    (hd : d.states = states) (hclasses : d.alphaSize = classes)
    (ho : StandsFor sets Idle startOther d.startOther)
    (hw : StandsFor sets Idle startWord d.startWord) : d.Closed := by
  have hsize : d.size = sets.size := by rw [Dfa.size, hd, h.size_eq]
  have hpos : 0 < d.size := by
    rw [hsize]
    exact (Array.getElem?_eq_some_iff.1 h.dead).1
  have hlt : ∀ s i, StandsFor sets Idle s i → i < d.size := by
    rintro s i (⟨_, hs⟩ | ⟨rfl, _⟩)
    · rw [hsize]
      exact (Array.getElem?_eq_some_iff.1 hs).1
    · exact hpos
  refine ⟨hlt _ _ ho, hlt _ _ hw, fun i hi c hc => ?_⟩
  rcases Nat.eq_zero_or_pos i with rfl | hipos
  · rw [h.step_zero hd (hclasses ▸ hc)]
    exact hpos
  · obtain ⟨s, hs⟩ : ∃ s, sets[i]? = some s := ⟨_, Array.getElem?_eq_getElem (by omega)⟩
    exact hlt _ _ (h.standsFor hidle (h.leads hd hipos hs (hidle.getElem? s (hclasses ▸ hc))))

end Numbered

/-! ## Within the limit -/

namespace Numbering

/-- The sets differ, their numbers are noted, and all of them are in a list. -/
structure Within (n : Numbering σ limit) (S : List σ) : Prop where
  nodup : n.sets.toList.Nodup
  noted : ∀ s ∈ n.sets, n.ids[s]?.isSome = true
  subset : n.sets.toList ⊆ S

variable {S : List σ}

theorem noted_push {n : Numbering σ limit} (h : ∀ s ∈ n.sets, n.ids[s]?.isSome = true) (s : σ) :
    ∀ u ∈ n.sets.push s, (n.ids.insert s n.sets.size)[u]?.isSome = true := by
  intro u hu
  rw [Std.HashMap.getElem?_insert]
  split
  · rfl
  · rename_i hne
    rcases Array.mem_push.1 hu with hu | rfl
    · exact h u hu
    · exact absurd (beq_self_eq_true u) hne

theorem start_within {dead : σ} (h : dead ∈ S) : (start limit dead).Within S := by
  refine ⟨by simp [start], fun s hs => ?_, fun s hs => ?_⟩
  · obtain rfl : s = dead := by simpa [start] using hs
    simp [start, Std.HashMap.ofList_singleton]
  · obtain rfl : s = dead := by simpa [start] using hs
    exact h

/-- A set of the list can be numbered, if the limit allows for the whole list. -/
theorem number?_within {n : Numbering σ limit} (h : n.Within S) (hS : S.length ≤ limit) {s : σ}
    (hs : s ∈ S) : ∃ i n', n.number? s = some (i, n') ∧ n'.Within S := by
  rw [number?]
  cases hid : n.ids[s]? with
  | some i => exact ⟨i, n, rfl, h⟩
  | none =>
    have hnew : s ∉ n.sets := by
      intro hmem
      have := h.noted s hmem
      rw [hid] at this
      cases this
    have hnodup : (n.sets.push s).toList.Nodup := by
      rw [Array.toList_push, List.nodup_append]
      refine ⟨h.nodup, by simp, fun a ha b hb heq => hnew ?_⟩
      rw [← List.mem_singleton.1 hb, ← heq]
      exact Array.mem_toList_iff.1 ha
    have hsubset : (n.sets.push s).toList ⊆ S := by
      intro u hu
      rw [Array.toList_push, List.mem_append, List.mem_singleton] at hu
      rcases hu with hu | rfl
      · exact h.subset hu
      · exact hs
    have hlt : n.sets.size < limit := by
      have := (List.subperm_of_subset hnodup hsubset).length_le
      rw [Array.length_toList, Array.size_push] at this
      omega
    simp only [dif_pos hlt]
    exact ⟨_, _, rfl, hnodup, noted_push h.noted s, hsubset⟩

theorem numberAll?_within {n : Numbering σ limit} (h : n.Within S) (hS : S.length ≤ limit)
    {ss : List σ} (hss : ∀ s ∈ ss, s ∈ S) :
    ∃ is n', n.numberAll? ss = some (is, n') ∧ n'.Within S := by
  induction ss generalizing n with
  | nil => exact ⟨[], n, rfl, h⟩
  | cons s rest ih =>
    obtain ⟨i, n1, h1, hn1⟩ := number?_within h hS (hss s List.mem_cons_self)
    obtain ⟨is, n2, h2, hn2⟩ := ih hn1 fun u hu => hss u (List.mem_cons_of_mem s hu)
    exact ⟨i :: is, n2, by rw [numberAll?, h1]; simp only [h2], hn2⟩

end Numbering

theorem fillRows_within {S : List σ} (hS : S.length ≤ limit)
    (hsucc : ∀ s ∈ S, ∀ t ∈ a.successors s, t ∈ S) {n : Numbering σ limit} {i : Nat}
    {rows : Array State} (h : n.Within S) : ∃ r, fillRows a n i rows = .ok r := by
  fun_induction fillRows a n i rows with
  | case1 n i rows hlt _ s hnum =>
    obtain ⟨is, n', hn', _⟩ := numberAll?_within h hS
      (hsucc s (h.subset (Array.mem_toList_iff.2 (Array.getElem_mem hlt))))
    rw [hnum] at hn'
    cases hn'
  | case2 n i rows hlt _ s next n' hnum ih =>
    obtain ⟨is, n1, hn1, hw⟩ := numberAll?_within h hS
      (hsucc s (h.subset (Array.mem_toList_iff.2 (Array.getElem_mem hlt))))
    rw [hnum] at hn1
    obtain ⟨rfl, rfl⟩ := Prod.mk.inj (Option.some.inj hn1)
    exact ih hw
  | case3 n i rows hlt => exact ⟨_, rfl⟩

/-- A construction does not give up if all sets are in a list that the limit allows for. -/
theorem determinize_within {S : List σ} (hS : S.length ≤ limit) (hdead : a.dead ∈ S)
    (hinit : ∀ s ∈ a.initial, s ∈ S) (hsucc : ∀ s ∈ S, ∀ t ∈ a.successors s, t ∈ S) :
    ∃ r, determinize a classes limit = .ok r := by
  obtain ⟨is, n, hn, hw⟩ := numberAll?_within (start_within hdead) hS hinit
  obtain ⟨r, hr⟩ := fillRows_within hS hsucc (i := 1)
    hw
  exact ⟨r, by rw [determinize, hn]; exact hr⟩

omit [LawfulBEq σ] in
theorem fillRows_size_le {n : Numbering σ limit} {i : Nat} {rows rows' : Array State}
    {sets : Array σ} (h : fillRows a n i rows = .ok (rows', sets)) : sets.size ≤ max 1 limit := by
  fun_induction fillRows a n i rows with
  | case1 => cases h
  | case2 n i rows hlt _ s next n' hnum ih => exact ih h
  | case3 n i rows hlt =>
    obtain ⟨_, rfl⟩ := Prod.mk.inj (Except.ok.inj h)
    exact n.size_le

/-- A construction makes no more states than the limit allows. -/
theorem determinize_size_le (h : determinize a classes limit = .ok (states, sets)) :
    states.size ≤ max 1 limit := by
  obtain ⟨_, _, _, hrows⟩ := determinize_ok h
  rw [(determinize_numbered h).size_eq]
  exact fillRows_size_le hrows

end ByteRegex.Dfa
