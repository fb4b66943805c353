-- What a deterministic automaton costs. The sets are numbered in the same way
-- under every limit that allows for them, so the limit only decides whether the
-- automaton is made, not which one.
import ByteRegex.Proofs.Dfa.Limit
import ByteRegex.Proofs.Dfa.Preference

namespace ByteRegex.Dfa

variable {σ : Type} [BEq σ] [Hashable σ] {limit limit' : Nat} {a : SetAutomaton σ}

/-! ## Numbering under another limit -/

namespace Numbering

variable {n n' : Numbering σ limit} {s : σ} {i : Nat} {ss : List σ} {is : List Nat}

/-- The same numbers under another limit. -/
def withLimit (n : Numbering σ limit) (limit' : Nat) (h : n.sets.size ≤ max 1 limit') :
    Numbering σ limit' := ⟨n.sets, n.ids, h⟩

theorem number?_grows (h : n.number? s = some (i, n')) : n.sets.size ≤ n'.sets.size := by
  rcases number?_cases h with ⟨_, rfl⟩ | ⟨_, _, hsets, _⟩
  · exact Nat.le_refl _
  · rw [hsets, Array.size_push]
    exact Nat.le_succ _

theorem numberAll?_grows (h : n.numberAll? ss = some (is, n')) : n.sets.size ≤ n'.sets.size := by
  induction ss generalizing n is with
  | nil =>
    obtain ⟨_, rfl⟩ := Prod.mk.inj (Option.some.inj h)
    exact Nat.le_refl _
  | cons s rest ih =>
    obtain ⟨i, n1, js, h1, h2, _⟩ := numberAll?_cons h
    exact Nat.le_trans (number?_grows h1) (ih h2)

theorem number?_withLimit (h : n.number? s = some (i, n')) (hpos : 0 < n.sets.size)
    (hn : n.sets.size ≤ max 1 limit') (hn' : n'.sets.size ≤ max 1 limit') :
    (n.withLimit limit' hn).number? s = some (i, n'.withLimit limit' hn') := by
  rw [number?] at h ⊢
  rw [show (n.withLimit limit' hn).ids = n.ids from rfl]
  split at h
  · rename_i j hj
    obtain ⟨rfl, rfl⟩ := Prod.mk.inj (Option.some.inj h)
    rfl
  · rename_i hnew
    split at h
    · obtain ⟨rfl, rfl⟩ := Prod.mk.inj (Option.some.inj h)
      rw [Array.size_push] at hn'
      have hroom : (n.withLimit limit' hn).sets.size < limit' := by
        show n.sets.size < limit'
        omega
      simp only [dif_pos hroom]
      rfl
    · cases h

theorem numberAll?_withLimit (h : n.numberAll? ss = some (is, n')) (hpos : 0 < n.sets.size)
    (hn : n.sets.size ≤ max 1 limit') (hn' : n'.sets.size ≤ max 1 limit') :
    (n.withLimit limit' hn).numberAll? ss = some (is, n'.withLimit limit' hn') := by
  induction ss generalizing n is with
  | nil =>
    obtain ⟨rfl, rfl⟩ := Prod.mk.inj (Option.some.inj h)
    rfl
  | cons s rest ih =>
    obtain ⟨i, n1, js, h1, h2, rfl⟩ := numberAll?_cons h
    have hgrows := number?_grows h1
    have hn1 := Nat.le_trans (numberAll?_grows h2) hn'
    rw [numberAll?, number?_withLimit h1 hpos hn hn1]
    simp only [ih h2 (Nat.lt_of_lt_of_le hpos hgrows) hn1]

end Numbering

open Dfa.Numbering

theorem fillRows_grows {n : Numbering σ limit} {i : Nat} {rows rows' : Array State}
    {sets : Array σ} (h : fillRows a n i rows = .ok (rows', sets)) : n.sets.size ≤ sets.size := by
  fun_induction fillRows a n i rows with
  | case1 => cases h
  | case2 n i rows _ _ s next n' hnum ih => exact Nat.le_trans (numberAll?_grows hnum) (ih h)
  | case3 n i rows =>
    obtain ⟨_, rfl⟩ := Prod.mk.inj (Except.ok.inj h)
    exact Nat.le_refl _

theorem fillRows_withLimit {n : Numbering σ limit} {i : Nat} {rows rows' : Array State}
    {sets : Array σ} (h : fillRows a n i rows = .ok (rows', sets)) (hpos : 0 < n.sets.size)
    (hn : n.sets.size ≤ max 1 limit') (hsets : sets.size ≤ max 1 limit') :
    fillRows a (n.withLimit limit' hn) i rows = .ok (rows', sets) := by
  fun_induction fillRows a n i rows with
  | case1 => cases h
  | case2 n i rows hlt _ s next n' hnum ih =>
    have hn' := Nat.le_trans (fillRows_grows h) hsets
    have hnum' := numberAll?_withLimit hnum hpos hn hn'
    have hrest := ih h (Nat.lt_of_lt_of_le hpos (numberAll?_grows hnum)) hn'
    have hlt' : i < (n.withLimit limit' hn).sets.size := hlt
    have hs : (n.withLimit limit' hn).sets[i] = s := rfl
    rw [fillRows, dif_pos hlt']
    simp only [hs, hnum']
    exact hrest
  | case3 n i rows hlt =>
    obtain ⟨rfl, rfl⟩ := Prod.mk.inj (Except.ok.inj h)
    rw [fillRows, dif_neg (show ¬ i < (n.withLimit limit' hn).sets.size from hlt)]
    rfl

/-- What is made under one limit is made under every other that allows for it. -/
theorem determinize_withLimit {classes : Nat} {states : Array State} {sets : Array σ}
    (h : determinize a classes limit = .ok (states, sets)) (hsets : sets.size ≤ max 1 limit') :
    determinize a classes limit' = .ok (states, sets) := by
  obtain ⟨is, n, hnum, hrows⟩ := determinize_ok h
  have hstart : (Numbering.start limit a.dead).sets.size = 1 := rfl
  have hone : (Numbering.start limit a.dead).sets.size ≤ max 1 limit' :=
    hstart ▸ Nat.le_max_left 1 limit'
  have hn := Nat.le_trans (fillRows_grows hrows) hsets
  have hnum' := numberAll?_withLimit hnum (Nat.lt_of_lt_of_eq Nat.one_pos hstart.symm) hone hn
  rw [determinize, show Numbering.start limit' a.dead =
    (Numbering.start limit a.dead).withLimit limit' _ from rfl, hnum']
  exact fillRows_withLimit hrows
    (Nat.lt_of_lt_of_le Nat.one_pos (hstart ▸ numberAll?_grows hnum)) hn
    hsets

variable [LawfulBEq σ]

/-- There is one result, if there is any, and the limit allows for it or not. -/
theorem determinize_eq {classes : Nat} {states : Array State} {sets : Array σ}
    (h : determinize a classes limit = .ok (states, sets)) (limit' : Nat) :
    determinize a classes limit' =
      if states.size ≤ max 1 limit' then .ok (states, sets) else .error #[] := by
  have hsize : states.size = sets.size := (determinize_numbered h).size_eq
  split
  · rename_i hle
    exact determinize_withLimit h (hsize ▸ hle)
  · rename_i hmore
    cases h' : determinize a classes limit' with
    | error left => rw [determinize_error h']
    | ok r =>
      obtain ⟨states', sets'⟩ := r
      -- a limit that allows for both results shows that they are the same
      have hle := determinize_size_le h
      have hle' := determinize_size_le h'
      have hsize' : states'.size = sets'.size := (determinize_numbered h').size_eq
      have hmost : determinize a classes (max limit limit') = .ok (states, sets) :=
        determinize_withLimit h (by omega)
      have hmost' : determinize a classes (max limit limit') = .ok (states', sets') :=
        determinize_withLimit h' (by omega)
      have hboth := hmost'.symm.trans hmost
      obtain ⟨rfl, _⟩ := Prod.mk.inj (Except.ok.inj hboth)
      exact absurd hle' hmore

/-! ## The automaton of an automaton -/

variable {n : Nfa} {alpha : Alphabet} {direction : Direction} {kind : MatchKind}

/-- The error of a construction that needs more states than there may be. -/
def overLimit (limit : Nat) : Error := .stateLimit "DFA state" limit

/-- There is one deterministic automaton, which is made under just those limits that allow for its
states. Under every limit there may be one state. -/
theorem exists_ofNfa_eq (n : Nfa) (alpha : Alphabet) (direction : Direction) (kind : MatchKind) :
    ∃ d : Dfa, ∀ limit, ofNfa n alpha direction kind limit =
      if d.size ≤ max 1 limit then .ok d else .error (overLimit limit) := by
  obtain ⟨d, hd⟩ : ∃ d, ofNfa n alpha direction kind (8 * (arrangements n.importants).length) =
      .ok d :=
    exists_ofNfa_of_important (fun _ => Nfa.mem_importants) (Nat.le_refl _)
  refine ⟨d, fun limit => ?_⟩
  obtain ⟨states, sets, hdet, rfl⟩ := ofNfa_ok hd
  rw [ofNfa, determinize_eq hdet limit]
  by_cases hle : states.size ≤ max 1 limit
  · rw [if_pos hle]
    exact (if_pos hle).symm
  · rw [if_neg hle]
    exact (if_neg hle).symm

/-- If a thread is alive at the start, there is a state besides the dead one. -/
theorem two_le_size {d : Dfa} (h : ofNfa n alpha direction kind limit = .ok d)
    (hstart : (Subset.ofNfa n alpha kind).startOther ≠ .dead) : 2 ≤ d.size := by
  obtain ⟨states, sets, hdet, rfl⟩ := ofNfa_ok h
  have hnum := determinize_numbered hdet
  obtain ⟨i, hi⟩ := hnum.initial _ (Subset.mem_initial_iff.2 (Or.inl rfl))
  have hpos : i ≠ 0 := by
    rintro rfl
    exact hstart (Option.some.inj (hi.symm.trans hnum.dead))
  have hlt := (Array.getElem?_eq_some_iff.1 hi).1
  show 2 ≤ states.size
  rw [hnum.size_eq]
  omega

end ByteRegex.Dfa

namespace ByteRegex.Nfa.Closed

open Dfa.Subset (closure_complete important_of_edge mem_canonical)

variable {R : UInt8 → UInt8 → Prop} {c : Dfa.Subset} {p : Pattern} {out goal skipping : Nat}

/-- At the start of a search the thread that skips bytes is alive, if no other is. -/
theorem startOther_ne_dead (h : Closed R c.nfa p out goal skipping) : c.startOther ≠ .dead := by
  intro hdead
  have hnone : ∀ t, t ∉ c.closure none [c.nfa.floating] := by
    intro t ht
    have hmem : t ∈ c.startOther.threads := mem_canonical.2 ht
    rw [hdead] at hmem
    cases hmem
  refine hnone skipping (closure_complete (fun t ht => absurd ht (hnone t))
    (List.mem_singleton_self c.nfa.floating) (Walk.Reach.head ?_ (Walk.Reach.refl skipping)) ?_)
  · rw [h.freeTargets_floating]
    exact List.mem_cons_of_mem _ (List.mem_singleton_self skipping)
  · refine important_of_edge (e := .bytes 0x00 0xff c.nfa.floating) ?_ rfl
    rw [show c.nfa.state skipping = _ from h.skip]
    exact List.mem_singleton_self _

end ByteRegex.Nfa.Closed
