-- How many sets a construction meets at most. The threads of a set are important
-- states, none of them twice, so that few important states make few sets.
import ByteRegex.Proofs.Dfa.Threads
import Mathlib.Algebra.Ring.Nat
import Mathlib.Data.List.Permutation
import Mathlib.Data.List.Sublists

namespace ByteRegex

/-! ## Arrangements -/

/-- The lists without repetition that can be made of the members of a list. -/
def arrangements (l : List Nat) : List (List Nat) := l.sublists.flatMap List.permutations

theorem mem_arrangements {l m : List Nat} (hm : m.Nodup) (hsub : m ⊆ l) : m ∈ arrangements l := by
  obtain ⟨k, hk, hkl⟩ := List.subperm_of_subset hm hsub
  exact List.mem_flatMap.2 ⟨k, List.mem_sublists.2 hkl, List.mem_permutations.2 hk.symm⟩

theorem length_arrangements (l : List Nat) :
    (arrangements l).length = (l.sublists.map fun k => k.length.factorial).sum := by
  rw [arrangements, List.length_flatMap]
  simp only [List.length_permutations]

namespace Dfa

/-- The sets whose threads are an arrangement of members of a list. -/
def setsOver (l : List Nat) : List ThreadSet :=
  (arrangements l).flatMap fun threads => [false, true].flatMap fun atStart =>
    [false, true].flatMap fun wordBefore => [false, true].map fun final =>
      ⟨threads, atStart, wordBefore, final⟩

theorem mem_setsOver {l : List Nat} {s : ThreadSet} :
    s ∈ setsOver l ↔ s.threads ∈ arrangements l := by
  obtain ⟨threads, atStart, wordBefore, final⟩ := s
  have hflag : ∀ b : Bool, b ∈ [false, true] := by decide
  constructor
  · intro h
    obtain ⟨_, hthreads, h⟩ := List.mem_flatMap.1 h
    obtain ⟨_, _, h⟩ := List.mem_flatMap.1 h
    obtain ⟨_, _, h⟩ := List.mem_flatMap.1 h
    obtain ⟨_, _, heq⟩ := List.mem_map.1 h
    exact congrArg ThreadSet.threads heq ▸ hthreads
  · intro h
    refine List.mem_flatMap.2 ⟨threads, h, ?_⟩
    refine List.mem_flatMap.2 ⟨atStart, hflag atStart, ?_⟩
    refine List.mem_flatMap.2 ⟨wordBefore, hflag wordBefore, ?_⟩
    exact List.mem_map.2 ⟨final, hflag final, rfl⟩

theorem length_setsOver (l : List Nat) : (setsOver l).length = 8 * (arrangements l).length := by
  rw [setsOver, List.length_flatMap]
  simp [Nat.mul_comm]

/-! ## The threads of a set -/

namespace Subset

variable {c : Subset}

theorem closure_nodup (ctx : Option LookContext) (seeds : List Nat) :
    (c.closure ctx seeds).Nodup := by
  obtain ⟨_, hv⟩ := Walk.orderUntil_visits (freeTargets c.nfa ctx) c.shutsOut c.nfa.size seeds
  exact (hv.nodup List.nodup_nil).filter _

theorem canonical_nodup {l : List Nat} (h : l.Nodup) : (c.canonical l).Nodup := by
  rw [canonical]
  cases c.kind with
  | leftmostFirst => exact h
  | all => exact (pairwise_sortUnique l).imp Nat.ne_of_lt

theorem foldl_lower_mem (a : Nat × Nat) (rest : List (Nat × Nat)) :
    rest.foldl (fun best x => if x.2 < best.2 then x else best) a ∈ a :: rest := by
  induction rest generalizing a with
  | nil => exact List.mem_singleton_self a
  | cons y rest ih =>
    rw [List.foldl_cons]
    split
    · exact List.mem_cons_of_mem a (ih y)
    · rw [List.mem_cons]
      exact (List.mem_cons.1 (ih a)).imp id (List.mem_cons_of_mem y)

/-- The accepting thread that counts is one of the threads. -/
theorem acceptance?_mem {threads : List Nat} {x : Nat × Nat} (h : c.acceptance? threads = some x) :
    x.1 ∈ threads := by
  have hmem : x ∈ threads.filterMap fun s => (c.nfa.state s).accept.map fun p => (s, p) := by
    revert h
    rw [acceptance?]
    generalize (threads.filterMap fun s => (c.nfa.state s).accept.map fun p => (s, p)) = l
    intro h
    cases hk : c.kind with
    | leftmostFirst =>
      rw [hk] at h
      exact List.mem_of_head? h
    | all =>
      rw [hk] at h
      cases l with
      | nil => cases h
      | cons a rest => exact Option.some.inj h ▸ foldl_lower_mem a rest
  obtain ⟨s, hs, hx⟩ := List.mem_filterMap.1 hmem
  obtain ⟨p, _, rfl⟩ := Option.map_eq_some_iff.1 hx
  exact hs

end Subset

/-! ## Within the limit -/

/-- A list of sets that holds the starts and all that the steps lead to. -/
structure Subset.Holding (c : Subset) (S : List ThreadSet) : Prop where
  dead : ThreadSet.dead ∈ S
  startOther : c.startOther ∈ S
  startWord : c.startWord ∈ S
  afterStart : ∀ s ∈ S, c.afterStart c.startOther s ∈ S
  afterEnd : ∀ s ∈ S, c.afterEnd s ∈ S
  afterByte : ∀ s ∈ S, s.final = false → ∀ wordAfter b,
    c.afterByte (c.closure (some (s.context false wordAfter)) s.threads) b ∈ S

theorem Subset.Holding.successors {c : Subset} {S : List ThreadSet} (h : c.Holding S)
    {s t : ThreadSet}
    (hs : s ∈ S) (ht : t ∈ c.successors c.startOther s) : t ∈ S := by
  rw [Subset.successors] at ht
  split at ht
  · rw [List.eq_of_mem_replicate ht]
    exact h.dead
  · rename_i hfinal
    rw [Bool.not_eq_true] at hfinal
    have hbyte := h.afterByte s hs hfinal
    rw [List.mem_append, List.mem_map] at ht
    rcases ht with ⟨cls, _, rfl⟩ | ht
    · by_cases hb : isWordByte (c.sampleByte cls) = true
      · simp only [if_pos hb]
        split
        · exact hbyte true _
        · exact hbyte false _
      · simp only [if_neg hb]
        exact hbyte false _
    · simp only [List.mem_cons, List.not_mem_nil, or_false] at ht
      rcases ht with rfl | rfl
      · exact h.afterStart s hs
      · exact h.afterEnd s hs

/-- The automaton can be made if a list that the limit allows for holds all sets. -/
theorem exists_ofNfa {n : Nfa} {alpha : Alphabet} {direction : Direction} {kind : MatchKind}
    {limit : Nat} {S : List ThreadSet} (h : (Subset.ofNfa n alpha kind).Holding S)
    (hS : S.length ≤ limit) : ∃ d, ofNfa n alpha direction kind limit = .ok d := by
  have hinit : ∀ s ∈ (Subset.ofNfa n alpha kind).automaton.initial, s ∈ S := by
    intro s hs
    rw [show (Subset.ofNfa n alpha kind).automaton.initial =
      if (Subset.ofNfa n alpha kind).words then
        [(Subset.ofNfa n alpha kind).startOther, (Subset.ofNfa n alpha kind).startWord]
      else [(Subset.ofNfa n alpha kind).startOther] from rfl] at hs
    split at hs
    · simp only [List.mem_cons, List.not_mem_nil, or_false] at hs
      rcases hs with rfl | rfl
      · exact h.startOther
      · exact h.startWord
    · exact List.mem_singleton.1 hs ▸ h.startOther
  obtain ⟨⟨states, sets⟩, hdet⟩ := determinize_within hS h.dead hinit
    fun s hs t ht => h.successors hs ht
  exact ⟨_, by rw [ofNfa, hdet]⟩

/-- The sets over the important states hold all that a construction meets. -/
theorem Subset.holding_setsOver {c : Subset} {l : List Nat}
    (hl : ∀ s, Important c.nfa s → s ∈ l) : c.Holding (setsOver l) := by
  have hclosure : ∀ ctx seeds, c.closure ctx seeds ⊆ l := fun _ _ t ht =>
    hl t (mem_closure.1 ht).2
  have hthreads : ∀ ctx seeds, c.canonical (c.closure ctx seeds) ∈ arrangements l :=
    fun ctx seeds => mem_arrangements (canonical_nodup (closure_nodup ctx seeds))
      fun t ht => hclosure ctx seeds (mem_canonical.1 ht)
  have hdead : ThreadSet.dead ∈ setsOver l :=
    mem_setsOver.2 (mem_arrangements List.nodup_nil (List.nil_subset l))
  refine ⟨hdead, mem_setsOver.2 (hthreads _ _), mem_setsOver.2 (hthreads _ _), ?_, ?_, ?_⟩
  · intro s hs
    rw [afterStart]
    split
    · have hsame := mem_setsOver.1 hs
      exact mem_setsOver.2 hsame
    · exact hdead
  · intro s _
    rw [afterEnd]
    split
    · rename_i t _ ht
      refine mem_setsOver.2 (mem_arrangements (List.nodup_singleton t) fun u hu => ?_)
      rw [List.mem_singleton.1 hu]
      exact hclosure _ _ (acceptance?_mem ht)
    · exact hdead
  · intro s _ _ _ b
    rw [afterByte]
    split
    · exact hdead
    · exact mem_setsOver.2 (hthreads _ _)

/-- The automaton can be made if the limit allows for all arrangements of important states. -/
theorem exists_ofNfa_of_important {n : Nfa} {alpha : Alphabet} {direction : Direction}
    {kind : MatchKind} {limit : Nat} {l : List Nat} (hl : ∀ s, Subset.Important n s → s ∈ l)
    (hlimit : 8 * (arrangements l).length ≤ limit) :
    ∃ d, ofNfa n alpha direction kind limit = .ok d :=
  exists_ofNfa (Subset.holding_setsOver hl) (length_setsOver l ▸ hlimit)

theorem ofNfa_size_le {n : Nfa} {alpha : Alphabet} {direction : Direction} {kind : MatchKind}
    {limit : Nat} {d : Dfa} (h : ofNfa n alpha direction kind limit = .ok d) :
    d.size ≤ max 1 limit := by
  obtain ⟨states, sets, hdet, rfl⟩ := ofNfa_ok h
  exact determinize_size_le hdet

end Dfa

/-! ## Important states -/

namespace Nfa

/-- The important states. -/
def importants (n : Nfa) : List Nat := (List.range n.size).filter fun s => (n.state s).important

/-- The states that may be important on the way back: the start, and where the edges lead that are
not free. -/
def landings (n : Nfa) : List Nat :=
  n.anchored :: (List.range n.size).flatMap fun s =>
    ((n.state s).edges.toList.filter fun e => !e.isEps).map Edge.target

variable {R : UInt8 → UInt8 → Prop} {n : Nfa} {s : Nat}

theorem mem_importants (h : Dfa.Subset.Important n s) : s ∈ n.importants :=
  List.mem_filter.2 ⟨List.mem_range.2 (Dfa.Subset.important_lt h), h⟩

theorem isEps_reverse (e : Edge) (s : Nat) : (e.reverse s).isEps = e.isEps := by cases e <;> rfl

theorem mem_landings (h : Neat R n) (ha : n.anchored < n.size)
    (hs : Dfa.Subset.Important n.reverse s) : s ∈ n.landings := by
  rw [Dfa.Subset.Important, State.important, Bool.or_eq_true] at hs
  rcases hs with hs | hs
  · rw [(accepting_reverse h ha).1 hs]
    exact List.mem_cons_self
  · obtain ⟨e, he, heps⟩ := Array.any_eq_true'.1 hs
    rw [Bool.not_eq_true'] at heps
    rw [state_reverse h ha] at he
    obtain ⟨t, ht, he⟩ := List.mem_flatMap.1 (List.mem_toArray.1 he)
    rcases mem_waysBack.1 he with ⟨_, _, rfl⟩ | ⟨e', he', rfl, rfl⟩
    · cases heps
    · rw [isEps_reverse] at heps
      refine List.mem_cons_of_mem _ (List.mem_flatMap.2 ⟨t, (List.mem_filter.1 ht).1, ?_⟩)
      exact List.mem_map.2 ⟨e', List.mem_filter.2 ⟨he', by rw [heps]; rfl⟩, rfl⟩

end Nfa

end ByteRegex
