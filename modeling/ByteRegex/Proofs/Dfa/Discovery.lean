-- Which sets a construction numbers, and in which order: those that can be met
-- and no others, each at the place where a search that goes breadth first comes
-- upon it.
import ByteRegex.Proofs.Dfa.Budget
import Mathlib.Data.Set.Card

namespace ByteRegex.Dfa

variable {σ : Type} [BEq σ] [LawfulBEq σ]

/-! ## First occurrences -/

theorem eraseDups_snoc (l : List σ) (s : σ) :
    (l ++ [s]).eraseDups = if s ∈ l then l.eraseDups else l.eraseDups ++ [s] := by
  rw [List.eraseDups_append]
  split
  · rename_i hs
    have hnone : [s].removeAll l = [] := by simp [List.removeAll, hs]
    rw [hnone, List.eraseDups_nil, List.append_nil]
  · rename_i hs
    have hsome : [s].removeAll l = [s] := by simp [List.removeAll, hs]
    rw [hsome, List.eraseDups_cons, List.filter_nil, List.eraseDups_nil]

theorem nodup_eraseDups (l : List σ) : l.eraseDups.Nodup := by
  induction l using List.reverseRecOn with
  | nil => exact List.nodup_nil
  | append_singleton l s ih =>
    rw [eraseDups_snoc]
    split
    · exact ih
    · rename_i hs
      refine List.nodup_append.2 ⟨ih, List.nodup_singleton s, fun t ht u hu heq => hs ?_⟩
      rw [← List.mem_singleton.1 hu, ← heq]
      exact List.mem_eraseDups.1 ht

theorem eraseDups_append_of_subset {xs ys : List σ} (h : ys ⊆ xs) :
    (xs ++ ys).eraseDups = xs.eraseDups := by
  have hnone : ys.removeAll xs = [] := by
    refine List.filter_eq_nil_iff.2 fun y hy => ?_
    simp [h hy]
  rw [List.eraseDups_append, hnone, List.eraseDups_nil, List.append_nil]

/-- What stands in front counts only by its first occurrences. -/
theorem eraseDups_append_congr {xs ys : List σ} (h : xs.eraseDups = ys.eraseDups) (zs : List σ) :
    (xs ++ zs).eraseDups = (ys ++ zs).eraseDups := by
  have hmem : ∀ z, z ∈ xs ↔ z ∈ ys := fun z => by
    rw [← List.mem_eraseDups, h, List.mem_eraseDups]
  have hsame : zs.removeAll xs = zs.removeAll ys := by
    refine List.filter_congr fun z _ => ?_
    rw [Bool.eq_iff_iff]
    simp [hmem z]
  rw [List.eraseDups_append, List.eraseDups_append, h, hsame]

theorem eraseDups_mono {xs ys : List σ} (h : xs <+: ys) : xs.eraseDups <+: ys.eraseDups := by
  obtain ⟨zs, rfl⟩ := h
  rw [List.eraseDups_append]
  exact List.prefix_append _ _

/-- A set that comes up again leads nowhere new. -/
theorem eraseDups_append_flatMap (xs l : List σ) (f : σ → List σ) :
    (xs ++ l.eraseDups.flatMap f).eraseDups = (xs ++ l.flatMap f).eraseDups := by
  induction l using List.reverseRecOn with
  | nil => rfl
  | append_singleton l s ih =>
    rw [eraseDups_snoc, List.flatMap_append, List.flatMap_singleton, ← List.append_assoc]
    split
    · rename_i hs
      have hold : f s ⊆ xs ++ l.flatMap f := fun t ht =>
        List.mem_append_right xs (List.mem_flatMap.2 ⟨s, hs, ht⟩)
      rw [ih, eraseDups_append_of_subset hold]
    · rw [List.flatMap_append, List.flatMap_singleton, ← List.append_assoc]
      exact eraseDups_append_congr ih (f s)

/-! ## What a search meets -/

namespace SetAutomaton

variable {a : SetAutomaton σ} {s t : σ}

omit [BEq σ] [LawfulBEq σ] in
/-- The sets that can be met. -/
inductive Reached (a : SetAutomaton σ) : σ → Prop
  | dead : a.Reached a.dead
  | initial {s : σ} : s ∈ a.initial → a.Reached s
  | successor {s t : σ} : a.Reached s → t ∈ a.successors s → a.Reached t

/-- What just `n` steps lead to, in the order of a search that goes breadth first. A set is listed
once for every way to it. -/
def level (a : SetAutomaton σ) : Nat → List σ
  | 0 => a.dead :: a.initial
  | n + 1 => (a.level n).flatMap a.successors

/-- What fewer than `n` steps lead to, one level after another. -/
def levels (a : SetAutomaton σ) (n : Nat) : List σ := (List.range n).flatMap a.level

omit [BEq σ] [LawfulBEq σ] in
theorem levels_succ (a : SetAutomaton σ) (n : Nat) :
    a.levels (n + 1) = a.dead :: a.initial ++ (a.levels n).flatMap a.successors := by
  unfold levels
  rw [List.range_succ_eq_map, List.flatMap_cons, List.flatMap_map, List.flatMap_assoc]
  rfl

omit [BEq σ] [LawfulBEq σ] in
theorem levels_mono (a : SetAutomaton σ) {m n : Nat} (h : m ≤ n) : a.levels m <+: a.levels n := by
  obtain ⟨k, rfl⟩ := Nat.exists_eq_add_of_le h
  unfold levels
  rw [List.range_add, List.flatMap_append]
  exact List.prefix_append _ _

omit [BEq σ] [LawfulBEq σ] in
theorem Reached.exists_levels (h : a.Reached s) : ∃ n, s ∈ a.levels n := by
  induction h with
  | dead =>
    refine ⟨1, ?_⟩
    rw [levels_succ]
    exact List.mem_append_left _ List.mem_cons_self
  | initial hs =>
    refine ⟨1, ?_⟩
    rw [levels_succ]
    exact List.mem_append_left _ (List.mem_cons_of_mem a.dead hs)
  | successor _ ht ih =>
    obtain ⟨n, hn⟩ := ih
    refine ⟨n + 1, ?_⟩
    rw [levels_succ]
    exact List.mem_append_right _ (List.mem_flatMap.2 ⟨_, hn, ht⟩)

omit [BEq σ] [LawfulBEq σ] in
/-- Some depth is enough for all members of a list. -/
theorem exists_levels_of_forall {l : List σ} (h : ∀ s ∈ l, a.Reached s) :
    ∃ n, ∀ s ∈ l, s ∈ a.levels n := by
  induction l with
  | nil => exact ⟨0, fun s hs => absurd hs List.not_mem_nil⟩
  | cons s l ih =>
    obtain ⟨n, hn⟩ := (h s List.mem_cons_self).exists_levels
    obtain ⟨m, hm⟩ := ih fun t ht => h t (List.mem_cons_of_mem s ht)
    refine ⟨max n m, fun t ht => ?_⟩
    rcases List.mem_cons.1 ht with rfl | ht
    · exact (a.levels_mono (Nat.le_max_left n m)).subset hn
    · exact (a.levels_mono (Nat.le_max_right n m)).subset (hm t ht)

/-- A list that is made of the initial sets and the successors of its own members, each where it
first comes up, starts with what a search meets, to any depth. -/
theorem eraseDups_levels_front {l : List σ}
    (hl : l = (a.dead :: a.initial ++ l.flatMap a.successors).eraseDups) (n : Nat) :
    (a.levels n).eraseDups <+: l := by
  induction n with
  | zero => exact List.nil_prefix
  | succ n ih =>
    obtain ⟨rest, hrest⟩ := ih
    rw [levels_succ, ← eraseDups_append_flatMap, hl]
    apply eraseDups_mono
    rw [← hrest, List.flatMap_append, ← List.append_assoc]
    exact List.prefix_append _ _

end SetAutomaton

variable [Hashable σ] {limit : Nat} {a : SetAutomaton σ}

/-! ## The order of the numbers -/

namespace Numbering

variable {n n' : Numbering σ limit} {s : σ} {i : Nat} {ss met : List σ} {is : List Nat}

/-- The sets that have been met have their numbers, in the order in which they first came up. -/
structure Lists (n : Numbering σ limit) (met : List σ) : Prop where
  valid : n.Valid
  noted : ∀ s ∈ n.sets, n.ids[s]?.isSome = true
  sets_eq : n.sets.toList = met.eraseDups

theorem start_lists (dead : σ) : (start limit dead).Lists [dead] := by
  have hwithin : (start limit dead).Within [dead] := start_within (List.mem_singleton_self dead)
  refine ⟨start_valid dead, hwithin.noted, ?_⟩
  rw [List.eraseDups_cons, List.filter_nil, List.eraseDups_nil]
  rfl

theorem number?_lists (hn : n.Lists met) (h : n.number? s = some (i, n')) :
    n'.Lists (met ++ [s]) := by
  have hvalid := (number?_spec hn.valid h).1
  have hmem : s ∈ met ↔ s ∈ n.sets := by
    rw [← Array.mem_toList_iff, hn.sets_eq, List.mem_eraseDups]
  rcases number?_cases h with ⟨hi, rfl⟩ | ⟨hnew, rfl, hsets, hids⟩
  · have hs : s ∈ n'.sets := Array.mem_of_getElem? (hn.valid s i hi)
    refine ⟨hvalid, hn.noted, ?_⟩
    rw [eraseDups_snoc, if_pos (hmem.2 hs), hn.sets_eq]
  · have hs : s ∉ met := by
      intro hs
      have hsome := hn.noted s (hmem.1 hs)
      rw [hnew] at hsome
      cases hsome
    refine ⟨hvalid, ?_, ?_⟩
    · rw [hsets, hids]
      exact noted_push hn.noted s
    · rw [hsets, Array.toList_push, hn.sets_eq, eraseDups_snoc, if_neg hs]

theorem numberAll?_lists (hn : n.Lists met) (h : n.numberAll? ss = some (is, n')) :
    n'.Lists (met ++ ss) := by
  induction ss generalizing n met is with
  | nil =>
    obtain ⟨_, rfl⟩ := Prod.mk.inj (Option.some.inj h)
    rwa [List.append_nil]
  | cons s rest ih =>
    obtain ⟨i, n1, js, h1, h2, _⟩ := numberAll?_cons h
    rw [List.append_cons]
    exact ih (number?_lists hn h1) h2

omit [LawfulBEq σ] in
/-- What gets a number is new, and it gets a greater one than what has been there. -/
theorem number?_new (h : n.number? s = some (i, n')) {j : Nat} {u : σ} (hu : n'.sets[j]? = some u) :
    n.sets[j]? = some u ∨ (u = s ∧ n.sets.size ≤ j) := by
  rcases number?_cases h with ⟨_, rfl⟩ | ⟨_, _, hsets, _⟩
  · exact Or.inl hu
  · rw [hsets, Array.getElem?_push] at hu
    split at hu
    · rename_i hj
      exact Or.inr ⟨(Option.some.inj hu).symm, Nat.le_of_eq hj.symm⟩
    · exact Or.inl hu

omit [LawfulBEq σ] in
theorem numberAll?_new (h : n.numberAll? ss = some (is, n')) {j : Nat} {u : σ}
    (hu : n'.sets[j]? = some u) : n.sets[j]? = some u ∨ (u ∈ ss ∧ n.sets.size ≤ j) := by
  induction ss generalizing n is with
  | nil =>
    obtain ⟨_, rfl⟩ := Prod.mk.inj (Option.some.inj h)
    exact Or.inl hu
  | cons s rest ih =>
    obtain ⟨i, n1, js, h1, h2, _⟩ := numberAll?_cons h
    rcases ih h2 with hold | ⟨hmem, hle⟩
    · rcases number?_new h1 hold with hold | ⟨rfl, hle⟩
      · exact Or.inl hold
      · exact Or.inr ⟨List.mem_cons_self, hle⟩
    · exact Or.inr ⟨List.mem_cons_of_mem s hmem, Nat.le_trans (number?_grows h1) hle⟩

end Numbering

open Dfa.Numbering

variable {s : σ}

omit [BEq σ] [LawfulBEq σ] [Hashable σ] in
/-- Every set but the first is one to start from, or a successor of a set with a smaller number. -/
def Grown (a : SetAutomaton σ) (sets : Array σ) : Prop :=
  ∀ (j : Nat) (s : σ), 1 ≤ j → sets[j]? = some s →
    s ∈ a.initial ∨ ∃ (k : Nat) (u : σ), 1 ≤ k ∧ k < j ∧ sets[k]? = some u ∧ s ∈ a.successors u

/-- What comes up while the sets before number `i` are gone through, the dead one left out. -/
def comeUp (a : SetAutomaton σ) (sets : Array σ) (i : Nat) : List σ :=
  a.dead :: a.initial ++ ((sets.toList.take i).drop 1).flatMap a.successors

omit [BEq σ] [LawfulBEq σ] [Hashable σ] in
theorem comeUp_succ {sets sets' : Array σ} {i : Nat} (h : sets.toList <+: sets'.toList) (hi : 1 ≤ i)
    (hs : sets[i]? = some s) : comeUp a sets' (i + 1) = comeUp a sets i ++ a.successors s := by
  obtain ⟨rest, hrest⟩ := h
  have hlt : i < sets.toList.length := by
    rw [Array.length_toList]
    exact (Array.getElem?_eq_some_iff.1 hs).1
  have htake : sets'.toList.take (i + 1) = sets.toList.take i ++ [s] := by
    rw [← hrest, List.take_append_of_le_length hlt, List.take_add_one, Array.getElem?_toList, hs]
    rfl
  have hdrop : (sets.toList.take i ++ [s]).drop 1 = (sets.toList.take i).drop 1 ++ [s] :=
    List.drop_append_of_le_length (by rw [List.length_take]; omega)
  unfold comeUp
  rw [htake, hdrop, List.flatMap_append, List.flatMap_singleton, List.append_assoc]

theorem fillRows_lists {n : Numbering σ limit} {i : Nat} {rows rows' : Array State}
    {sets : Array σ} (h : fillRows a n i rows = .ok (rows', sets)) (hi : 1 ≤ i)
    (hn : n.Lists (comeUp a n.sets i)) (hgrown : Grown a n.sets) :
    sets.toList = (comeUp a sets sets.size).eraseDups ∧ Grown a sets := by
  fun_induction fillRows a n i rows with
  | case1 => cases h
  | case2 n i rows hlt _ s next n' hnum ih =>
    have hs : n.sets[i]? = some s := Array.getElem?_eq_getElem hlt
    have hlists := numberAll?_lists hn hnum
    have hfront : n.sets.toList <+: n'.sets.toList := by
      rw [hn.sets_eq, hlists.sets_eq]
      exact eraseDups_mono (List.prefix_append _ _)
    refine ih h (by omega) (comeUp_succ hfront hi hs ▸ hlists) fun j u hj hu => ?_
    have hext := (numberAll?_spec hn.valid hnum).2.1
    -- a set that is not old is a successor of the one whose row has just been filled
    rcases numberAll?_new hnum hu with hold | ⟨hmem, hle⟩
    · rcases hgrown j u hj hold with hinit | ⟨k, v, h1, h2, hv, hmem⟩
      · exact Or.inl hinit
      · exact Or.inr ⟨k, v, h1, h2, hext k v hv, hmem⟩
    · exact Or.inr ⟨i, s, hi, Nat.lt_of_lt_of_le hlt hle, hext i s hs, hmem⟩
  | case3 n i rows hlt =>
    obtain ⟨rfl, rfl⟩ := Prod.mk.inj (Except.ok.inj h)
    refine ⟨?_, hgrown⟩
    have hle : n.sets.toList.length ≤ i := by
      rw [Array.length_toList]
      omega
    rw [hn.sets_eq, comeUp, comeUp, List.take_of_length_le hle,
      List.take_of_length_le (Nat.le_of_eq Array.length_toList)]

theorem determinize_lists {classes : Nat} {states : Array State} {sets : Array σ}
    (h : determinize a classes limit = .ok (states, sets)) :
    sets.toList = (comeUp a sets sets.size).eraseDups ∧ Grown a sets := by
  obtain ⟨is, n, hnum, hrows⟩ := determinize_ok h
  have hlists := numberAll?_lists (start_lists a.dead) hnum
  refine fillRows_lists hrows (Nat.le_refl 1) ?_ fun j s hj hs => ?_
  · have hnone : (n.sets.toList.take 1).drop 1 = [] :=
      List.drop_eq_nil_of_le (List.length_take_le 1 _)
    rw [comeUp, hnone, List.flatMap_nil, List.append_nil]
    exact hlists
  · rcases numberAll?_new hnum hs with hold | ⟨hmem, _⟩
    · have hlt := (Array.getElem?_eq_some_iff.1 hold).1
      have hone : (Numbering.start limit a.dead).sets.size = 1 := rfl
      omega
    · exact Or.inl hmem

omit [BEq σ] [LawfulBEq σ] [Hashable σ] in
/-- Sets that differ from each other have one number each. -/
theorem eq_of_getElem? {sets : Array σ} (h : sets.toList.Nodup) {i j : Nat} (hi : sets[i]? = some s)
    (hj : sets[j]? = some s) : i = j := by
  have hlt : i < sets.toList.length := by
    rw [Array.length_toList]
    exact (Array.getElem?_eq_some_iff.1 hi).1
  rw [← Array.getElem?_toList] at hi hj
  exact (List.getElem?_inj hlt h).1 (hi.trans hj.symm)

/-! ## The states of the sets that can be met -/

/-- Every set that can be met has one state. The states come in the order of a search that goes
breadth first, and each tells when its set accepts and where it leads. -/
structure Discovered (a : SetAutomaton σ) (classes : Nat) (states : Array State) (sets : Array σ) :
    Prop where
  size_eq : states.size = sets.size
  dead : sets[0]? = some a.dead
  nodup : sets.toList.Nodup
  mem_iff : ∀ s, s ∈ sets ↔ a.Reached s
  order : ∃ n, ∀ m, n ≤ m → sets.toList = (a.levels m).eraseDups
  row : ∀ (i : Nat) (s : σ), sets[i]? = some s → ∃ st, states[i]? = some st ∧
    (st.accept, st.priority) = a.report s ∧ st.next.size = classes ∧
    ∀ c < classes, ∃ t, (a.successors s)[c]? = some t ∧ sets[st.next.getD c 0]? = some t

variable {classes : Nat} {states : Array State} {sets : Array σ}

omit [BEq σ] [LawfulBEq σ] [Hashable σ] in
/-- All sets that came up by being expanded can be met. -/
theorem Grown.reached (h : Grown a sets) (hdead : sets[0]? = some a.dead) {j : Nat}
    (hs : sets[j]? = some s) : a.Reached s := by
  induction j using Nat.strongRecOn generalizing s with
  | ind j ih =>
    rcases Nat.eq_zero_or_pos j with rfl | hj
    · obtain rfl : a.dead = s := Option.some.inj (hdead.symm.trans hs)
      exact .dead
    · rcases h j s hj hs with hinit | ⟨k, u, _, hk, hu, hmem⟩
      · exact .initial hinit
      · exact (ih k hk hu).successor hmem

omit [Hashable σ] in
/-- The dead set may be gone through too, if it leads only to itself. -/
theorem eraseDups_comeUp (hdead : ∀ t ∈ a.successors a.dead, t = a.dead)
    (hfirst : sets[0]? = some a.dead) :
    (comeUp a sets sets.size).eraseDups =
      (a.dead :: a.initial ++ sets.toList.flatMap a.successors).eraseDups := by
  obtain ⟨rest, hrest⟩ : ∃ rest, sets.toList = a.dead :: rest := by
    rw [← Array.getElem?_toList] at hfirst
    cases hl : sets.toList with
    | nil => rw [hl] at hfirst; cases hfirst
    | cons s rest =>
      rw [hl] at hfirst
      exact ⟨rest, by rw [Option.some.inj hfirst]⟩
  have hsub : a.successors a.dead ⊆ a.dead :: a.initial := fun t ht =>
    hdead t ht ▸ List.mem_cons_self
  have htake : sets.toList.take sets.size = sets.toList :=
    List.take_of_length_le (Nat.le_of_eq Array.length_toList)
  unfold comeUp
  rw [htake, hrest, List.drop_one, List.tail_cons, List.flatMap_cons, ← List.append_assoc]
  exact eraseDups_append_congr (eraseDups_append_of_subset hsub).symm _

omit [BEq σ] [LawfulBEq σ] [Hashable σ] in
theorem numbers_replicate {i : Nat} (h : sets[i]? = some s) (k : Nat) :
    Numbers sets (List.replicate k i) (List.replicate k s) := by
  induction k with
  | zero => exact .nil
  | succ k ih => exact .cons h ih

omit [Hashable σ] in
/-- A list that is closed under successors, and grown from the sets to start from, holds just what
can be met. -/
theorem mem_iff_reached (heq : sets.toList =
      (a.dead :: a.initial ++ sets.toList.flatMap a.successors).eraseDups)
    (hfirst : sets[0]? = some a.dead) (hgrown : Grown a sets) (s : σ) :
    s ∈ sets ↔ a.Reached s := by
  have hmem : ∀ s, s ∈ sets ↔ s ∈ a.dead :: a.initial ++ sets.toList.flatMap a.successors := by
    intro s
    rw [← Array.mem_toList_iff, heq, List.mem_eraseDups, ← heq]
  constructor
  · intro hs
    obtain ⟨j, hj, rfl⟩ := Array.mem_iff_getElem.1 hs
    exact hgrown.reached hfirst (Array.getElem?_eq_getElem hj)
  · intro hs
    induction hs with
    | dead => exact Array.mem_of_getElem? hfirst
    | initial hs => exact (hmem _).2 (List.mem_append_left _ (List.mem_cons_of_mem _ hs))
    | successor _ ht ih =>
      refine (hmem _).2 (List.mem_append_right _ (List.mem_flatMap.2 ⟨_, ?_, ht⟩))
      exact Array.mem_toList_iff.2 ih

omit [Hashable σ] in
/-- From some depth on the search finds all members of the list, and never in another order. -/
theorem eq_eraseDups_levels {l : List σ}
    (heq : l = (a.dead :: a.initial ++ l.flatMap a.successors).eraseDups) (hnodup : l.Nodup)
    (hreached : ∀ s ∈ l, a.Reached s) : ∃ n, ∀ m, n ≤ m → l = (a.levels m).eraseDups := by
  obtain ⟨n, hn⟩ := SetAutomaton.exists_levels_of_forall hreached
  refine ⟨n, fun m hm => ?_⟩
  have hfront := SetAutomaton.eraseDups_levels_front heq m
  have hsub : l ⊆ (a.levels m).eraseDups := fun s hs =>
    List.mem_eraseDups.2 ((a.levels_mono hm).subset (hn s hs))
  exact (hfront.eq_of_length_le (List.subperm_of_subset hnodup hsub).length_le).symm

omit [BEq σ] [LawfulBEq σ] [Hashable σ] in
/-- The first state has the row of the dead set as well, if that leads only to itself. -/
theorem Numbered.exists_row (h : Numbered a classes states sets)
    (hdead : ∀ t ∈ a.successors a.dead, t = a.dead)
    (hclasses : ∀ s, (a.successors s).length = classes) {i : Nat} (hs : sets[i]? = some s) :
    ∃ st, states[i]? = some st ∧ Row a sets s st := by
  rcases Nat.eq_zero_or_pos i with rfl | hi
  · obtain rfl : a.dead = s := Option.some.inj (h.dead.symm.trans hs)
    have hsucc : a.successors a.dead = List.replicate classes a.dead :=
      List.eq_replicate_iff.2 ⟨hclasses a.dead, hdead⟩
    exact ⟨_, h.first, List.replicate classes 0, rfl, hsucc ▸ numbers_replicate h.dead _⟩
  · exact h.row i s hi hs

/-- What a construction makes, if the dead set leads only to itself. -/
theorem determinize_discovered (hdead : ∀ t ∈ a.successors a.dead, t = a.dead)
    (hclasses : ∀ s, (a.successors s).length = classes)
    (h : determinize a classes limit = .ok (states, sets)) : Discovered a classes states sets := by
  have hnum := determinize_numbered h
  obtain ⟨heq, hgrown⟩ := determinize_lists h
  rw [eraseDups_comeUp hdead hnum.dead] at heq
  have hnodup : sets.toList.Nodup := heq ▸ nodup_eraseDups _
  have hmem := mem_iff_reached heq hnum.dead hgrown
  refine ⟨hnum.size_eq, hnum.dead, hnodup, hmem, ?_, fun i s hs => ?_⟩
  · exact eq_eraseDups_levels heq hnodup fun s hs => (hmem s).1 (Array.mem_toList_iff.1 hs)
  · obtain ⟨st, hst, hrow⟩ := hnum.exists_row hdead hclasses hs
    refine ⟨st, hst, hrow.report, hrow.width.trans (hclasses s), fun c hc => ?_⟩
    have hget := List.getElem?_eq_getElem (l := a.successors s) (by rw [hclasses]; exact hc)
    exact ⟨_, hget, hrow.leads hget⟩

/-- If finitely many sets can be met and the dead one leads only to itself, the construction is
made under every limit that is at least the number of these sets, and under no other. Under all
these limits it gives the same states, which stand for the sets that can be met. Where it gives up,
no states are left. -/
theorem determinize_exact (hdead : ∀ t ∈ a.successors a.dead, t = a.dead)
    (hclasses : ∀ s, (a.successors s).length = classes) (hfinite : {s | a.Reached s}.Finite) :
    ∃ states sets, Discovered a classes states sets ∧ ∀ limit, 1 ≤ limit →
      determinize a classes limit =
        if {s | a.Reached s}.ncard ≤ limit then .ok (states, sets) else .error #[] := by
  have hall : ∀ s, s ∈ hfinite.toFinset.toList ↔ a.Reached s := fun s => by simp
  obtain ⟨⟨states, sets⟩, hdet⟩ : ∃ r,
      determinize a classes hfinite.toFinset.toList.length = .ok r :=
    determinize_within (Nat.le_refl _) ((hall _).2 .dead) (fun s hs => (hall s).2 (.initial hs))
      fun s hs t ht => (hall t).2 (((hall s).1 hs).successor ht)
  have hdisc := determinize_discovered hdead hclasses hdet
  refine ⟨states, sets, hdisc, fun limit hlimit => ?_⟩
  have hcard : {s | a.Reached s}.ncard = states.size := by
    classical
    have hset : {s | a.Reached s} = (sets.toList.toFinset : Set σ) := by
      ext s
      simp [hdisc.mem_iff]
    rw [hset, Set.ncard_coe_finset, List.toFinset_card_of_nodup hdisc.nodup, Array.length_toList,
      hdisc.size_eq]
  rw [determinize_eq hdet limit, Nat.max_eq_right hlimit, hcard]

/-- Numbers that lead to their halves and to their remainders, from 3, 5 and once more 3. -/
def halving : SetAutomaton Nat where
  dead := 0
  initial := [3, 5, 3]
  successors s := [s / 2, s % 2]
  report s := (if s % 2 = 1 then .always else .never, s)

theorem halving_reached (s : Nat) : halving.Reached s ↔ s ∈ [0, 3, 5, 1, 2] := by
  have h3 : halving.Reached 3 := .initial (by decide)
  have h5 : halving.Reached 5 := .initial (by decide)
  refine ⟨fun h => ?_, fun h => ?_⟩
  · induction h with
    | dead => decide
    | initial hs =>
      simp only [halving, List.mem_cons, List.not_mem_nil, or_false] at hs
      rcases hs with rfl | rfl | rfl <;> decide
    | @successor s t _ ht ih =>
      have hall : ∀ s ∈ [0, 3, 5, 1, 2], ∀ t ∈ halving.successors s, t ∈ [0, 3, 5, 1, 2] := by
        decide
      exact hall s ih t ht
  · simp only [List.mem_cons, List.not_mem_nil, or_false] at h
    rcases h with rfl | rfl | rfl | rfl | rfl
    · exact .dead
    · exact h3
    · exact h5
    · exact h3.successor (by decide)
    · exact h5.successor (by decide)

/-- Five numbers can be met, 1 and 2 after the ones to start from. A limit of 4 is not enough. -/
theorem determinize_exact_halving : (∀ t ∈ halving.successors halving.dead, t = halving.dead) ∧
    (∀ s, (halving.successors s).length = 2) ∧ {s | halving.Reached s}.Finite ∧
    ∃ states sets, Discovered halving 2 states sets ∧ sets.toList = [0, 3, 5, 1, 2] ∧
      determinize halving 2 5 = .ok (states, sets) ∧ determinize halving 2 4 = .error #[] := by
  have hdead : ∀ t ∈ halving.successors halving.dead, t = halving.dead := by decide
  have hclasses : ∀ s, (halving.successors s).length = 2 := fun _ => rfl
  have hset : {s | halving.Reached s} = (({0, 3, 5, 1, 2} : Finset Nat) : Set Nat) := by
    ext s
    simpa using halving_reached s
  have hfinite : {s | halving.Reached s}.Finite := hset ▸ Finset.finite_toSet _
  have hcard : {s | halving.Reached s}.ncard = 5 := by
    rw [hset, Set.ncard_coe_finset]
    decide
  obtain ⟨states, sets, hdisc, hdet⟩ := determinize_exact hdead hclasses hfinite
  refine ⟨hdead, hclasses, hfinite, states, sets, hdisc, ?_, ?_, ?_⟩
  · obtain ⟨n, hn⟩ := hdisc.order
    have hlevels : (halving.levels 3).eraseDups <+: sets.toList := by
      rw [hn _ (Nat.le_max_left n 3)]
      exact eraseDups_mono (halving.levels_mono (Nat.le_max_right n 3))
    have hsub : sets.toList ⊆ [0, 3, 5, 1, 2] := fun s hs =>
      (halving_reached s).1 ((hdisc.mem_iff s).1 (Array.mem_toList_iff.1 hs))
    exact (hlevels.eq_of_length_le (List.subperm_of_subset hdisc.nodup hsub).length_le).symm
  · rw [hdet 5 (by decide), hcard, if_pos (by decide)]
  · rw [hdet 4 (by decide), hcard, if_neg (by decide)]

end ByteRegex.Dfa
