-- How a nondeterministic automaton moves over a text: from a state before one
-- place to a state before the same place or the next. The moves are in the
-- order of preference.
import ByteRegex.Dfa.Subset
import ByteRegex.Matcher
import Mathlib.Logic.Relation
import Mathlib.Tactic.Common

namespace ByteRegex

/-- What looks can tell of a place of the text. -/
def placeOf (data : Bytes) (i : Nat) : Dfa.LookContext :=
  ⟨i == 0, i == data.size, Matcher.wordBefore data i, Matcher.wordAt data i⟩

namespace Nfa

open Relation (ReflTransGen)

/-- Where an edge leads from the place `i`, if it can be taken there. -/
def Edge.next? (data : Bytes) (i : Nat) : Edge → Option (Nat × Nat)
  | eps t => some (t, i)
  | bytes lo hi t => if data[i]?.any fun b => lo ≤ b && b ≤ hi then some (t, i + 1) else none
  | look k t => if (placeOf data i).holds k then some (t, i) else none

theorem next?_bytes {data : Bytes} {i t : Nat} {lo hi : UInt8} {c : Nat × Nat} :
    (Edge.bytes lo hi t).next? data i = some c ↔
      ∃ b, data[i]? = some b ∧ lo ≤ b ∧ b ≤ hi ∧ c = (t, i + 1) := by
  rw [Edge.next?]
  rcases hd : data[i]? with _ | b
  · simp
  · by_cases hb : lo ≤ b ∧ b ≤ hi
    · simp [hb, eq_comm]
    · simpa [hb] using fun h1 h2 _ => hb ⟨h1, h2⟩

theorem next?_look {data : Bytes} {i t : Nat} {k : Look} {c : Nat × Nat} :
    (Edge.look k t).next? data i = some c ↔ (placeOf data i).holds k = true ∧ c = (t, i) := by
  rw [Edge.next?]
  by_cases h : (placeOf data i).holds k = true
  · simp [h, eq_comm]
  · simp [h]

/-- Where the edges of a state lead from a place, the preferred ones first. -/
def moves (n : Nfa) (data : Bytes) (c : Nat × Nat) : List (Nat × Nat) :=
  (n.state c.1).edges.toList.filterMap (Edge.next? data c.2)

/-- The state accepts. -/
def Accepting (n : Nfa) (s : Nat) : Prop := (n.state s).accept.isSome = true

variable {n : Nfa} {data : Bytes}

/-- Behind the last state there are no edges. -/
theorem state_of_le {s : Nat} (h : n.size ≤ s) : n.state s = {} := by
  rw [state, Array.getD_eq_getD_getElem?, Array.getElem?_eq_none h]
  rfl

theorem mem_moves {c c' : Nat × Nat} :
    c' ∈ n.moves data c ↔ ∃ e ∈ (n.state c.1).edges.toList, e.next? data c.2 = some c' := by
  rw [moves, List.mem_filterMap]

/-- A move keeps the place or goes on by one byte of the text. -/
theorem moves_place {c c' : Nat × Nat} (h : c' ∈ n.moves data c) :
    c'.2 = c.2 ∨ (c'.2 = c.2 + 1 ∧ c.2 < data.size) := by
  obtain ⟨e, _, he⟩ := mem_moves.1 h
  cases e with
  | eps t =>
    obtain rfl := Option.some.inj he
    exact Or.inl rfl
  | bytes lo hi t =>
    obtain ⟨b, hb, _, _, rfl⟩ := next?_bytes.1 he
    exact Or.inr ⟨rfl, (Array.getElem?_eq_some_iff.1 hb).1⟩
  | look k t =>
    obtain ⟨_, rfl⟩ := next?_look.1 he
    exact Or.inl rfl

/-! ## Paths -/

/-- Some number of moves. -/
def Steps (n : Nfa) (data : Bytes) : Nat × Nat → Nat × Nat → Prop :=
  ReflTransGen fun c c' => c' ∈ n.moves data c

namespace Steps

theorem refl (c : Nat × Nat) : Steps n data c c := ReflTransGen.refl

theorem head {c c' d : Nat × Nat} (h : c' ∈ n.moves data c) (hd : Steps n data c' d) :
    Steps n data c d := ReflTransGen.head h hd

theorem tail {c d d' : Nat × Nat} (h : Steps n data c d) (hd : d' ∈ n.moves data d) :
    Steps n data c d' := ReflTransGen.tail h hd

theorem trans {c d e : Nat × Nat} (h : Steps n data c d) (hd : Steps n data d e) :
    Steps n data c e := ReflTransGen.trans h hd

theorem place_le {c d : Nat × Nat} (h : Steps n data c d) : c.2 ≤ d.2 := by
  induction h with
  | refl => exact Nat.le_refl _
  | tail _ hm ih => rcases moves_place hm with h | ⟨h, _⟩ <;> omega

theorem le_size {c d : Nat × Nat} (h : Steps n data c d) (hc : c.2 ≤ data.size) :
    d.2 ≤ data.size := by
  induction h with
  | refl => exact hc
  | tail _ hm ih => rcases moves_place hm with h | ⟨h, _⟩ <;> omega

end Steps

/-- After `k` moves from `c` the automaton accepts before the place `e`. -/
inductive Ends (n : Nfa) (data : Bytes) : Nat → Nat × Nat → Nat → Prop
  | accept {s i : Nat} : n.Accepting s → Ends n data 0 (s, i) i
  | move {k e : Nat} {c c' : Nat × Nat} :
      c' ∈ n.moves data c → Ends n data k c' e → Ends n data (k + 1) c e

/-- From `c` the automaton can get to accept before the place `e`. -/
def Reaches (n : Nfa) (data : Bytes) (c : Nat × Nat) (e : Nat) : Prop := ∃ k, Ends n data k c e

namespace Reaches

theorem accept {s i : Nat} (h : n.Accepting s) : Reaches n data (s, i) i := ⟨0, .accept h⟩

theorem move {c c' : Nat × Nat} {e : Nat} (h : c' ∈ n.moves data c)
    (he : Reaches n data c' e) : Reaches n data c e := by
  obtain ⟨k, hk⟩ := he
  exact ⟨k + 1, .move h hk⟩

theorem of_steps {c d : Nat × Nat} {e : Nat} (h : Steps n data c d) (he : Reaches n data d e) :
    Reaches n data c e := by
  induction h using ReflTransGen.head_induction_on with
  | refl => exact he
  | head hm _ ih => exact move hm ih

/-- The automaton gets to accept along some path. -/
theorem iff_steps {c : Nat × Nat} {e : Nat} :
    Reaches n data c e ↔ ∃ t, n.Accepting t ∧ Steps n data c (t, e) := by
  constructor
  · rintro ⟨k, h⟩
    induction h with
    | accept ha => exact ⟨_, ha, Steps.refl _⟩
    | move hm _ ih =>
      obtain ⟨t, ht, hs⟩ := ih
      exact ⟨t, ht, Steps.head hm hs⟩
  · rintro ⟨t, ht, hs⟩
    exact of_steps hs (accept ht)

/-- Over texts with the same moves the automaton gets to accept in the same places. -/
theorem congr {data' : Bytes} (h : ∀ c c', c' ∈ n.moves data c ↔ c' ∈ n.moves data' c)
    {c : Nat × Nat} {e : Nat} : Reaches n data c e ↔ Reaches n data' c e := by
  have hmoves : (fun c c' => c' ∈ n.moves data c) = fun c c' => c' ∈ n.moves data' c := by
    funext c c'
    exact propext (h c c')
  rw [iff_steps, iff_steps, Steps, Steps, hmoves]

theorem cases {c : Nat × Nat} {e : Nat} (h : Reaches n data c e) :
    (n.Accepting c.1 ∧ e = c.2) ∨ ∃ c' ∈ n.moves data c, Reaches n data c' e := by
  obtain ⟨k, h⟩ := h
  cases h with
  | accept ha => exact Or.inl ⟨ha, rfl⟩
  | move hm hk => exact Or.inr ⟨_, hm, _, hk⟩

end Reaches

/-- A path to the one state that accepts is a way to get to accept. -/
theorem steps_iff_reaches {goal : Nat} (h : ∀ t, n.Accepting t ↔ t = goal) {c : Nat × Nat}
    {e : Nat} : n.Steps data c (goal, e) ↔ n.Reaches data c e := by
  rw [Reaches.iff_steps]
  constructor
  · intro hsteps
    exact ⟨goal, (h goal).2 rfl, hsteps⟩
  · rintro ⟨t, ht, hsteps⟩
    rw [(h t).1 ht] at hsteps
    exact hsteps

/-! ## The preferred path -/

/-- A search from the entries of a stack, depth first and without any marks, for the first place
before which the automaton accepts. -/
inductive First (n : Nfa) (data : Bytes) : List (Nat × Nat) → Option Nat → Prop
  | nil : First n data [] none
  | accept {s i : Nat} {rest : List (Nat × Nat)} :
      n.Accepting s → First n data ((s, i) :: rest) (some i)
  | enter {c : Nat × Nat} {rest : List (Nat × Nat)} {r : Option Nat} :
      ¬ n.Accepting c.1 → First n data (n.moves data c ++ rest) r → First n data (c :: rest) r

namespace First

theorem append_some {xs ys : List (Nat × Nat)} {e : Nat} (h : First n data xs (some e)) :
    First n data (xs ++ ys) (some e) := by
  generalize hr : some e = r at h
  induction h with
  | nil => cases hr
  | accept ha =>
    exact .accept ha
  | enter ha _ ih => exact .enter ha (List.append_assoc .. ▸ ih hr)

theorem append_none {xs ys : List (Nat × Nat)} {r : Option Nat} (h : First n data xs none)
    (h' : First n data ys r) : First n data (xs ++ ys) r := by
  generalize hq : none = q at h
  induction h with
  | nil => exact h'
  | accept => cases hq
  | enter ha _ ih => exact .enter ha (List.append_assoc .. ▸ ih hq)

/-- A search has one result. -/
theorem unique {xs : List (Nat × Nat)} {r r' : Option Nat} (h : First n data xs r)
    (h' : First n data xs r') : r = r' := by
  induction h with
  | nil => cases h'; rfl
  | accept ha =>
    cases h' with
    | accept => rfl
    | enter hna => exact absurd ha hna
  | enter ha _ ih =>
    cases h' with
    | accept ha' => exact absurd ha' ha
    | enter _ h' => exact ih h'

end First

end Nfa

end ByteRegex
