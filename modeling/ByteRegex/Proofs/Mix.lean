-- The shares of the rolls. Words are compared with 100 after their sum has
-- wrapped, so the shares are percentages as long as no request gets in that way.
-- Then each roll comes up for as many of the numbers below 100 as its share says.
import ByteRegex.Draws
import Mathlib.Algebra.BigOperators.Group.Finset.Basic
import Mathlib.Order.Interval.Finset.Nat

namespace ByteRegex.Mix

/-! ## Requests -/

/-- Three new shares, as 32-bit words. -/
structure Request where
  matching : UInt32
  mismatching : UInt32
  random : UInt32
deriving DecidableEq

namespace Request

/-- What the words add up to. -/
def sum (c : Request) : Nat := c.matching.toNat + c.mismatching.toNat + c.random.toNat

/-- The words add up to 100 only after their sum has wrapped. -/
def Wraps (c : Request) : Prop := c.sum % (maxWord + 1) = 100 ∧ c.sum ≠ 100

/-- The mix that the request asks for, unless it is refused. -/
def mix? (c : Request) : Option Mix :=
  update? c.matching.toNat c.mismatching.toNat c.random.toNat

theorem mix?_eq (c : Request) :
    c.mix? = if c.sum % (maxWord + 1) = 100 then
      some ⟨c.matching.toNat, c.mismatching.toNat, c.random.toNat⟩ else none := rfl

end Request

/-- The mix after a request. A refused one leaves it as it is. -/
def after (m : Mix) (c : Request) : Mix := c.mix?.getD m

/-- The mix after some requests, from the one that a generator starts with. -/
def afterAll (cs : List Request) : Mix := cs.foldl after {}

/-- What the shares add up to. -/
def total (m : Mix) : Nat := m.matching + m.mismatching + m.random

theorem afterAll_append (cs : List Request) (c : Request) :
    afterAll (cs ++ [c]) = (afterAll cs).after c := by
  simp [afterAll, List.foldl_append]

/-- The shares are those of the start or of a request that was not refused. -/
theorem total_afterAll (cs : List Request) :
    (afterAll cs).total = 100 ∨
      ∃ c ∈ cs, c.sum % (maxWord + 1) = 100 ∧ (afterAll cs).total = c.sum := by
  induction cs using List.reverseRecOn with
  | nil => exact Or.inl rfl
  | append_singleton cs c ih =>
    rw [afterAll_append, after, Request.mix?_eq]
    split
    next h => exact Or.inr ⟨c, by simp, h, rfl⟩
    next =>
      rcases ih with h | ⟨c', hc', h⟩
      · exact Or.inl h
      · exact Or.inr ⟨c', List.mem_append_left _ hc', h⟩

/-! ## Rolls -/

/-- How often a roll comes up. -/
def share (m : Mix) : Roll → Nat
  | .matching => m.matching
  | .mismatching => m.mismatching
  | .random => m.random

/-- The roll where `n` is drawn, or would be. -/
def rolled (m : Mix) (n : Nat) : Roll := (m.roll ⟨#[n], 0⟩).1

/-- How many of the numbers below 100 give a roll. -/
def timesRolled (m : Mix) (r : Roll) : Nat :=
  ((Finset.range 100).filter fun n => m.rolled n = r).card

theorem roll_eq (m : Mix) (d : Draws) :
    (m.roll d).1 = if m.matching = 100 then .matching else if m.mismatching = 100 then .mismatching
      else if m.random = 100 then .random else m.rollFor (Draws.between 0 99 d).1 := by
  unfold roll
  split
  · rfl
  · split
    · rfl
    · split <;> rfl

theorem between_single {n : Nat} (h : n < 100) : (Draws.between 0 99 ⟨#[n], 0⟩).1 = n := by
  simp [Draws.between, Nat.mod_eq_of_lt h]

/-- A number gives one of the three rolls. -/
theorem timesRolled_sum (m : Mix) :
    m.timesRolled .matching + m.timesRolled .mismatching + m.timesRolled .random = 100 := by
  have hsplit := Finset.card_eq_sum_card_fiberwise (f := m.rolled) (s := Finset.range 100)
    (t := {Roll.matching, .mismatching, .random}) (by intro n _; cases m.rolled n <;> simp)
  simp only [Finset.card_range, Finset.mem_insert, Finset.mem_singleton, reduceCtorEq, or_self,
    not_false_eq_true, Finset.sum_insert, Finset.sum_singleton] at hsplit
  unfold timesRolled
  omega

/-- Where the shares are percentages no sum wraps, and a share of 100 is no exception. -/
theorem rolled_eq {m : Mix} (h : m.total = 100) {n : Nat} (hn : n < 100) :
    m.rolled n = if n < m.matching then .matching
      else if n < m.matching + m.mismatching then .mismatching else .random := by
  have hwrap : (m.matching + m.mismatching) % (maxWord + 1) = m.matching + m.mismatching :=
    Nat.mod_eq_of_lt (by simp only [total, maxWord] at *; omega)
  rw [rolled, roll_eq, between_single hn, rollFor, hwrap]
  unfold total at h
  by_cases h1 : m.matching = 100
  · rw [if_pos h1, if_pos (by omega)]
  · by_cases h2 : m.mismatching = 100
    · rw [if_neg h1, if_pos h2, if_neg (by omega), if_pos (by omega)]
    · by_cases h3 : m.random = 100
      · rw [if_neg h1, if_neg h2, if_pos h3, if_neg (by omega), if_neg (by omega)]
      · rw [if_neg h1, if_neg h2, if_neg h3]

theorem timesRolled_eq_share {m : Mix} (h : m.total = 100) (r : Roll) :
    m.timesRolled r = m.share r := by
  -- the numbers that give a roll stand next to one another
  have hfilter : (Finset.range 100).filter (fun n => m.rolled n = r) = match r with
      | .matching => Finset.Ico 0 m.matching
      | .mismatching => Finset.Ico m.matching (m.matching + m.mismatching)
      | .random => Finset.Ico (m.matching + m.mismatching) 100 := by
    rw [Finset.filter_congr fun n hn => by rw [rolled_eq h (Finset.mem_range.1 hn)]]
    unfold total at h
    ext n
    rw [Finset.mem_filter, Finset.mem_range]
    cases r <;> simp only [Finset.mem_Ico] <;> grind
  rw [timesRolled, hfilter]
  unfold total at h
  cases r with
  | matching => simp [share]
  | mismatching => simp [share]
  | random =>
    simp only [Nat.card_Ico, share]
    omega

/-- The shares are percentages just if each roll comes up as often as its share says. -/
theorem total_eq_iff (m : Mix) : m.total = 100 ↔ ∀ r, m.timesRolled r = m.share r := by
  refine ⟨timesRolled_eq_share, fun h => ?_⟩
  have hsum := m.timesRolled_sum
  rw [h, h, h] at hsum
  exact hsum

/-! ## Requests one after another -/

/-- Three words are accepted just if they add up to 100 as a word, and change nothing otherwise. So
after any requests the shares add up to 100 as a word. They are percentages just if each roll comes
up for as many of the numbers below 100 as its share says, and so they are if no request wraps. -/
theorem percentages_kept (cs : List Request) :
    (∀ c, (c.mix? = none ↔ c.sum % (maxWord + 1) ≠ 100) ∧
      (c.mix? = none → afterAll (cs ++ [c]) = afterAll cs)) ∧
    (afterAll cs).total % (maxWord + 1) = 100 ∧
    ((afterAll cs).total = 100 ↔ ∀ r, (afterAll cs).timesRolled r = (afterAll cs).share r) ∧
    ((∀ c ∈ cs, ¬ c.Wraps) → (afterAll cs).total = 100 ∧
      ∀ r, (afterAll cs).timesRolled r = (afterAll cs).share r) := by
  refine ⟨fun c => ⟨?_, fun h => ?_⟩, ?_, total_eq_iff _, fun h => ?_⟩
  · rw [Request.mix?_eq]
    split <;> simp_all
  · rw [afterAll_append, after, h, Option.getD_none]
  · rcases total_afterAll cs with h | ⟨c, _, hmod, h⟩
    · rw [h]
      rfl
    · rw [h, hmod]
  · have htotal : (afterAll cs).total = 100 := by
      rcases total_afterAll cs with hstart | ⟨c, hc, hmod, heq⟩
      · exact hstart
      · by_contra hne
        exact h c hc ⟨hmod, fun hsum => hne (heq.trans hsum)⟩
    exact ⟨htotal, (total_eq_iff _).1 htotal⟩

/-- Two halves of the range of words and 100. -/
def halves : Request := ⟨0x80000000, 0x80000000, 100⟩

/-- A request that wraps is accepted. The shares are no percentages then, and every roll is
random. -/
theorem percentages_kept_halves_ne :
    halves.Wraps ∧ (afterAll [halves]).total = 2 ^ 32 + 100 ∧
      (afterAll [halves]).timesRolled .matching = 0 ∧
        (afterAll [halves]).share .matching = 2 ^ 31 := by
  have hroll : ∀ n, (afterAll [halves]).rolled n = .random := fun _ => rfl
  refine ⟨⟨by decide, by decide⟩, by decide, ?_, by decide⟩
  simp [timesRolled, hroll]

/-- The second request is refused: it adds up to 110. -/
theorem percentages_kept_quarters : (∀ c ∈ [⟨50, 25, 25⟩, ⟨50, 30, 30⟩], ¬ Request.Wraps c) ∧
    afterAll [⟨50, 25, 25⟩, ⟨50, 30, 30⟩] = ⟨50, 25, 25⟩ ∧
      (afterAll [⟨50, 25, 25⟩, ⟨50, 30, 30⟩]).timesRolled .mismatching = 25 := by
  have hwraps : ∀ c ∈ [⟨50, 25, 25⟩, ⟨50, 30, 30⟩], ¬ Request.Wraps c := by
    intro c hc
    rcases List.mem_pair.1 hc with rfl | rfl <;> simp [Request.Wraps, Request.sum, maxWord]
  have hafter : afterAll [⟨50, 25, 25⟩, ⟨50, 30, 30⟩] = ⟨50, 25, 25⟩ := by decide
  obtain ⟨_, _, _, hkept⟩ := percentages_kept [⟨50, 25, 25⟩, ⟨50, 30, 30⟩]
  exact ⟨hwraps, hafter, (hkept hwraps).2 .mismatching⟩

end ByteRegex.Mix
