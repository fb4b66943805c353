-- The walk over the members of a set. Its words are searched for their lowest
-- bits, and what is found is the least member from some byte on.
import ByteRegex.ByteSet

namespace ByteRegex.ByteSet

variable {s : ByteSet} {c : UInt8}

/-! ## Bits of words -/

/-- Bit `n` of a row of words. -/
def bitAt (ws : List (BitVec 64)) (n : Nat) : Bool := (ws.getD (n / 64) 0).getLsbD (n % 64)

theorem bitAt_cons (w : BitVec 64) (ws : List (BitVec 64)) (n : Nat) :
    bitAt (w :: ws) n = if n < 64 then w.getLsbD n else bitAt ws (n - 64) := by
  unfold bitAt
  split
  next h => rw [Nat.div_eq_of_lt h, Nat.mod_eq_of_lt h, List.getD_cons_zero]
  next h =>
    obtain ⟨k, rfl⟩ := Nat.exists_eq_add_of_le (Nat.not_lt.1 h)
    rw [Nat.add_div_left _ (by decide), Nat.add_mod_left, List.getD_cons_succ,
      Nat.add_sub_cancel_left]

theorem bitAt_drop (ws : List (BitVec 64)) (i n : Nat) :
    bitAt (ws.drop i) n = bitAt ws (64 * i + n) := by
  unfold bitAt
  rw [Nat.mul_add_div (by decide), Nat.mul_add_mod, List.getD_eq_getElem?_getD,
    List.getElem?_drop, ← List.getD_eq_getElem?_getD]

theorem bitAt_words (s : ByteSet) (n : Nat) : bitAt s.words n = s.bits.getLsbD n := by
  unfold bitAt words
  rw [List.getD_eq_getElem?_getD, List.getElem?_map]
  by_cases h : n / 64 < 4
  · rw [List.getElem?_range h, Option.map_some, Option.getD_some, BitVec.getLsbD_extractLsb',
      Nat.div_add_mod, decide_eq_true (Nat.mod_lt n (by decide)), Bool.true_and]
  · rw [List.getElem?_eq_none (by simpa using h), Option.map_none, Option.getD_none,
      BitVec.getLsbD_of_ge s.bits n (by omega)]
    simp

theorem getLsbD_bitsFrom {n : Nat} (hn : n < 64) (w : BitVec 64) (j : Nat) :
    (bitsFrom n w).getLsbD j = (decide (n ≤ j) && w.getLsbD j) := by
  have hpow : 2 ^ n < 2 ^ 64 := Nat.pow_lt_pow_right (by decide) hn
  have hpos : 0 < 2 ^ n := Nat.two_pow_pos n
  have hmask : BitVec.twoPow 64 n - 1 = BitVec.ofNat 64 (2 ^ n - 1) := by
    apply BitVec.eq_of_toNat_eq
    rw [BitVec.toNat_sub, BitVec.toNat_twoPow_of_lt hn, BitVec.toNat_ofNat,
      Nat.mod_eq_of_lt (by omega : 2 ^ n - 1 < 2 ^ 64), show (1 : BitVec 64).toNat = 1 from rfl]
    omega
  rw [bitsFrom, hmask, BitVec.getLsbD_and, BitVec.getLsbD_not, BitVec.getLsbD_ofNat,
    Nat.testBit_two_pow_sub_one]
  by_cases hj : j < 64
  · by_cases hnj : n ≤ j
    · simp [hj, hnj, Nat.not_lt.2 hnj]
    · simp [hj, hnj, Nat.not_le.1 hnj]
  · rw [BitVec.getLsbD_of_ge w j (Nat.not_lt.1 hj), Bool.false_and, Bool.and_false]

/-! ## The lowest bit -/

theorem lowest?_eq_none {i : Nat} {ws : List (BitVec 64)} (h : lowest? i ws = none) (n : Nat) :
    bitAt ws n = false := by
  induction ws generalizing i n with
  | nil => simp [bitAt]
  | cons w ws ih =>
    rw [lowest?] at h
    split at h
    next hw =>
      rw [bitAt_cons, hw, ih h]
      exact ite_eq_right_iff.2 fun _ => BitVec.getLsbD_zero
    next => cases h

theorem lowest?_eq_some {i m : Nat} {ws : List (BitVec 64)} (h : lowest? i ws = some m) :
    64 * i ≤ m ∧ bitAt ws (m - 64 * i) = true ∧ ∀ n < m - 64 * i, bitAt ws n = false := by
  induction ws generalizing i with
  | nil => cases h
  | cons w ws ih =>
    rw [lowest?] at h
    split at h
    next hw =>
      obtain ⟨hle, hbit, hbelow⟩ := ih h
      refine ⟨by omega, ?_, fun n hn => ?_⟩
      · rw [bitAt_cons, if_neg (by omega), ← hbit, Nat.sub_sub]
        rfl
      · rw [bitAt_cons, hw]
        split
        · exact BitVec.getLsbD_zero
        · exact hbelow _ (by omega)
    next hw =>
      have hctz : w.ctz.toNat < 64 := BitVec.lt_def.1 (BitVec.ctz_lt_iff_ne_zero.2 hw)
      obtain rfl := Option.some.inj h
      rw [Nat.add_sub_cancel_left]
      refine ⟨Nat.le_add_right _ _, ?_, fun n hn => ?_⟩
      · rw [bitAt_cons, if_pos hctz]
        exact BitVec.getLsbD_true_ctz_of_ne_zero hw
      · rw [bitAt_cons, if_pos (Nat.lt_trans hn hctz)]
        exact BitVec.getLsbD_false_of_lt_ctz hn

/-! ## The least member -/

/-- The byte is the least member that is not below `k`. -/
structure LeastFrom (s : ByteSet) (k : Nat) (c : UInt8) : Prop where
  le : k ≤ c.toNat
  test : s.test c = true
  least : ∀ b : UInt8, k ≤ b.toNat → b < c → s.test b = false

theorem LeastFrom.unique {k : Nat} {b : UInt8} (hb : s.LeastFrom k b) (hc : s.LeastFrom k c) :
    b = c := by
  rcases Nat.lt_trichotomy b.toNat c.toNat with h | h | h
  · have := hc.least b hb.le (UInt8.lt_iff_toNat_lt.2 h)
    rw [hb.test] at this
    cases this
  · exact UInt8.toNat_inj.1 h
  · have := hb.least c hc.le (UInt8.lt_iff_toNat_lt.2 h)
    rw [hc.test] at this
    cases this

/-- A search of words that hold the members from `k` on finds the least one of these. -/
theorem lowest?_spec {i k : Nat} {ws : List (BitVec 64)} (hik : 64 * i ≤ k)
    (hws : ∀ n, bitAt ws n = (decide (k ≤ 64 * i + n) && s.bits.getLsbD (64 * i + n))) :
    (∀ c, (lowest? i ws).map Nat.toUInt8 = some c ↔ s.LeastFrom k c) ∧
      ((lowest? i ws).map Nat.toUInt8 = none ↔ ∀ b : UInt8, k ≤ b.toNat → s.test b = false) := by
  have hbyte : ∀ b : UInt8, k ≤ b.toNat → bitAt ws (b.toNat - 64 * i) = s.test b := fun b hb => by
    rw [hws, Nat.add_sub_cancel' (by omega), decide_eq_true hb, Bool.true_and, ByteSet.test]
  cases h : lowest? i ws with
  | none =>
    have hnone : ∀ b : UInt8, k ≤ b.toNat → s.test b = false := fun b hb => by
      rw [← hbyte b hb, lowest?_eq_none h]
    refine ⟨fun c => iff_of_false (by simp) fun hc => ?_, iff_of_true rfl hnone⟩
    have := hc.test
    rw [hnone c hc.le] at this
    cases this
  | some m =>
    obtain ⟨hle, hbit, hbelow⟩ := lowest?_eq_some h
    rw [hws, Nat.add_sub_cancel' hle, Bool.and_eq_true, decide_eq_true_eq] at hbit
    obtain ⟨hkm, hbit⟩ := hbit
    have hlt : m < 256 := Nat.lt_of_not_le fun hge => by
      rw [BitVec.getLsbD_of_ge s.bits m hge] at hbit
      cases hbit
    have hm : m.toUInt8.toNat = m := UInt8.toNat_ofNat_of_lt hlt
    have hleast : s.LeastFrom k m.toUInt8 := by
      refine ⟨by rwa [hm], by rwa [ByteSet.test, hm], fun b hb hbm => ?_⟩
      rw [UInt8.lt_iff_toNat_lt, hm] at hbm
      rw [← hbyte b hb]
      exact hbelow _ (by omega)
    refine ⟨fun c => ⟨?_, fun hc => congrArg some (hleast.unique hc)⟩, iff_of_false (by simp) ?_⟩
    · rintro h
      exact Option.some.inj h ▸ hleast
    · intro hnone
      have := hleast.test
      rw [hnone _ hleast.le] at this
      cases this

theorem first?_eq_some_iff : s.first? = some c ↔ s.LeastFrom 0 c :=
  (lowest?_spec (Nat.le_refl _) fun n => by simp [bitAt_words]).1 c

theorem first?_eq_none_iff : s.first? = none ↔ ∀ b, s.test b = false :=
  (lowest?_spec (s := s) (k := 0) (Nat.le_refl _) fun n => by simp [bitAt_words]).2.trans (by simp)

/-- The search behind a byte finds the least member above it, and nothing if there is none. -/
theorem next?_spec (s : ByteSet) (n : Nat) :
    (∀ c, s.next? n = some c ↔ s.LeastFrom (n + 1) c) ∧
      (s.next? n = none ↔ ∀ b : UInt8, n < b.toNat → s.test b = false) := by
  rw [next?]
  split
  next h =>
    have hbeyond : ∀ b : UInt8, ¬ n + 1 ≤ b.toNat := fun b => by
      have := b.toNat_lt
      omega
    exact ⟨fun c => iff_of_false (by simp) fun hc => hbeyond c hc.le,
      iff_of_true rfl fun b hb => absurd hb (hbeyond b)⟩
  next h =>
    have hlength : s.words.length = 4 := by simp [words]
    have hlt : (n + 1) / 64 < s.words.length := by omega
    have hdrop := List.drop_eq_getElem_cons hlt
    simp only [hdrop]
    refine lowest?_spec (Nat.mul_div_le _ _) fun m => ?_
    have hbits := bitAt_drop s.words ((n + 1) / 64) m
    rw [bitAt_words, hdrop, bitAt_cons] at hbits
    rw [bitAt_cons, getLsbD_bitsFrom (Nat.mod_lt _ (by decide)), ← hbits]
    split
    · congr 1
      exact decide_eq_decide.2 (by omega)
    · rw [decide_eq_true (by omega : n + 1 ≤ 64 * ((n + 1) / 64) + m), Bool.true_and]

end ByteRegex.ByteSet
