-- The projection of a range of code points is exact. Each sequence of byte
-- ranges stands for one run of code points, and the runs follow each other in
-- ascending order, so that no byte string is admitted twice.
import ByteRegex.Proofs.Utf8

namespace ByteRegex.Utf8

/-- The sequence admits the encoding of the code point. -/
def Covers (s : List ByteRange) (c : Nat) : Prop := IsScalar c ∧ admits s (encode c) = true

/-- The sequences are the projection of the code points from `lo` to `hi`. -/
structure Projects (ss : List (List ByteRange)) (lo hi : Nat) : Prop where
  length : ∀ s ∈ ss, 1 ≤ s.length ∧ s.length ≤ 4
  admits_length : ∀ s ∈ ss, ∀ bs, admits s bs = true → bs.length = s.length
  admits_iff : ∀ bs, (∃ s ∈ ss, admits s bs = true) ↔ EncodesOneOf lo hi bs
  once : ∀ bs, ss.countP (admits · bs) ≤ 1
  /-- The code points that a sequence covers are a run without gaps. -/
  run : ∀ s ∈ ss, ∃ r : Interval, r.lo ≤ r.hi ∧ ∀ c, Covers s c ↔ r.lo ≤ c ∧ c ≤ r.hi
  ascending : ss.Pairwise fun s t => ∀ c d, Covers s c → Covers t d → c < d

variable {lo hi : Nat} {s : List ByteRange}

/-! ## One sequence -/

theorem length_of_admits {s : List ByteRange} {bs : List UInt8} (h : admits s bs = true) :
    bs.length = s.length := by
  fun_induction admits s bs with
  | case1 => rfl
  | case2 r s b bs ih =>
    rw [List.length_cons, List.length_cons, ih (Bool.and_eq_true_iff.1 h).2]
  | case3 => cases h

/-- The range needs no cut: its ends give the ranges of the bytes. -/
structure Block (a b : Nat) : Prop where
  le : a ≤ b
  le_max : b ≤ maxCodePoint
  text : ∀ c, a ≤ c → c ≤ b → isSurrogate c = false
  tailCount_eq : tailCount a = tailCount b
  aligned : Aligned (tailCount a) a b

/-- The sequence of a block covers just the block. -/
theorem Block.covers_iff {a b c : Nat} (h : Block a b) :
    Covers (List.zipWith ByteRange.mk (encode a) (encode b)) c ↔ a ≤ c ∧ c ≤ b := by
  unfold Covers
  rw [admits_zipWith_encode h.le h.le_max h.tailCount_eq h.aligned]
  constructor
  · rintro ⟨hc, c', h1, h2, heq⟩
    have hc' : IsScalar c' := ⟨Nat.le_trans h2 h.le_max, h.text c' h1 h2⟩
    obtain rfl := encode_unique hc hc' (congrArg (· ++ []) heq)
    exact ⟨h1, h2⟩
  · rintro ⟨h1, h2⟩
    exact ⟨⟨Nat.le_trans h2 h.le_max, h.text c h1 h2⟩, c, h1, h2, rfl⟩

theorem Block.length_le {a b : Nat} (h : Block a b) :
    1 ≤ (List.zipWith ByteRange.mk (encode a) (encode b)).length ∧
      (List.zipWith ByteRange.mk (encode a) (encode b)).length ≤ 4 := by
  have htail : tailCount b ≤ 3 := by
    unfold tailCount
    grind
  rw [List.length_zipWith, length_encode, length_encode, h.tailCount_eq, Nat.min_self]
  omega

/-- The cuts go on until every sequence is that of a block. -/
theorem exists_block (hmax : hi ≤ maxCodePoint) (hs : s ∈ sequences lo hi) :
    ∃ a b, Block a b ∧ s = List.zipWith ByteRange.mk (encode a) (encode b) := by
  fun_induction sequences lo hi with
  | case1 => cases hs
  | case2 lo hi hle hsur ih1 ih2 =>
    rcases List.mem_append.1 hs with hs | hs
    · split at hs
      · rename_i hlo
        exact ih1 hlo (by decide) hs
      · cases hs
    · split at hs
      · rename_i hhi
        exact ih2 hhi hmax hs
      · cases hs
  | case3 lo hi hle hsur m hm hbounds ih1 ih2 =>
    rcases List.mem_append.1 hs with hs | hs
    · exact ih1 (Nat.le_trans (Nat.le_of_lt hbounds.2) hmax) hs
    · exact ih2 hmax hs
  | case4 lo hi hle hsur hcut =>
    obtain ⟨htail, hal⟩ := cut?_eq_none (Nat.le_of_not_lt hle) hcut
    refine ⟨lo, hi, ⟨Nat.le_of_not_lt hle, hmax, fun c h1 h2 => ?_, htail, hal⟩,
      List.mem_singleton.1 hs⟩
    exact isSurrogate_eq_false.2 (by omega)

/-! ## All sequences -/

/-- The sequences for a range cover only its members. -/
theorem bounds_of_covers {c : Nat} (hmax : hi ≤ maxCodePoint) (hs : s ∈ sequences lo hi)
    (hc : Covers s c) : lo ≤ c ∧ c ≤ hi := by
  obtain ⟨c', h1, h2, h3, heq⟩ := (admits_sequences hmax (encode c)).1 ⟨s, hs, hc.2⟩
  obtain rfl := encode_unique hc.1 ⟨Nat.le_trans h2 hmax, h3⟩ (congrArg (· ++ []) heq)
  exact ⟨h1, h2⟩

/-- What comes before a cut covers less than what comes behind it. -/
theorem covers_lt {m c d : Nat} {t : List ByteRange} (hm : m ≤ maxCodePoint)
    (hmax : hi ≤ maxCodePoint) {next : Nat} (hnext : m < next) (hs : s ∈ sequences lo m)
    (ht : t ∈ sequences next hi) (hc : Covers s c) (hd : Covers t d) : c < d := by
  have h1 := (bounds_of_covers hm hs hc).2
  have h2 := (bounds_of_covers hmax ht hd).1
  omega

theorem pairwise_sequences (hmax : hi ≤ maxCodePoint) :
    (sequences lo hi).Pairwise fun s t => ∀ c d, Covers s c → Covers t d → c < d := by
  fun_induction sequences lo hi with
  | case1 => exact .nil
  | case2 lo hi hle hsur ih1 ih2 =>
    refine List.pairwise_append.2 ⟨?_, ?_, fun s hs t ht c d => ?_⟩
    · split
      · rename_i hlo
        exact ih1 hlo (by decide)
      · exact .nil
    · split
      · rename_i hhi
        exact ih2 hhi hmax
      · exact .nil
    · split at hs
      · split at ht
        · exact covers_lt (by decide) hmax (by decide) hs ht
        · cases ht
      · cases hs
  | case3 lo hi hle hsur m hm hbounds ih1 ih2 =>
    have hmid : m ≤ maxCodePoint := Nat.le_trans (Nat.le_of_lt hbounds.2) hmax
    refine List.pairwise_append.2 ⟨ih1 hmid, ih2 hmax, fun s hs t ht c d => ?_⟩
    exact covers_lt hmid hmax (Nat.lt_succ_self m) hs ht
  | case4 => exact List.pairwise_singleton _ _

/-- Of sequences that cover ascending runs only one admits an encoding. -/
theorem countP_admits_le {ss : List (List ByteRange)} {bs : List UInt8}
    (h : ss.Pairwise fun s t => ∀ c d, Covers s c → Covers t d → c < d)
    (hbs : ∀ s ∈ ss, admits s bs = true → ∃ c, Covers s c ∧ bs = encode c) :
    ss.countP (admits · bs) ≤ 1 := by
  induction ss with
  | nil => exact Nat.zero_le 1
  | cons s ss ih =>
    obtain ⟨hhead, htail⟩ := List.pairwise_cons.1 h
    rw [List.countP_cons]
    split
    · rename_i hadmits
      obtain ⟨c, hc, rfl⟩ := hbs s List.mem_cons_self hadmits
      have hnone : ss.countP (admits · (encode c)) = 0 := by
        refine List.countP_eq_zero.2 fun t ht htc => ?_
        exact Nat.lt_irrefl c (hhead t ht c c hc ⟨hc.1, htc⟩)
      exact Nat.le_of_eq (congrArg (· + 1) hnone)
    · exact ih htail fun t ht => hbs t (List.mem_cons_of_mem s ht)

/-- The sequences for a range of code points are its projection: they admit the encodings of its
members and no other bytes, none of them twice, and in ascending order. -/
theorem sequences_project (hmax : hi ≤ maxCodePoint) : Projects (sequences lo hi) lo hi where
  length s hs := by
    obtain ⟨a, b, hblock, rfl⟩ := exists_block hmax hs
    exact hblock.length_le
  admits_length s _ bs := length_of_admits
  admits_iff bs := admits_sequences hmax bs
  once bs := by
    refine countP_admits_le (pairwise_sequences hmax) fun s hs hbs => ?_
    obtain ⟨c, h1, h2, h3, rfl⟩ := (admits_sequences hmax bs).1 ⟨s, hs, hbs⟩
    exact ⟨c, ⟨⟨Nat.le_trans h2 hmax, h3⟩, hbs⟩, rfl⟩
  run s hs := by
    obtain ⟨a, b, hblock, rfl⟩ := exists_block hmax hs
    exact ⟨⟨a, b⟩, hblock.le, fun c => hblock.covers_iff⟩
  ascending := pairwise_sequences hmax

/-- From the last code point of two bytes to the first behind the surrogates. The bytes are those of
the code point 0x20ac. -/
theorem sequences_project_aroundSurrogates :
    0xe000 ≤ maxCodePoint ∧ Projects (sequences 0x7ff 0xe000) 0x7ff 0xe000 ∧
      (sequences 0x7ff 0xe000).countP (admits · [0xe2, 0x82, 0xac]) = 1 := by
  have hmax : 0xe000 ≤ maxCodePoint := by decide
  have h : Projects (sequences 0x7ff 0xe000) 0x7ff 0xe000 := sequences_project hmax
  refine ⟨hmax, h, Nat.le_antisymm (h.once _) (List.countP_pos_iff.2 ?_)⟩
  exact (h.admits_iff _).2 ⟨0x20ac, by decide, by decide, by decide, by decide⟩

end ByteRegex.Utf8
