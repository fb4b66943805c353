-- UTF-8 is exact. Reading inverts writing, and the sequences of byte ranges
-- for a range of code points stand for the encodings of its members only.
import ByteRegex.Utf8
import Mathlib.Algebra.Group.Nat.Defs
import Mathlib.Tactic.Common

namespace ByteRegex.Utf8

/-- A code point that has an encoding. -/
def IsScalar (c : Nat) : Prop := c ≤ maxCodePoint ∧ isSurrogate c = false

/-- The bytes stand at `i` in the text. -/
def StandsAt (data : Bytes) (i : Nat) (bs : List UInt8) : Prop := bs <+: data.toList.drop i

theorem standsAt_nil (data : Bytes) (i : Nat) : StandsAt data i [] := List.nil_prefix

theorem standsAt_cons {data : Bytes} {i : Nat} {b : UInt8} {bs : List UInt8} :
    StandsAt data i (b :: bs) ↔ data[i]? = some b ∧ StandsAt data (i + 1) bs := by
  unfold StandsAt
  by_cases h : i < data.size
  · rw [List.drop_eq_getElem_cons (by simpa using h), List.cons_prefix_cons]
    simp [h, eq_comm]
  · rw [List.drop_of_length_le (by simpa using h)]
    simp [h]

theorem standsAt_append {data : Bytes} {i : Nat} {bs bs' : List UInt8} :
    StandsAt data i (bs ++ bs') ↔ StandsAt data i bs ∧ StandsAt data (i + bs.length) bs' := by
  induction bs generalizing i with
  | nil => simp [standsAt_nil]
  | cons b bs ih =>
    rw [List.cons_append, standsAt_cons, standsAt_cons, ih, and_assoc, List.length_cons,
      Nat.add_assoc, Nat.add_comm 1]

/-! ## The bytes of one code point -/

theorem toNat_toUInt8 {n : Nat} (h : n < 256) : n.toUInt8.toNat = n := by
  simp [Nat.mod_eq_of_lt h]

theorem toNat_continuation (n : Nat) : (continuation n).toNat = 0x80 + n % 0x40 :=
  toNat_toUInt8 (by omega)

/-- The continuation bytes of a code point that has `n` of them. -/
def tailBytes : Nat → Nat → List UInt8
  | 0, _ => []
  | n + 1, c => continuation (c / 64 ^ n) :: tailBytes n c

/-- The number of continuation bytes of a code point. -/
def tailCount (c : Nat) : Nat :=
  if c < 0x80 then 0 else if c < 0x800 then 1 else if c < 0x10000 then 2 else 3

/-- What is added to the upper bits of a code point in a lead byte that
announces `n` continuation bytes. -/
def leadBase : Nat → Nat
  | 0 => 0
  | 1 => 0xc0
  | 2 => 0xe0
  | _ => 0xf0

def leadByte (n c : Nat) : UInt8 := (leadBase n + c / 64 ^ n).toUInt8

theorem encode_eq (c : Nat) :
    encode c = leadByte (tailCount c) c :: tailBytes (tailCount c) c := by
  unfold encode tailCount
  split
  · simp [leadByte, leadBase, tailBytes]
  split
  · simp [leadByte, leadBase, tailBytes]
  split
  · simp [leadByte, leadBase, tailBytes]
  · simp [leadByte, leadBase, tailBytes]

theorem length_tailBytes (n c : Nat) : (tailBytes n c).length = n := by
  induction n with
  | zero => rfl
  | succ n ih => simp [tailBytes, ih]

theorem length_encode (c : Nat) : (encode c).length = tailCount c + 1 := by
  simp [encode_eq, length_tailBytes]

theorem encode_ne_nil (c : Nat) : encode c ≠ [] := by simp [encode_eq]

/-! ## Reading -/

theorem tail?_eq_some_iff {b : UInt8} {n : Nat} :
    tail? b = some n ↔ n < 0x40 ∧ b.toNat = 0x80 + n := by
  unfold tail?
  have hb := b.toNat_lt
  split
  · rename_i h
    simp only [Bool.and_eq_true, decide_eq_true_eq, UInt8.le_iff_toNat_le,
      UInt8.lt_iff_toNat_lt] at h
    simp only [UInt8.reduceToNat] at h
    simp only [Option.some.injEq]
    omega
  · rename_i h
    simp only [Bool.and_eq_true, decide_eq_true_eq, UInt8.le_iff_toNat_le,
      UInt8.lt_iff_toNat_lt] at h
    simp only [UInt8.reduceToNat] at h
    simp only [reduceCtorEq, false_iff]
    omega

theorem readTail_eq_some_iff (data : Bytes) (i n acc c : Nat) :
    readTail data i n acc = some c ↔ c / 64 ^ n = acc ∧ StandsAt data i (tailBytes n c) := by
  induction n generalizing i acc with
  | zero => simp [readTail, tailBytes, standsAt_nil, eq_comm]
  | succ n ih =>
    have hdiv : c / 64 ^ (n + 1) = c / 64 ^ n / 64 := by
      rw [Nat.pow_succ, Nat.div_div_eq_div_mul]
    have hread : readTail data i (n + 1) acc =
        (data[i]?).bind fun b => (tail? b).bind fun t => readTail data (i + 1) n (acc * 0x40 + t) :=
      rfl
    rw [hread, tailBytes, standsAt_cons, hdiv]
    simp only [Option.bind_eq_some_iff, ih, tail?_eq_some_iff]
    constructor
    · rintro ⟨b, hb, t, ⟨ht, hbt⟩, hc, hs⟩
      refine ⟨by omega, ?_, hs⟩
      rw [hb, Option.some.injEq, ← UInt8.toNat_inj, hbt, toNat_continuation]
      omega
    · rintro ⟨hc, hb, hs⟩
      exact ⟨_, hb, c / 64 ^ n % 64, ⟨Nat.mod_lt _ (by decide), toNat_continuation _⟩, by omega, hs⟩

theorem lead?_eq_some_iff {b : UInt8} {n m : Nat} :
    lead? b = some (n, m) ↔
      (n = 0 ∧ b.toNat = m ∧ m < 0x80) ∨ (n = 1 ∧ b.toNat = 0xc0 + m ∧ m < 0x20) ∨
        (n = 2 ∧ b.toNat = 0xe0 + m ∧ m < 0x10) ∨ (n = 3 ∧ b.toNat = 0xf0 + m ∧ m < 8) := by
  unfold lead?
  have hb := b.toNat_lt
  simp only [UInt8.lt_iff_toNat_lt, UInt8.reduceToNat]
  split
  · simp only [Option.some.injEq, Prod.mk.injEq]; omega
  split
  · simp only [reduceCtorEq, false_iff]; omega
  split
  · simp only [Option.some.injEq, Prod.mk.injEq]; omega
  split
  · simp only [Option.some.injEq, Prod.mk.injEq]; omega
  split
  · simp only [Option.some.injEq, Prod.mk.injEq]; omega
  · simp only [reduceCtorEq, false_iff]; omega

/-- A lead byte, the upper bits it holds and the length it announces belong to
a code point exactly if the shortest encoding starts with that byte. -/
theorem lead?_leadByte {b : UInt8} {n c : Nat} (hc : c ≤ maxCodePoint) :
    lead? b = some (n, c / 64 ^ n) ∧ leastWithTail n ≤ c ↔ n = tailCount c ∧ b = leadByte n c := by
  have hmax : maxCodePoint = 0x10ffff := rfl
  rw [lead?_eq_some_iff, ← UInt8.toNat_inj]
  unfold tailCount leadByte
  constructor
  · rintro ⟨⟨rfl, h1, h2⟩ | ⟨rfl, h1, h2⟩ | ⟨rfl, h1, h2⟩ | ⟨rfl, h1, h2⟩, h3⟩
    · simp only [leastWithTail, leadBase, Nat.pow_zero, Nat.div_one] at *
      rw [toNat_toUInt8 (by omega)]
      exact ⟨by rw [if_pos (by omega)], by omega⟩
    · simp only [leastWithTail, leadBase, Nat.pow_one] at *
      rw [toNat_toUInt8 (by omega)]
      exact ⟨by rw [if_neg (by omega), if_pos (by omega)], by omega⟩
    · simp only [leastWithTail, leadBase, Nat.reducePow] at *
      rw [toNat_toUInt8 (by omega)]
      exact ⟨by rw [if_neg (by omega), if_neg (by omega), if_pos (by omega)], by omega⟩
    · simp only [leastWithTail, leadBase, Nat.reducePow] at *
      rw [toNat_toUInt8 (by omega)]
      exact ⟨by rw [if_neg (by omega), if_neg (by omega), if_neg (by omega)], by omega⟩
  · rintro ⟨hn, hb⟩
    rw [hb]
    split at hn
    · subst hn
      simp only [leastWithTail, leadBase, Nat.pow_zero, Nat.div_one]
      rw [toNat_toUInt8 (by omega)]
      exact ⟨Or.inl ⟨trivial, by omega, by omega⟩, by omega⟩
    split at hn
    · subst hn
      simp only [leastWithTail, leadBase, Nat.pow_one]
      rw [toNat_toUInt8 (by omega)]
      exact ⟨Or.inr (Or.inl ⟨trivial, by omega, by omega⟩), by omega⟩
    split at hn
    · subst hn
      simp only [leastWithTail, leadBase, Nat.reducePow]
      rw [toNat_toUInt8 (by omega)]
      exact ⟨Or.inr (Or.inr (Or.inl ⟨trivial, by omega, by omega⟩)), by omega⟩
    · subst hn
      simp only [leastWithTail, leadBase, Nat.reducePow]
      rw [toNat_toUInt8 (by omega)]
      exact ⟨Or.inr (Or.inr (Or.inr ⟨trivial, by omega, by omega⟩)), by omega⟩

/-- Reading gives a code point and a length exactly where its encoding stands. -/
theorem decodeAt_eq_some_iff {data : Bytes} {i c len : Nat} :
    decodeAt data i = some (c, len) ↔
      IsScalar c ∧ StandsAt data i (encode c) ∧ len = (encode c).length := by
  have hread : decodeAt data i = (data[i]?).bind fun b => (lead? b).bind fun r =>
      (readTail data (i + 1) r.1 r.2).bind fun c =>
        if leastWithTail r.1 ≤ c ∧ c ≤ maxCodePoint ∧ isSurrogate c = false
        then some (c, r.1 + 1) else none := rfl
  rw [hread, encode_eq, standsAt_cons]
  simp only [Option.bind_eq_some_iff, readTail_eq_some_iff, List.length_cons, length_tailBytes,
    Option.ite_none_right_eq_some, Option.some.injEq, Prod.mk.injEq, Prod.exists, IsScalar]
  constructor
  · rintro ⟨b, hb, n, m, hl, c', ⟨rfl, hs⟩, ⟨h1, h2, h3⟩, rfl, rfl⟩
    obtain ⟨hn, hb'⟩ := (lead?_leadByte h2).1 ⟨hl, h1⟩
    subst hn
    exact ⟨⟨h2, h3⟩, ⟨hb' ▸ hb, hs⟩, rfl⟩
  · rintro ⟨⟨h2, h3⟩, ⟨hb, hs⟩, rfl⟩
    obtain ⟨hl, h1⟩ := (lead?_leadByte h2).2 ⟨rfl, rfl⟩
    exact ⟨_, hb, _, _, hl, c, ⟨rfl, hs⟩, ⟨h1, h2, h3⟩, rfl, rfl⟩

/-- A code point is told by the bytes that start with its encoding. -/
theorem encode_unique {c c' : Nat} {rest rest' : List UInt8} (hc : IsScalar c) (hc' : IsScalar c')
    (h : encode c ++ rest = encode c' ++ rest') : c = c' := by
  have hstands : ∀ c rest, IsScalar c →
      decodeAt (encode c ++ rest).toArray 0 = some (c, (encode c).length) := by
    intro c rest hc
    exact decodeAt_eq_some_iff.2 ⟨hc, List.prefix_append (encode c) rest, rfl⟩
  have hread := (hstands c rest hc).symm.trans (h ▸ hstands c' rest' hc')
  exact congrArg Prod.fst (Option.some.inj hread)

/-! ## Sequences of byte ranges -/

theorem tailCount_eq_of_between {lo hi c : Nat} (h : tailCount lo = tailCount hi) (h1 : lo ≤ c)
    (h2 : c ≤ hi) : tailCount c = tailCount lo := by
  unfold tailCount at *
  grind

/-- The range fills its blocks of `64 ^ k` code points for every `k` up to `n`,
or lies in one of them. -/
def Aligned (n lo hi : Nat) : Prop :=
  ∀ k, 1 ≤ k → k ≤ n → lo / 64 ^ k = hi / 64 ^ k ∨ (lo % 64 ^ k = 0 ∧ hi % 64 ^ k = 64 ^ k - 1)

theorem aligned_digit {n lo hi : Nat} (h : Aligned (n + 1) lo hi) :
    lo / 64 ^ n / 64 = hi / 64 ^ n / 64 ∨ (lo / 64 ^ n % 64 = 0 ∧ hi / 64 ^ n % 64 = 63) := by
  have hpow : 64 ^ (n + 1) = 64 ^ n * 64 := Nat.pow_succ ..
  have hpos : 0 < 64 ^ n := Nat.pow_pos (by decide)
  rcases h (n + 1) (by omega) (Nat.le_refl _) with h1 | ⟨h1, h2⟩
  · rw [hpow, ← Nat.div_div_eq_div_mul, ← Nat.div_div_eq_div_mul] at h1
    exact Or.inl h1
  · refine Or.inr ⟨?_, ?_⟩
    · rw [← Nat.mod_mul_right_div_self, ← hpow, h1, Nat.zero_div]
    · rw [← Nat.mod_mul_right_div_self, ← hpow, h2, hpow]
      exact Nat.div_eq_of_lt_le (by omega) (by omega)

theorem aligned_mono {n lo hi : Nat} (h : Aligned (n + 1) lo hi) : Aligned n lo hi :=
  fun k h1 h2 => h k h1 (by omega)

theorem contains_iff {r : ByteRange} {b : UInt8} :
    r.contains b = true ↔ r.lo.toNat ≤ b.toNat ∧ b.toNat ≤ r.hi.toNat := by
  simp [ByteRange.contains, UInt8.le_iff_toNat_le]

/-- The ranges between the continuation bytes of the two ends stand for the
continuation bytes of what lies between, among code points with the same upper
bits `u`. -/
theorem admits_tailBytes {n lo hi u : Nat} (h : Aligned n lo hi) (hlo : lo / 64 ^ n ≤ u)
    (hhi : u ≤ hi / 64 ^ n) (bs : List UInt8) :
    admits (List.zipWith ByteRange.mk (tailBytes n lo) (tailBytes n hi)) bs = true ↔
      ∃ c, lo ≤ c ∧ c ≤ hi ∧ c / 64 ^ n = u ∧ bs = tailBytes n c := by
  induction n generalizing u bs with
  | zero =>
    simp only [Nat.pow_zero, Nat.div_one] at hlo hhi ⊢
    cases bs with
    | nil => simp [tailBytes, admits, hlo, hhi]
    | cons b bs => simp [tailBytes, admits]
  | succ n ih =>
    have hdiv : ∀ c, c / 64 ^ (n + 1) = c / 64 ^ n / 64 := fun c => by
      rw [Nat.pow_succ, Nat.div_div_eq_div_mul]
    have hal := aligned_digit h
    rw [hdiv] at hlo hhi
    cases bs with
    | nil => simp [tailBytes, admits]
    | cons b bs =>
      have hb := b.toNat_lt
      simp only [tailBytes, List.zipWith_cons_cons, admits, Bool.and_eq_true, contains_iff,
        toNat_continuation, List.cons.injEq, ← UInt8.toNat_inj, hdiv]
      constructor
      · rintro ⟨⟨h1, h2⟩, h3⟩
        have hu : lo / 64 ^ n ≤ u * 64 + (b.toNat - 0x80) := by omega
        have hu' : u * 64 + (b.toNat - 0x80) ≤ hi / 64 ^ n := by omega
        obtain ⟨c, hc1, hc2, hc3, hc4⟩ := (ih (aligned_mono h) hu hu' bs).1 h3
        exact ⟨c, hc1, hc2, by omega, by omega, hc4⟩
      · rintro ⟨c, hc1, hc2, hc3, hc4, hc5⟩
        have hd1 : lo / 64 ^ n ≤ c / 64 ^ n := Nat.div_le_div_right hc1
        have hd2 : c / 64 ^ n ≤ hi / 64 ^ n := Nat.div_le_div_right hc2
        exact ⟨by omega, (ih (aligned_mono h) hd1 hd2 bs).2 ⟨c, hc1, hc2, rfl, hc5⟩⟩

theorem toNat_leadByte {c : Nat} (hc : c ≤ maxCodePoint) :
    (leadByte (tailCount c) c).toNat = leadBase (tailCount c) + c / 64 ^ tailCount c := by
  have hmax : maxCodePoint = 0x10ffff := rfl
  apply toNat_toUInt8
  unfold tailCount
  split
  · simp only [leadBase, Nat.pow_zero]; omega
  split
  · simp only [leadBase, Nat.pow_one]; omega
  split
  · simp only [leadBase, Nat.reducePow]; omega
  · simp only [leadBase, Nat.reducePow]; omega

/-- The ranges between the encodings of two ends stand for the encodings of
all that lies between, if nothing asks for a cut. -/
theorem admits_zipWith_encode {lo hi : Nat} (hle : lo ≤ hi) (hmax : hi ≤ maxCodePoint)
    (htail : tailCount lo = tailCount hi) (hal : Aligned (tailCount lo) lo hi) (bs : List UInt8) :
    admits (List.zipWith ByteRange.mk (encode lo) (encode hi)) bs = true ↔
      ∃ c, lo ≤ c ∧ c ≤ hi ∧ bs = encode c := by
  have hlead : ∀ c, lo ≤ c → c ≤ hi → (leadByte (tailCount lo) c).toNat =
      leadBase (tailCount lo) + c / 64 ^ tailCount lo := by
    intro c h1 h2
    rw [← tailCount_eq_of_between htail h1 h2]
    exact toNat_leadByte (by omega)
  have henc : ∀ c, lo ≤ c → c ≤ hi →
      encode c = leadByte (tailCount lo) c :: tailBytes (tailCount lo) c := by
    intro c h1 h2
    rw [encode_eq, tailCount_eq_of_between htail h1 h2]
  rw [henc lo (Nat.le_refl _) hle, henc hi hle (Nat.le_refl _)]
  cases bs with
  | nil =>
    simp only [List.zipWith_cons_cons, admits, Bool.false_eq_true, false_iff]
    rintro ⟨c, _, _, h⟩
    exact encode_ne_nil c h.symm
  | cons b bs =>
    simp only [List.zipWith_cons_cons, admits, Bool.and_eq_true, contains_iff,
      hlead lo (Nat.le_refl _) hle, hlead hi hle (Nat.le_refl _)]
    constructor
    · rintro ⟨⟨h1, h2⟩, h3⟩
      have h4 : leadBase (tailCount lo) ≤ b.toNat := Nat.le_trans (Nat.le_add_right _ _) h1
      obtain ⟨c, hc1, hc2, hc3, hc4⟩ := (admits_tailBytes (u := b.toNat - leadBase (tailCount lo))
        hal (Nat.le_sub_of_add_le' h1) (Nat.sub_le_iff_le_add'.2 h2) bs).1 h3
      refine ⟨c, hc1, hc2, ?_⟩
      rw [henc c hc1 hc2, hc4, List.cons.injEq, ← UInt8.toNat_inj, hlead c hc1 hc2, hc3,
        Nat.add_sub_cancel' h4]
      exact ⟨rfl, rfl⟩
    · rintro ⟨c, hc1, hc2, hc⟩
      rw [henc c hc1 hc2, List.cons.injEq, ← UInt8.toNat_inj, hlead c hc1 hc2] at hc
      have hd1 : lo / 64 ^ tailCount lo ≤ c / 64 ^ tailCount lo := Nat.div_le_div_right hc1
      have hd2 : c / 64 ^ tailCount lo ≤ hi / 64 ^ tailCount lo := Nat.div_le_div_right hc2
      refine ⟨by omega, ?_⟩
      exact (admits_tailBytes (u := c / 64 ^ tailCount lo) hal hd1 hd2 bs).2
        ⟨c, hc1, hc2, rfl, hc.2⟩

theorem blockCut?_eq_none {size lo hi : Nat} (h : blockCut? size lo hi = none) :
    lo / size = hi / size ∨ (lo % size = 0 ∧ hi % size = size - 1) := by
  unfold blockCut? at h
  split at h
  · exact Or.inl ‹_›
  split at h
  · cases h
  split at h
  · cases h
  · exact Or.inr ⟨by omega, by omega⟩

/-- What a range is like that needs no cut. -/
theorem cut?_eq_none {lo hi : Nat} (hle : lo ≤ hi) (h : cut? lo hi = none) :
    tailCount lo = tailCount hi ∧ Aligned (tailCount lo) lo hi := by
  unfold cut? at h
  split at h
  · cases h
  rename_i hfind
  simp only [List.find?_eq_none, List.mem_cons, List.not_mem_nil, or_false, Bool.and_eq_true,
    decide_eq_true_eq] at hfind
  have h1 := hfind 0x7f (by simp)
  have h2 := hfind 0x7ff (by simp)
  have h3 := hfind 0xffff (by simp)
  have htail : tailCount lo = tailCount hi := by
    unfold tailCount
    grind
  refine ⟨htail, ?_⟩
  split at h
  · -- one byte holds the whole code point, and there is no block
    rename_i hlt
    intro k hk1 hk2
    rw [htail, tailCount, if_pos hlt] at hk2
    omega
  · obtain ⟨hc1, hc⟩ := Option.or_eq_none_iff.1 h
    obtain ⟨hc2, hc3⟩ := Option.or_eq_none_iff.1 hc
    intro k hk1 hk2
    have hk : tailCount lo ≤ 3 := by
      unfold tailCount
      grind
    rcases (by omega : k = 1 ∨ k = 2 ∨ k = 3) with rfl | rfl | rfl
    · exact blockCut?_eq_none hc1
    · exact blockCut?_eq_none hc2
    · exact blockCut?_eq_none hc3

theorem exists_mem_append {α : Type} {P : α → Prop} {xs ys : List α} :
    (∃ x ∈ xs ++ ys, P x) ↔ (∃ x ∈ xs, P x) ∨ ∃ x ∈ ys, P x := by
  simp only [List.mem_append, or_and_right, exists_or]

theorem isSurrogate_eq_false {c : Nat} :
    isSurrogate c = false ↔ c < firstSurrogate ∨ lastSurrogate < c := by
  simp only [isSurrogate, Bool.and_eq_false_iff, decide_eq_false_iff_not]
  omega

/-- The bytes are the encoding of a code point of a range. -/
def EncodesOneOf (lo hi : Nat) (bs : List UInt8) : Prop :=
  ∃ c, lo ≤ c ∧ c ≤ hi ∧ isSurrogate c = false ∧ bs = encode c

theorem not_encodesOneOf {lo hi : Nat} (h : hi < lo) (bs : List UInt8) :
    ¬ EncodesOneOf lo hi bs := by
  rintro ⟨c, h1, h2, _⟩
  omega

/-- The sequences for a range stand for the encodings of its members. -/
theorem admits_sequences {lo hi : Nat} (hmax : hi ≤ maxCodePoint) (bs : List UInt8) :
    (∃ s ∈ sequences lo hi, admits s bs = true) ↔ EncodesOneOf lo hi bs := by
  have hfs : firstSurrogate = 0xd800 := rfl
  have hls : lastSurrogate = 0xdfff := rfl
  fun_induction sequences lo hi with
  | case1 lo hi hlt =>
    simp only [List.not_mem_nil, false_and, exists_false, false_iff]
    exact not_encodesOneOf hlt bs
  | case2 lo hi hle hsur ih1 ih2 =>
    have front : (∃ s ∈ (if _ : lo < firstSurrogate then sequences lo (firstSurrogate - 1) else []),
        admits s bs = true) ↔ EncodesOneOf lo (firstSurrogate - 1) bs := by
      split
      · exact ih1 ‹_› (by omega)
      · simpa using not_encodesOneOf (by omega) bs
    have back : (∃ s ∈ (if _ : lastSurrogate < hi then sequences (lastSurrogate + 1) hi else []),
        admits s bs = true) ↔ EncodesOneOf (lastSurrogate + 1) hi bs := by
      split
      · exact ih2 ‹_› hmax
      · simpa using not_encodesOneOf (by omega) bs
    rw [exists_mem_append, front, back]
    constructor
    · rintro (⟨c, h1, h2, h3⟩ | ⟨c, h1, h2, h3⟩)
      · exact ⟨c, h1, by omega, h3⟩
      · exact ⟨c, by omega, h2, h3⟩
    · rintro ⟨c, h1, h2, h3, h4⟩
      rcases isSurrogate_eq_false.1 h3 with h5 | h5
      · exact Or.inl ⟨c, h1, by omega, h3, h4⟩
      · exact Or.inr ⟨c, by omega, h2, h3, h4⟩
  | case3 lo hi hle hsur m hm h ih1 ih2 =>
    refine exists_mem_append.trans ((or_congr (ih1 (by omega)) (ih2 hmax)).trans ?_)
    constructor
    · rintro (⟨c, h1, h2, h3⟩ | ⟨c, h1, h2, h3⟩)
      · exact ⟨c, h1, by omega, h3⟩
      · exact ⟨c, by omega, h2, h3⟩
    · rintro ⟨c, h1, h2, h3⟩
      by_cases hc : c ≤ m
      · exact Or.inl ⟨c, h1, hc, h3⟩
      · exact Or.inr ⟨c, by omega, h2, h3⟩
  | case4 lo hi hle hsur hm =>
    obtain ⟨htail, hal⟩ := cut?_eq_none (Nat.le_of_not_lt hle) hm
    simp only [List.mem_singleton, exists_eq_left]
    rw [admits_zipWith_encode (Nat.le_of_not_lt hle) hmax htail hal]
    constructor
    · rintro ⟨c, h1, h2, h3⟩
      exact ⟨c, h1, h2, isSurrogate_eq_false.2 (by omega), h3⟩
    · rintro ⟨c, h1, h2, _, h3⟩
      exact ⟨c, h1, h2, h3⟩

end ByteRegex.Utf8
