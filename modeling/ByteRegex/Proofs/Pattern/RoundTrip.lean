-- Reading inverts writing. What is read from the text of a tree is that tree,
-- but for the places of its nodes.
import ByteRegex.Proofs.Pattern.Render
import Mathlib.Tactic.Common
import Mathlib.Tactic.IntervalCases

namespace ByteRegex

namespace Pattern

/-! ## Numbers -/

/-- A numeral starts with a digit. -/
theorem exists_toDigits {base : Nat} (hbase : 1 < base) (n : Nat) :
    ∃ d < base, ∃ ds, Nat.toDigits base n = Nat.digitChar d :: ds := by
  induction n using Nat.strongRecOn with
  | ind n ih =>
    by_cases hn : n < base
    · exact ⟨n, hn, [], Nat.toDigits_of_lt_base hn⟩
    · have hle : base ≤ n := Nat.le_of_not_lt hn
      obtain ⟨d, hd, ds, hds⟩ := ih (n / base) (Nat.div_lt_self (by omega) hbase)
      rw [Nat.toDigits_of_base_le hbase hle, hds]
      exact ⟨d, hd, _, rfl⟩

/-- A reader that takes digit after digit up to a bound reads the numerals up to the bound. -/
theorem run_numeral {α : Type} {base bound : Nat} {run : Nat → Nat → List UInt8 → α}
    (hbase : 1 < base)
    (hdigit : ∀ pos value d bs, d < base → value * base + d ≤ bound →
      run pos value (ascii [Nat.digitChar d] ++ bs) = run (pos + 1) (value * base + d) bs)
    {n : Nat} (hn : n ≤ bound) (pos : Nat) (rest : List UInt8) :
    run pos 0 (ascii (Nat.toDigits base n) ++ rest)
      = run (pos + (Nat.toDigits base n).length) n rest := by
  induction n using Nat.strongRecOn generalizing rest with
  | ind n ih =>
    by_cases hlt : n < base
    · have h := hdigit pos 0 n rest hlt (by omega)
      rw [Nat.zero_mul, Nat.zero_add] at h
      rw [Nat.toDigits_of_lt_base hlt, h]
      rfl
    · have hle : base ≤ n := Nat.le_of_not_lt hlt
      have hdiv : n / base < n := Nat.div_lt_self (by omega) hbase
      have hsplit : n / base * base + n % base = n := Nat.div_add_mod' n base
      have hfirst := ih (n / base) hdiv (by omega) (ascii [Nat.digitChar (n % base)] ++ rest)
      have hlast := hdigit (pos + (Nat.toDigits base (n / base)).length) (n / base) (n % base) rest
        (Nat.mod_lt n (by omega)) (by omega)
      rw [hsplit] at hlast
      rw [Nat.toDigits_of_base_le hbase hle, ascii, List.map_append, List.append_assoc,
        List.length_append]
      exact hfirst.trans hlast

theorem isDigitByte_digit {d : Nat} (hd : d < 10) :
    isDigitByte (Nat.digitChar d).toNat.toUInt8 = true ∧
      (Nat.digitChar d).toNat.toUInt8.toNat - 0x30 = d := by
  revert d
  decide

theorem hexRun_numeral {n : Nat} (hn : n ≤ maxCodePoint) (pos : Nat) (rest : List UInt8) :
    hexRun pos 0 (hexNumeral n ++ rest) = hexRun (pos + (Nat.toDigits 16 n).length) n rest := by
  refine run_numeral (by decide) (fun pos value d bs hd hle => ?_) hn pos rest
  rw [ascii, List.map_singleton, List.singleton_append, hexRun, hexValue?_digit hd]
  exact if_neg (Nat.not_lt_of_le hle)

theorem decimalRun_numeral {n : Nat} (hn : n < maxWord) (pos : Nat) (rest : List UInt8) :
    decimalRun pos 0 (decimalNumeral n ++ rest)
      = decimalRun (pos + (Nat.toDigits 10 n).length) n rest := by
  refine run_numeral (by decide) (fun pos value d bs hd hle => ?_)
    (Nat.le_sub_one_of_lt hn) pos rest
  obtain ⟨hdigit, hvalue⟩ := isDigitByte_digit hd
  rw [ascii, List.map_singleton, List.singleton_append, decimalRun, if_pos hdigit, hvalue]
  have hmax : maxWord = 0xffffffff := rfl
  exact if_neg (by omega)

/-! ## Code points and brackets -/

/-- A code point by its number is read as that code point. -/
theorem codePoint_text {c : Nat} (hc : c ≤ maxCodePoint) (pos : Nat) (rest : List UInt8) :
    ∃ bs next, codePointText c ++ rest = 0x5c :: 0x78 :: bs ∧
      codePoint pos 0x5c (0x78 :: bs) = .ok (c, ⟨next, rest⟩) := by
  have hrun := hexRun_numeral hc (pos + 1 + 2) (0x7d :: rest)
  obtain ⟨d, _, ds, hds⟩ := exists_toDigits (show 1 < 16 by decide) c
  have hlen : 0 < (Nat.toDigits 16 c).length := by
    rw [hds]
    exact Nat.succ_pos _
  refine ⟨0x7b :: (hexNumeral c ++ 0x7d :: rest),
    pos + 1 + 2 + (Nat.toDigits 16 c).length + 1, ?_, ?_⟩
  · simp [codePointText, ascii]
  · rw [show codePoint pos 0x5c (0x78 :: 0x7b :: (hexNumeral c ++ 0x7d :: rest))
      = bracedCodePoint ⟨pos + 1 + 2, hexNumeral c ++ 0x7d :: rest⟩ from rfl, bracedCodePoint, hrun]
    exact if_pos ⟨Nat.lt_add_of_pos_right hlen, rfl⟩

theorem bracketItem_text {r : Nat × Nat} (hlo : r.1 ≤ maxCodePoint) (hhi : r.2 ≤ maxCodePoint)
    (pos : Nat) (rest : List UInt8) :
    ∃ bs next, rangeText r ++ rest = 0x5c :: bs ∧
      bracketItem pos 0x5c bs = .ok ([r], ⟨next, rest⟩) := by
  obtain ⟨bs', next', htext', hread'⟩ :=
    codePoint_text hlo pos (0x2d :: (codePointText r.2 ++ rest))
  obtain ⟨bs'', next'', htext'', hread''⟩ := codePoint_text hhi (next' + 1) rest
  refine ⟨0x78 :: bs', next'', ?_, ?_⟩
  · rw [← htext', rangeText, List.append_assoc, List.append_assoc]
    rfl
  · rw [htext''] at hread'
    unfold bracketItem
    rw [show (if byteChar 0x5c = '\\' then
      ((0x78 :: bs').head?.map byteChar).bind shorthand? else none) = none from rfl]
    simp only [hread']
    rw [if_pos (by decide), hread'']

/-- A bracket reads one of its items, and goes on behind it. -/
theorem bracketRanges_item {pos : Nat} {b : UInt8} {bs : List UInt8} {first : Bool}
    {seen new : List (Nat × Nat)} {d : Cursor} (hopen : ¬ (byteChar b = ']' ∧ first = false))
    (hitem : bracketItem pos b bs = .ok (new, d)) :
    bracketRanges ⟨pos, b :: bs⟩ first seen = bracketRanges d false (seen ++ new) := by
  rw [bracketRanges]
  simp only
  rw [if_neg hopen]
  split
  · rename_i h
    rw [hitem] at h
    cases h
  · rename_i h
    rw [hitem] at h
    cases h
    rfl

/-- A bracket ends at its closing byte, unless that comes first. -/
theorem bracketRanges_close (pos : Nat) (bs : List UInt8) (seen : List (Nat × Nat)) :
    bracketRanges ⟨pos, 0x5d :: bs⟩ false seen = .ok (seen, ⟨pos + 1, bs⟩) := by
  rw [bracketRanges]
  rfl

theorem bracketRanges_text {ranges : List (Nat × Nat)}
    (hranges : ∀ r ∈ ranges, r.1 ≤ maxCodePoint ∧ r.2 ≤ maxCodePoint) {first : Bool}
    (hfirst : ranges = [] → first = false) (seen : List (Nat × Nat)) (pos : Nat)
    (rest : List UInt8) :
    ∃ next, bracketRanges ⟨pos, ranges.flatMap rangeText ++ 0x5d :: rest⟩ first seen
      = .ok (seen ++ ranges, ⟨next, rest⟩) := by
  induction ranges generalizing first seen pos with
  | nil =>
    rw [hfirst rfl, List.append_nil]
    exact ⟨pos + 1, bracketRanges_close pos rest seen⟩
  | cons r ranges ih =>
    obtain ⟨hlo, hhi⟩ := hranges r List.mem_cons_self
    obtain ⟨bs, next, htext, hread⟩ := bracketItem_text hlo hhi pos
      (ranges.flatMap rangeText ++ 0x5d :: rest)
    have hfalse : ranges = [] → false = false := fun _ => rfl
    obtain ⟨last, hrest⟩ := ih (fun r hr => hranges r (List.mem_cons_of_mem _ hr)) hfalse
      (seen ++ [r]) next
    refine ⟨last, ?_⟩
    rw [List.flatMap_cons, List.append_assoc, htext,
      bracketRanges_item (fun h => absurd h.1 (by decide)) hread, hrest, List.append_assoc]
    rfl

/-! ## Bounds -/

theorem seesDigit_numeral (n pos : Nat) (rest : List UInt8) :
    Cursor.seesDigit ⟨pos, decimalNumeral n ++ rest⟩ = true := by
  obtain ⟨d, hd, ds, hds⟩ := exists_toDigits (show 1 < 10 by decide) n
  rw [decimalNumeral, hds]
  exact (isDigitByte_digit hd).1

/-- A numeral is read as a bound, up to a byte that is no digit. -/
theorem bound_numeral {n : Nat} (hn : n < maxWord) {b : UInt8} (hb : isDigitByte b = false)
    (pos : Nat) (rest : List UInt8) :
    ∃ next, bound ⟨pos, decimalNumeral n ++ b :: rest⟩ = .ok (n, ⟨next, b :: rest⟩) := by
  refine ⟨pos + (Nat.toDigits 10 n).length, ?_⟩
  rw [bound, if_pos (seesDigit_numeral n pos _), decimalRun_numeral hn, decimalRun, hb]
  rfl

theorem sees_cons (pos : Nat) (b : UInt8) (bs : List UInt8) (c : Char) :
    Cursor.sees ⟨pos, b :: bs⟩ c = (byteChar b == c) := rfl

/-- The place behind the bounds is found whether there is a maximum or not. -/
theorem bracedBounds_text {min : Nat} {max : Option Nat} (hmin : min < maxWord)
    (hmax : ∀ m, max = some m → m < maxWord) (pos : Nat) (rest : List UInt8) :
    ∃ next, bracedBounds ⟨pos, decimalNumeral min ++
        0x2c :: ((max.map decimalNumeral).getD [] ++ 0x7d :: rest)⟩
      = .ok ((min, max), ⟨next, rest⟩) := by
  obtain ⟨next, hread⟩ := bound_numeral hmin (b := 0x2c) (by decide) pos
    ((max.map decimalNumeral).getD [] ++ 0x7d :: rest)
  unfold bracedBounds
  rw [hread]
  cases max with
  | none => exact ⟨next + 2, rfl⟩
  | some m =>
    obtain ⟨next', hread'⟩ := bound_numeral (hmax m rfl) (b := 0x7d) (by decide) (next + 1) rest
    obtain ⟨d, hd, ds, hds⟩ := exists_toDigits (show 1 < 10 by decide) m
    have hbrace : Cursor.sees ⟨next + 1, decimalNumeral m ++ 0x7d :: rest⟩ '\x7d' = false := by
      have hall : ∀ d < 10, (byteChar (Nat.digitChar d).toNat.toUInt8 == '\x7d') = false := by
        decide
      rw [decimalNumeral, hds]
      exact hall d hd
    refine ⟨next' + 1, ?_⟩
    simp only [Option.map_some, Option.getD_some, Cursor.skip, List.drop_succ_cons, List.drop_zero]
    rw [if_pos (by rfl), hbrace, if_neg (by decide), hread']
    rfl

theorem bounds?_brace {pos : Nat} {bs : List UInt8} (h : Cursor.seesDigit ⟨pos + 1, bs⟩ = true) :
    bounds? ⟨pos, 0x7b :: bs⟩ = some (bracedBounds ⟨pos + 1, bs⟩) := by
  have hstar : Cursor.sees ⟨pos, 0x7b :: bs⟩ '*' = false := rfl
  have hplus : Cursor.sees ⟨pos, 0x7b :: bs⟩ '+' = false := rfl
  have hquestion : Cursor.sees ⟨pos, 0x7b :: bs⟩ '?' = false := rfl
  have hbrace : Cursor.sees ⟨pos, 0x7b :: bs⟩ '\x7b' = true := rfl
  simp [bounds?, hstar, hplus, hquestion, hbrace, h, Cursor.skip]

/-- Only a question mark is seen as one. -/
theorem not_sees_question {rest : List UInt8} (h : rest.head? ≠ some 0x3f) (pos : Nat) :
    Cursor.sees ⟨pos, rest⟩ '?' = false := by
  cases rest with
  | nil => rfl
  | cons b bs =>
    rw [sees_cons, beq_eq_false_iff_ne]
    intro hb
    have hnat := congrArg Char.toNat hb
    rw [toNat_byteChar] at hnat
    exact h (congrArg some (UInt8.toNat_inj.1 hnat))

theorem token_of_bounds {pos : Nat} {b : UInt8} {bs : List UInt8} {min : Nat} {max : Option Nat}
    {d : Cursor} (h : bounds? ⟨pos, b :: bs⟩ = some (.ok ((min, max), d))) :
    token true pos b bs =
      if d.sees '?' then .ok (.quantifier min max false, d.skip 1)
      else .ok (.quantifier min max true, d) := by
  unfold token
  rw [if_pos rfl, h]

/-- The bounds of a repeat are read as they are, unless a lazy mark follows those of a greedy
one. -/
theorem token_bounds {min : Nat} {max : Option Nat} (greedy : Bool) (hmin : min < maxWord)
    (hmax : ∀ m, max = some m → m < maxWord) (pos : Nat) {rest : List UInt8}
    (hrest : rest.head? ≠ some 0x3f) :
    ∃ bs next, boundsText min max greedy ++ rest = 0x7b :: bs ∧
      token true pos 0x7b bs = .ok (.quantifier min max greedy, ⟨next, rest⟩) := by
  have hbounds : ∀ behind, ∃ next, bounds? ⟨pos, 0x7b :: (decimalNumeral min ++
      0x2c :: ((max.map decimalNumeral).getD [] ++ 0x7d :: behind))⟩
        = some (.ok ((min, max), ⟨next, behind⟩)) := by
    intro behind
    obtain ⟨next, hread⟩ := bracedBounds_text hmin hmax (pos + 1) behind
    refine ⟨next, ?_⟩
    rw [bounds?_brace (seesDigit_numeral min (pos + 1) _), hread]
  cases greedy with
  | true =>
    obtain ⟨next, hnext⟩ := hbounds rest
    refine ⟨decimalNumeral min ++ 0x2c :: ((max.map decimalNumeral).getD [] ++ 0x7d :: rest), next,
      by simp [boundsText, ascii], ?_⟩
    rw [token_of_bounds hnext, not_sees_question hrest]
    rfl
  | false =>
    obtain ⟨next, hnext⟩ := hbounds (0x3f :: rest)
    refine ⟨decimalNumeral min ++
      0x2c :: ((max.map decimalNumeral).getD [] ++ 0x7d :: 0x3f :: rest), next + 1,
      by simp [boundsText, ascii], ?_⟩
    rw [token_of_bounds hnext]
    rfl

/-! ## Atoms -/

theorem bracket_of_ranges {loc : Location} {c d : Cursor} {ranges : List (Nat × Nat)}
    (h : bracketRanges (if c.sees '^' then c.skip 1 else c) true [] = .ok (ranges, d)) :
    bracket loc c = .ok (.leaf (.chars loc ranges (c.sees '^')), d) := by
  unfold bracket
  simp only [h]

/-- A class in brackets is read as one leaf, whatever comes before it. -/
theorem token_class {ranges : List (Nat × Nat)} (hne : ranges ≠ [])
    (hranges : ∀ r ∈ ranges, r.1 ≤ maxCodePoint ∧ r.2 ≤ maxCodePoint) (negated behind : Bool)
    (pos : Nat) (rest : List UInt8) :
    ∃ bs next, classText ranges negated ++ rest = 0x5b :: bs ∧
      token behind pos 0x5b bs = .ok (.leaf (.chars (some pos) ranges negated), ⟨next, rest⟩) := by
  have htoken : ∀ bs, token behind pos 0x5b bs = bracket (some pos) ⟨pos + 1, bs⟩ := by
    intro bs
    cases behind <;> rfl
  have hfirst : ranges = [] → true = false := fun h => absurd h hne
  have hread := bracketRanges_text hranges hfirst []
  cases negated with
  | true =>
    obtain ⟨next, hnext⟩ := hread (pos + 1 + 1) rest
    refine ⟨0x5e :: (ranges.flatMap rangeText ++ 0x5d :: rest), next, by simp [classText, ascii],
      ?_⟩
    rw [htoken]
    exact bracket_of_ranges hnext
  | false =>
    obtain ⟨next, hnext⟩ := hread (pos + 1) rest
    refine ⟨ranges.flatMap rangeText ++ 0x5d :: rest, next, by simp [classText, ascii], ?_⟩
    have hsees : Cursor.sees ⟨pos + 1, ranges.flatMap rangeText ++ 0x5d :: rest⟩ '^' = false := by
      cases ranges with
      | nil => exact absurd rfl hne
      | cons r ranges => rfl
    rw [htoken, bracket_of_ranges (d := ⟨next, rest⟩) (by rw [hsees]; exact hnext), hsees]
    rfl

/-- The text is read as one leaf, whatever comes before it: the pattern but for its place. -/
def ReadsLeaf (bs : List UInt8) (p : Pattern) : Prop :=
  ∀ (behind : Bool) (pos : Nat) (rest : List UInt8), ∃ b tail q next, bs ++ rest = b :: tail ∧
    token behind pos b tail = .ok (.leaf q, ⟨next, rest⟩) ∧ q.unplaced = p.unplaced

theorem readsLeaf_chars {loc : Location} {ranges : List (Nat × Nat)} {negated : Bool}
    (hne : ranges ≠ []) (hranges : ∀ r ∈ ranges, r.1 ≤ maxCodePoint ∧ r.2 ≤ maxCodePoint) :
    ReadsLeaf (classText ranges negated) (.chars loc ranges negated) := by
  intro behind pos rest
  obtain ⟨bs, next, htext, hread⟩ := token_class hne hranges negated behind pos rest
  exact ⟨_, bs, _, next, htext, hread, rfl⟩

theorem hexPair_hexDigits (b : UInt8) (pos : Nat) (rest : List UInt8) :
    hexPair ⟨pos, hexDigits b ++ rest⟩ = .ok (b.toNat, ⟨pos + 2, rest⟩) := by
  have hb := b.toNat_lt
  have hsplit : b.toNat / 16 * 16 + b.toNat % 16 = b.toNat := Nat.div_add_mod' b.toNat 16
  have hhigh := hexValue?_digit (d := b.toNat / 16) (by omega)
  have hlow := hexValue?_digit (d := b.toNat % 16) (by omega)
  simp only [hexPair, hexDigits, ascii, List.map_cons, List.map_nil, List.cons_append,
    List.nil_append, hhigh, hlow, hsplit]

theorem escapedToken_byte {loc : Location} {pos n : Nat} {bs : List UInt8} {d : Cursor}
    (hbrace : Cursor.sees ⟨pos + 1, bs⟩ '\x7b' = false) (h : hexPair ⟨pos + 1, bs⟩ = .ok (n, d)) :
    escapedToken loc ⟨pos, 0x78 :: bs⟩ = .ok (.leaf (.bytes loc [(n.toUInt8, n.toUInt8)]), d) := by
  have hnode : (Cursor.peek? ⟨pos, 0x78 :: bs⟩).bind (escapedNode? loc) = none := rfl
  have hskip : Cursor.skip ⟨pos, 0x78 :: bs⟩ 1 = ⟨pos + 1, bs⟩ := rfl
  unfold escapedToken
  rw [hnode, hskip]
  simp only [hbrace, h]
  exact if_pos ⟨rfl, trivial⟩

theorem readsLeaf_byte (loc : Location) (b : UInt8) :
    ReadsLeaf (bytesText [(b, b)]) (.bytes loc [(b, b)]) := by
  intro behind pos rest
  have htext : bytesText [(b, b)] ++ rest = 0x5c :: 0x78 :: (hexDigits b ++ rest) := by
    simp [bytesText, ascii]
  have htoken : ∀ bs, token behind pos 0x5c bs = escapedToken (some pos) ⟨pos + 1, bs⟩ := by
    intro bs
    cases behind <;> rfl
  have hbrace : Cursor.sees ⟨pos + 1 + 1, hexDigits b ++ rest⟩ '\x7b' = false := by
    have hall : ∀ d < 16, (byteChar (Nat.digitChar d).toNat.toUInt8 == '\x7b') = false := by decide
    have hb := b.toNat_lt
    exact hall (b.toNat / 16) (by omega)
  refine ⟨_, _, .bytes (some pos) [(b, b)], pos + 1 + 1 + 2, htext, ?_, rfl⟩
  rw [htoken, escapedToken_byte hbrace (hexPair_hexDigits b _ rest)]
  simp only [Nat.toUInt8, UInt8.ofNat_toNat]

theorem readsLeaf_anyByte (loc : Location) :
    ReadsLeaf (bytesText [(0x00, 0xff)]) (.bytes loc [(0x00, 0xff)]) := by
  intro behind pos rest
  cases behind <;> exact ⟨_, _, _, _, rfl, rfl, rfl⟩

theorem readsLeaf_anchor (loc : Location) (atEnd : Bool) :
    ReadsLeaf (itemText (.anchor loc atEnd)) (.anchor loc atEnd) := by
  intro behind pos rest
  cases behind <;> cases atEnd <;> exact ⟨_, _, _, _, rfl, rfl, rfl⟩

theorem readsLeaf_wordEdge (loc : Location) (negated : Bool) :
    ReadsLeaf (itemText (.wordEdge loc negated)) (.wordEdge loc negated) := by
  intro behind pos rest
  cases behind <;> cases negated <;> exact ⟨_, _, _, _, rfl, rfl, rfl⟩

theorem readsLeaf_backref (loc : Location) {group : Nat} (h1 : 1 ≤ group) (h9 : group ≤ 9) :
    ReadsLeaf (itemText (.backref loc group)) (.backref loc group) := by
  intro behind pos rest
  interval_cases group <;> cases behind <;> exact ⟨_, _, _, _, rfl, rfl, rfl⟩

/-! ## Runs -/

theorem run_token {s s' : ParseState} {pos : Nat} {b : UInt8} {bs : List UInt8} {t : Token}
    {d : Cursor} (htoken : token (!s.level.items.isEmpty) pos b bs = .ok (t, d))
    (hstep : s.step pos t d.pos = .ok s') : s.run ⟨pos, b :: bs⟩ = s'.run d := by
  rw [ParseState.run]
  split
  · rename_i h
    cases h
  · rename_i h
    cases h
    split
    · rename_i h
      rw [htoken] at h
      cases h
    · rename_i h
      rw [htoken] at h
      cases h
      rw [hstep]

theorem run_end (l : Level) (pos : Nat) : ParseState.run ⟨l, []⟩ ⟨pos, []⟩ = .ok l.node := by
  rw [ParseState.run]

theorem run_bar (l : Level) (groups : List OpenGroup) (pos : Nat) (bs : List UInt8) :
    ParseState.run ⟨l, groups⟩ ⟨pos, 0x7c :: bs⟩ =
      ParseState.run ⟨l.nextBranch (pos + 1), groups⟩ ⟨pos + 1, bs⟩ := by
  have htoken : ∀ behind, token behind pos 0x7c bs = .ok (.bar, ⟨pos + 1, bs⟩) := by
    intro behind
    cases behind <;> rfl
  exact run_token (htoken _) rfl

theorem run_opening (g : Group) (l : Level) (groups : List OpenGroup) (pos : Nat)
    (bs : List UInt8) : ∃ next, ParseState.run ⟨l, groups⟩ ⟨pos, g.opening ++ bs⟩ =
      ParseState.run ⟨.begin next, ⟨g, pos, l⟩ :: groups⟩ ⟨next, bs⟩ := by
  have htoken : ∀ behind, ∃ tail next, g.opening ++ bs = 0x28 :: tail ∧
      token behind pos 0x28 tail = .ok (.opening g, ⟨next, bs⟩) := by
    intro behind
    rcases g with _ | ⟨_ | _, _ | _⟩ <;> cases behind <;> exact ⟨_, _, rfl, rfl⟩
  obtain ⟨tail, next, htext, htoken⟩ := htoken (!l.items.isEmpty)
  rw [htext]
  exact ⟨next, run_token htoken rfl⟩

theorem run_closing (l outer : Level) (g : Group) (start : Nat) (groups : List OpenGroup)
    (pos : Nat) (bs : List UInt8) :
    ParseState.run ⟨l, ⟨g, start, outer⟩ :: groups⟩ ⟨pos, 0x29 :: bs⟩ =
      ParseState.run ⟨outer.push start (g.node start l.node), groups⟩ ⟨pos + 1, bs⟩ := by
  have htoken : ∀ behind, token behind pos 0x29 bs = .ok (.closing, ⟨pos + 1, bs⟩) := by
    intro behind
    cases behind <;> rfl
  exact run_token (htoken _) rfl

/-- Behind the text an item has been added to the level, the pattern but for its places. No item
starts with a question mark, which would make the quantifier before it lazy. -/
structure ReadsItem (bs : List UInt8) (p : Pattern) : Prop where
  head : ∀ rest, (bs ++ rest).head? ≠ some 0x3f
  run : ∀ (l : Level) (groups : List OpenGroup) (pos : Nat) (rest : List UInt8),
    rest.head? ≠ some 0x3f → ∃ q next, q.unplaced = p.unplaced ∧
      ParseState.run ⟨l, groups⟩ ⟨pos, bs ++ rest⟩ =
        ParseState.run ⟨l.push pos q, groups⟩ ⟨next, rest⟩

/-- Behind the text a level that was empty stands for the pattern but for its places. -/
def ReadsBody (bs : List UInt8) (p : Pattern) : Prop :=
  ∀ (groups : List OpenGroup) (pos : Nat) (rest : List UInt8), rest.head? ≠ some 0x3f →
    ∃ l next, l.node.unplaced = p.unplaced ∧
      ParseState.run ⟨.begin pos, groups⟩ ⟨pos, bs ++ rest⟩ =
        ParseState.run ⟨l, groups⟩ ⟨next, rest⟩

/-! ## Items -/

theorem ReadsItem.congr {bs : List UInt8} {p p' : Pattern} (h : ReadsItem bs p)
    (hp : p.unplaced = p'.unplaced) : ReadsItem bs p' :=
  ⟨h.head, hp ▸ h.run⟩

theorem ReadsLeaf.item {bs : List UInt8} {p : Pattern} (h : ReadsLeaf bs p) : ReadsItem bs p := by
  refine ⟨fun rest hhead => ?_, fun l groups pos rest _ => ?_⟩
  · obtain ⟨b, tail, q, next, htext, htoken, _⟩ := h false 0 rest
    rw [htext] at hhead
    obtain rfl := Option.some.inj hhead
    cases htoken
  · obtain ⟨b, tail, q, next, htext, htoken, hq⟩ := h (!l.items.isEmpty) pos rest
    refine ⟨q, next, hq, ?_⟩
    rw [htext]
    exact run_token htoken rfl

theorem ReadsItem.rep {bs : List UInt8} {body : Pattern} (h : ReadsItem bs body) {loc : Location}
    {min : Nat} {max : Option Nat} {greedy : Bool} (hmin : min < maxWord)
    (hmax : ∀ m, max = some m → m < maxWord) :
    ReadsItem (bs ++ boundsText min max greedy) (.rep loc body min max greedy) := by
  refine ⟨fun rest => List.append_assoc bs _ rest ▸ h.head _, fun l groups pos rest hrest => ?_⟩
  have hbrace : (boundsText min max greedy ++ rest).head? ≠ some 0x3f := by
    obtain ⟨tail, _, htext, _⟩ := token_bounds greedy hmin hmax 0 hrest
    rw [htext]
    exact fun h => absurd (Option.some.inj h) (by decide)
  obtain ⟨q, next, hq, hrun⟩ := h.run l groups pos _ hbrace
  obtain ⟨tail, next', htext, htoken⟩ := token_bounds greedy hmin hmax next hrest
  refine ⟨.rep (some pos) q min max greedy, next', by simp [unplaced, hq], ?_⟩
  rw [List.append_assoc, hrun, htext]
  exact run_token htoken rfl

/-! ## Branches -/

theorem unplacedList_eq_map (ps : List Pattern) : unplacedList ps = ps.map unplaced := by
  induction ps with
  | nil => rfl
  | cons p ps ih => rw [unplacedList, ih, List.map_cons]

/-- Items one after another are added to the level one after another. -/
theorem run_items {parts : List Pattern} (h : ∀ p ∈ parts, ReadsItem (itemText p) p) (l : Level)
    (groups : List OpenGroup) (pos : Nat) {rest : List UInt8} (hrest : rest.head? ≠ some 0x3f) :
    ∃ items next, (items.reverse.map fun item => item.2.unplaced) = parts.map unplaced ∧
      ParseState.run ⟨l, groups⟩ ⟨pos, itemTexts parts ++ rest⟩ =
        ParseState.run ⟨{ l with items := items ++ l.items }, groups⟩ ⟨next, rest⟩ := by
  induction parts generalizing l pos with
  | nil => exact ⟨[], pos, rfl, rfl⟩
  | cons p parts ih =>
    have hparts : ∀ q ∈ parts, ReadsItem (itemText q) q := fun q hq =>
      h q (List.mem_cons_of_mem p hq)
    have hnext : (itemTexts parts ++ rest).head? ≠ some 0x3f := by
      cases parts with
      | nil => exact hrest
      | cons q parts =>
        rw [itemTexts, List.append_assoc]
        exact (hparts q List.mem_cons_self).head _
    obtain ⟨q, next, hq, hrun⟩ := (h p List.mem_cons_self).run l groups pos _ hnext
    obtain ⟨items, next', hitems, hrun'⟩ := ih hparts (l.push pos q) next
    refine ⟨items ++ [(pos, q)], next', ?_, ?_⟩
    · simp [hitems, hq]
    · rw [itemTexts, List.append_assoc, hrun, hrun', List.append_assoc]
      rfl

/-- The branches of a level, the newest last. -/
def Level.parts (l : Level) : List Pattern := (l.branch :: l.branches).reverse

theorem branch_unplaced (l : Level) :
    l.branch.unplaced = .seq none (l.items.reverse.map fun item => item.2.unplaced) := by
  rw [Level.branch, unplaced, unplacedList_eq_map, List.map_map]
  rfl

theorem node_single {l : Level} (h : l.branches = []) : l.node = l.branch := by
  rw [Level.node, h]
  rfl

/-- Branches with bars between them are added to a level that has no items yet. -/
theorem run_branches {branches : List (Location × List Pattern)} (hne : branches ≠ [])
    (h : ∀ b ∈ branches, ∀ p ∈ b.2, ReadsItem (itemText p) p) {l : Level} (hl : l.items = [])
    (groups : List OpenGroup) (pos : Nat) {rest : List UInt8} (hrest : rest.head? ≠ some 0x3f) :
    ∃ l' next, l'.parts.map unplaced = l.branches.reverse.map unplaced ++
        branches.map (fun b => .seq none (b.2.map unplaced)) ∧
      ParseState.run ⟨l, groups⟩
          ⟨pos, branchTexts (branches.map fun b => .seq b.1 b.2) ++ rest⟩ =
        ParseState.run ⟨l', groups⟩ ⟨next, rest⟩ := by
  induction branches generalizing l pos with
  | nil => exact absurd rfl hne
  | cons b branches ih =>
    have hitems := h b List.mem_cons_self
    cases branches with
    | nil =>
      obtain ⟨items, next, hmap, hrun⟩ := run_items hitems l groups pos hrest
      refine ⟨{ l with items := items ++ l.items }, next, ?_, ?_⟩
      · simp [Level.parts, branch_unplaced, hl, hmap]
      · simpa [branchTexts, branchText] using hrun
    | cons b' branches =>
      have hbar : (ascii ['|'] ++ (branchTexts ((b' :: branches).map fun b => .seq b.1 b.2)
          ++ rest)).head? ≠ some 0x3f := by
        exact fun h => absurd (Option.some.inj h) (by decide)
      obtain ⟨items, next, hmap, hrun⟩ := run_items hitems l groups pos hbar
      obtain ⟨l', next', hparts, hrun'⟩ :=
        ih (by simp) (fun c hc => h c (List.mem_cons_of_mem b hc))
        (l := Level.nextBranch { l with items := items ++ l.items } (next + 1)) rfl (next + 1)
      refine ⟨l', next', ?_, ?_⟩
      · rw [hparts]
        simp [Level.nextBranch, branch_unplaced, hl, hmap]
      · have htext : branchTexts ((b :: b' :: branches).map fun b => .seq b.1 b.2) ++ rest =
            itemTexts b.2 ++ (ascii ['|'] ++
              (branchTexts ((b' :: branches).map fun b => .seq b.1 b.2) ++ rest)) := by
          simp [branchTexts, branchText]
        rw [htext, hrun]
        exact (run_bar _ groups next _).trans hrun'

/-! ## Bodies -/

theorem readsBody_seq {loc : Location} {parts : List Pattern}
    (h : ∀ p ∈ parts, ReadsItem (itemText p) p) :
    ReadsBody (text (.seq loc parts)) (.seq loc parts) := by
  intro groups pos rest hrest
  obtain ⟨items, next, hmap, hrun⟩ := run_items h (.begin pos) groups pos hrest
  refine ⟨_, next, ?_, hrun⟩
  rw [node_single rfl, branch_unplaced, unplaced, unplacedList_eq_map, ← hmap]
  simp [Level.begin]

theorem readsBody_alt {loc : Location} {branches : List (Location × List Pattern)}
    (hlen : 2 ≤ branches.length) (h : ∀ b ∈ branches, ∀ p ∈ b.2, ReadsItem (itemText p) p) :
    ReadsBody (text (.alt loc (branches.map fun b => .seq b.1 b.2)))
      (.alt loc (branches.map fun b => .seq b.1 b.2)) := by
  intro groups pos rest hrest
  have hne : branches ≠ [] := by
    rintro rfl
    cases hlen
  obtain ⟨l, next, hparts, hrun⟩ := run_branches hne h (l := .begin pos) rfl groups pos hrest
  refine ⟨l, next, ?_, hrun⟩
  have hcount := congrArg List.length hparts
  have hmore : l.branches.isEmpty = false := by
    cases hb : l.branches with
    | nil =>
      simp [Level.parts, Level.begin, hb] at hcount
      omega
    | cons b bs => rfl
  rw [Level.node, hmore, if_neg (by decide), unplaced, unplacedList_eq_map, ← Level.parts, hparts,
    unplaced, unplacedList_eq_map, List.map_map]
  simp [Level.begin, unplaced, unplacedList_eq_map]

/-- A group is read as the node that it stands for. -/
theorem ReadsBody.group {bs : List UInt8} {body : Pattern} (h : ReadsBody bs body) (g : Group)
    (start : Nat) : ReadsItem (g.text bs) (g.node start body) := by
  refine ⟨fun rest => ?_, fun l groups pos rest _ => ?_⟩
  · rcases g with _ | ⟨_ | _, _ | _⟩ <;> exact fun h => absurd (Option.some.inj h) (by decide)
  · have hclose : (ascii [')'] ++ rest).head? ≠ some 0x3f :=
      fun h => absurd (Option.some.inj h) (by decide)
    obtain ⟨next, hopen⟩ := run_opening g l groups pos (bs ++ (ascii [')'] ++ rest))
    obtain ⟨inner, next', hinner, hrun⟩ := h (⟨g, pos, l⟩ :: groups) next _ hclose
    refine ⟨g.node pos inner.node, next' + 1, ?_, ?_⟩
    · cases g with
      | plain => exact hinner
      | around behind negated => simp [Group.node, unplaced, unplacedOption, hinner]
    · rw [Group.text, List.append_assoc, List.append_assoc, hopen, hrun]
      exact run_closing inner l g pos groups next' rest

/-! ## Whole texts -/

theorem itemText_of_isBody {p : Pattern} (h : IsBody p) :
    itemText p = Group.plain.text (text p) := by
  cases h <;> rfl

/-- What is read from the text of a body is the body, but for the places of its nodes. The induction
is on the grammar, over items and bodies at once. -/
theorem readsBody_of_isBody {p : Pattern} (h : IsBody p) : ReadsBody (text p) p := by
  refine @IsBody.rec (fun p _ => ReadsItem (itemText p) p) (fun p _ => ReadsBody (text p) p)
    ?chars ?byte ?anyByte ?anchor ?wordEdge ?backref ?around ?group ?rep ?seq ?alt p h
  case chars => exact fun hne hranges => (readsLeaf_chars hne hranges).item
  case byte => exact (readsLeaf_byte _ _).item
  case anyByte => exact (readsLeaf_anyByte _).item
  case anchor => exact (readsLeaf_anchor _ _).item
  case wordEdge => exact (readsLeaf_wordEdge _ _).item
  case backref => exact fun h1 h9 => (readsLeaf_backref _ h1 h9).item
  case around =>
    intro loc body behind negated _ hbody
    exact (hbody.group (.around behind negated) 0).congr rfl
  case group =>
    intro body hisBody hbody
    rw [itemText_of_isBody hisBody]
    exact hbody.group .plain 0
  case rep => exact fun _ hmin hmax hbody => hbody.rep hmin hmax
  case seq => exact fun _ hparts => readsBody_seq hparts
  case alt => exact fun hlen _ hbranches => readsBody_alt hlen hbranches

/-- Reading the text of a pattern gives the pattern, but for the places of its nodes. -/
theorem parse_text {p : Pattern} (h : IsBody p) :
    ∃ q, parse (text p) = .ok q ∧ q.unplaced = p.unplaced := by
  obtain ⟨l, next, hl, hrun⟩ := readsBody_of_isBody h [] 0 [] nofun
  rw [List.append_nil] at hrun
  exact ⟨l.node, hrun.trans (run_end l next), hl⟩

/-- The pattern `[^\x{e9}-\x{61}\x{0}-\x{10ffff}]{3,2}?{0,}\B|(?<!$\7|)(?:\x5c\C)|`. -/
def mixed : Pattern := .alt none
  [.seq none
    [.rep none (.rep none (.chars none [(0xe9, 0x61), (0, 0x10ffff)] true) 3 (some 2) false)
      0 none true, .wordEdge none true],
    .seq none [.around none
        (some (.alt none [.seq none [.anchor none true, .backref none 7], .seq none []])) true true,
      .seq none [.bytes none [(0x5c, 0x5c)], .bytes none [(0x00, 0xff)]]],
    .seq none []]

example : text mixed = ascii
    ("[^\\x\x7be9\x7d-\\x\x7b61\x7d\\x\x7b0\x7d-\\x\x7b10ffff\x7d]\x7b3,2\x7d?\x7b0,\x7d"
      ++ "\\B|(?<!$\\7|)(?:\\x5c\\C)|").toList := by decide +kernel

theorem isBody_mixed : IsBody mixed := by
  have hclass : IsItem (.chars none [(0xe9, 0x61), (0, 0x10ffff)] true) :=
    .chars (by decide) (by decide)
  have hrep : IsItem (.rep none (.rep none (.chars none [(0xe9, 0x61), (0, 0x10ffff)] true)
      3 (some 2) false) 0 none true) :=
    .rep (.rep hclass (by decide) (by decide)) (by decide) (by decide)
  have hbehind :
      IsBody (.alt none [.seq none [.anchor none true, .backref none 7], .seq none []]) :=
    @IsBody.alt none [(none, [.anchor none true, .backref none 7]), (none, [])] (by decide)
      (by simpa using ⟨.anchor, .backref (by decide) (by decide)⟩)
  have hgroup : IsBody (.seq none [.bytes none [(0x5c, 0x5c)], .bytes none [(0x00, 0xff)]]) :=
    .seq (by simpa using ⟨.byte, .anyByte⟩)
  exact @IsBody.alt none [(none, _), (none, _), (none, [])] (by decide)
    (by simpa using ⟨⟨hrep, .wordEdge⟩, .around hbehind, .group hgroup⟩)

theorem parse_text_mixed : IsBody mixed ∧ ∃ q, parse (text mixed) = .ok q ∧ q.unplaced = mixed :=
  ⟨isBody_mixed, parse_text isBody_mixed⟩

end Pattern

end ByteRegex
