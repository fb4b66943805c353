-- Two sets never have the same description, if it leaves nothing out. The text
-- of a byte can be read back whatever follows it, and so can the text of runs
-- that lie apart.
import ByteRegex.ByteSet.Describe
import ByteRegex.Proofs.ByteSet.Runs

namespace ByteRegex

variable {mode : LabelMode} {c d : UInt8} {u v : List Char}

/-! ## The text of a byte -/

/-- What stands behind the backslash of an escaped byte. -/
def escapeCode (c : UInt8) : List Char :=
  if c ∈ bracketBytes then [byteChar c]
  else if c = 0x09 then ['t']
  else if c = 0x0a then ['n']
  else if c = 0x0d then ['r']
  else 'x' :: [Nat.digitChar (c.toNat / 16), Nat.digitChar (c.toNat % 16)]

/-- A byte stands for itself, or is escaped. The escape of a quote has a backslash of its own. -/
inductive ByteForm (mode : LabelMode) (c : UInt8) : List Char → Prop
  | bare (hbracket : c ∉ bracketBytes) (hquote : mode = .dot → c ≠ 0x22) :
      ByteForm mode c [byteChar c]
  | quote (hmode : mode = .dot) (hc : c = 0x22) : ByteForm mode c ['\\', '"']
  | escaped (hcode : c ∈ bracketBytes ∨ isGraphByte c = false) :
      ByteForm mode c (mode.backslash ++ escapeCode c)

theorem byteChar_inj (h : byteChar c = byteChar d) : c = d := by
  have := congrArg Char.toNat h
  rw [toNat_byteChar, toNat_byteChar] at this
  exact UInt8.toNat_inj.1 this

theorem isGraphByte_bracket (h : c ∈ bracketBytes) : isGraphByte c = true := by
  have hall : bracketBytes.all isGraphByte = true := by decide
  exact List.all_eq_true.1 hall c h

theorem byteForm (mode : LabelMode) (c : UInt8) : ByteForm mode c (describeByte mode c) := by
  unfold describeByte
  simp only [List.contains_iff_mem]
  split_ifs with hgraph hbracket hquote
  · have h : ByteForm mode c (mode.backslash ++ escapeCode c) := .escaped (Or.inl hbracket)
    rwa [escapeCode, if_pos hbracket] at h
  · exact .quote hquote.1 hquote.2
  · exact .bare hbracket fun hm hc => hquote ⟨hm, hc⟩
  all_goals
    have hbracket : c ∉ bracketBytes := fun h => hgraph (isGraphByte_bracket h)
    have h : ByteForm mode c (mode.backslash ++ escapeCode c) :=
      .escaped (Or.inr (Bool.eq_false_iff.2 hgraph))
    rw [escapeCode, if_neg hbracket] at h
    simpa [hexByte, *] using h

/-- The byte that an escape stands for, and what follows it. -/
def readCode : List Char → Option (UInt8 × List Char)
  | 't' :: u => some (0x09, u)
  | 'n' :: u => some (0x0a, u)
  | 'r' :: u => some (0x0d, u)
  | 'x' :: high :: low :: u =>
    (hexValue? high.toNat.toUInt8).bind fun h =>
      (hexValue? low.toNat.toUInt8).map fun l => ((h * 16 + l).toUInt8, u)
  | a :: u => some (a.toNat.toUInt8, u)
  | [] => none

/-- The first byte of a text, and what follows it. -/
def readByte : LabelMode → List Char → Option (UInt8 × List Char)
  | .text, '\\' :: u => readCode u
  | .dot, '\\' :: '\\' :: u => readCode u
  | .dot, '\\' :: '"' :: u => some (0x22, u)
  | _, a :: u => some (a.toNat.toUInt8, u)
  | _, [] => none

theorem readCode_escapeCode (c : UInt8) (u : List Char) :
    readCode (escapeCode c ++ u) = some (c, u) := by
  unfold escapeCode
  split_ifs with hbracket ht hn hr
  · simp only [bracketBytes, List.mem_cons, List.not_mem_nil, or_false] at hbracket
    rcases hbracket with rfl | rfl | rfl | rfl | rfl <;> rfl
  · rw [ht]
    rfl
  · rw [hn]
    rfl
  · rw [hr]
    rfl
  · have hc := c.toNat_lt
    have hsplit : c.toNat / 16 * 16 + c.toNat % 16 = c.toNat := Nat.div_add_mod' c.toNat 16
    have hhigh := hexValue?_digit (d := c.toNat / 16) (by omega)
    have hlow := hexValue?_digit (d := c.toNat % 16) (by omega)
    simp only [List.cons_append, List.nil_append, readCode, hhigh, hlow, Option.bind_some,
      Option.map_some, hsplit, Nat.toUInt8_eq, UInt8.ofNat_toNat]

theorem readByte_cons {a : Char} (h : a ≠ '\\') (u : List Char) :
    readByte mode (a :: u) = some (a.toNat.toUInt8, u) := by
  cases mode <;> simp [readByte, h]

theorem readByte_describeByte (mode : LabelMode) (c : UInt8) (u : List Char) :
    readByte mode (describeByte mode c ++ u) = some (c, u) := by
  have h := byteForm mode c
  generalize describeByte mode c = t at h
  cases h with
  | bare hbracket hquote =>
    have hne : byteChar c ≠ '\\' := fun h => hbracket ((byteChar_inj (d := 0x5c) h) ▸ by decide)
    rw [List.singleton_append, readByte_cons hne, toNat_byteChar, Nat.toUInt8_eq, UInt8.ofNat_toNat]
  | quote hmode hc =>
    subst hmode hc
    rfl
  | escaped =>
    cases mode with
    | text => exact readCode_escapeCode c u
    | dot => exact readCode_escapeCode c u

/-- No text of a byte starts another one. -/
theorem describeByte_append_inj (h : describeByte mode c ++ u = describeByte mode d ++ v) :
    c = d ∧ u = v := by
  have := congrArg (readByte mode) h
  rw [readByte_describeByte, readByte_describeByte] at this
  exact Prod.mk.inj (Option.some.inj this)

/-- The characters that mean something inside brackets, but for the backslash. -/
def bracketSigns : List Char := (bracketBytes.filter (· != 0x5c)).map byteChar

/-- The text of a byte does not start with such a character, which is only written escaped. -/
theorem describeByte_append_ne {a : Char} (ha : a ∈ bracketSigns) :
    describeByte mode c ++ u ≠ a :: v := by
  obtain ⟨d, hd, rfl⟩ := List.mem_map.1 ha
  rw [List.mem_filter, bne_iff_ne] at hd
  have hslash : byteChar d ≠ '\\' := fun h => hd.2 (byteChar_inj h)
  have h := byteForm mode c
  generalize describeByte mode c = t at h
  intro heq
  cases h with
  | bare hbracket _ => exact hbracket (byteChar_inj (List.cons.inj heq).1 ▸ hd.1)
  | quote => exact hslash (List.cons.inj heq).1.symm
  | escaped => cases mode <;> exact hslash (List.cons.inj heq).1.symm

/-! ## The text of runs -/

section Runs

variable {r r' : UInt8 × UInt8} {l l' : List (UInt8 × UInt8)}

/-- What stands behind the text of the first byte of a run. -/
inductive RunForm (mode : LabelMode) (r : UInt8 × UInt8) : List Char → Prop
  | lone (h : r.2.toNat = r.1.toNat) : RunForm mode r []
  | pair (h : r.2.toNat = r.1.toNat + 1) : RunForm mode r (describeByte mode r.2)
  | dash (h : r.1.toNat + 1 < r.2.toNat) : RunForm mode r ('-' :: describeByte mode r.2)

theorem runForm (mode : LabelMode) (hle : r.1 ≤ r.2) :
    ∃ t, describeRun mode r = describeByte mode r.1 ++ t ∧ RunForm mode r t := by
  rw [UInt8.le_iff_toNat_le] at hle
  unfold describeRun
  split_ifs with hlone hpair
  · exact ⟨[], (List.append_nil _).symm, .lone (by rw [hlone])⟩
  · exact ⟨_, rfl, .pair hpair⟩
  · have hne : r.1.toNat ≠ r.2.toNat := fun h => hlone (UInt8.toNat_inj.1 h)
    exact ⟨_, rfl, .dash (by omega)⟩

/-- The text does not go on with a dash, nor with the byte right behind the run. -/
structure Leaves (mode : LabelMode) (r : UInt8 × UInt8) (u : List Char) : Prop where
  dash : ∀ v, u ≠ '-' :: v
  next : ∀ b v, u = describeByte mode b ++ v → r.2.toNat + 1 < b.toNat

theorem RunForm.append_inj {t t' : List Char} (ht : RunForm mode r t) (ht' : RunForm mode r' t')
    (hfirst : r.1 = r'.1) (hu : Leaves mode r u) (hv : Leaves mode r' v) (h : t ++ u = t' ++ v) :
    r = r' ∧ u = v := by
  have hdash : ∀ {c u v}, describeByte mode c ++ u ≠ '-' :: v := fun {_ _ _} =>
    describeByte_append_ne (by decide)
  have hnat := congrArg UInt8.toNat hfirst
  cases ht with
  | lone h1 =>
    cases ht' with
    | lone h2 => exact ⟨Prod.ext hfirst (UInt8.toNat_inj.1 (by omega)), h⟩
    | pair h2 =>
      have := hu.next _ _ h
      omega
    | dash => exact absurd h (hu.dash _)
  | pair h1 =>
    cases ht' with
    | lone h2 =>
      have := hv.next _ _ h.symm
      omega
    | pair =>
      obtain ⟨hlast, huv⟩ := describeByte_append_inj h
      exact ⟨Prod.ext hfirst hlast, huv⟩
    | dash => exact absurd h hdash
  | dash =>
    cases ht' with
    | lone => exact absurd h.symm (hv.dash _)
    | pair => exact absurd h.symm hdash
    | dash =>
      obtain ⟨hlast, huv⟩ := describeByte_append_inj (List.cons.inj h).2
      exact ⟨Prod.ext hfirst hlast, huv⟩

open ByteSet

/-- The text of some runs, up to the closing bracket. -/
def runsText (mode : LabelMode) (l : List (UInt8 × UInt8)) : List Char :=
  l.flatMap (describeRun mode) ++ [']']

theorem runsText_cons (mode : LabelMode) (l : List (UInt8 × UInt8)) (hle : r.1 ≤ r.2) :
    ∃ t, RunForm mode r t ∧
      runsText mode (r :: l) = describeByte mode r.1 ++ (t ++ runsText mode l) := by
  obtain ⟨t, ht, hform⟩ := runForm mode hle
  refine ⟨t, hform, ?_⟩
  rw [runsText, List.flatMap_cons, ht, runsText, List.append_assoc, List.append_assoc]

theorem leaves_runsText (h : Spaced (r :: l)) : Leaves mode r (runsText mode l) := by
  obtain ⟨_, hgap, hrest⟩ := h.of_cons
  cases l with
  | nil =>
    refine ⟨fun v hv => ?_, fun b v hv => ?_⟩
    · cases hv
    · exact absurd hv.symm (describeByte_append_ne (by decide))
  | cons r' l =>
    obtain ⟨t, _, ht⟩ := runsText_cons mode l hrest.of_cons.1
    rw [ht]
    refine ⟨fun v => describeByte_append_ne (by decide), fun b v hv => ?_⟩
    rw [← (describeByte_append_inj hv).1]
    exact hgap r' List.mem_cons_self

theorem runsText_inj (hl : Spaced l) (hl' : Spaced l') (h : runsText mode l = runsText mode l') :
    l = l' := by
  have hclose : ∀ {c u}, describeByte mode c ++ u ≠ [']'] := fun {_ _} =>
    describeByte_append_ne (by decide)
  induction l generalizing l' with
  | nil =>
    cases l' with
    | nil => rfl
    | cons r' l' =>
      obtain ⟨t', _, ht'⟩ := runsText_cons mode l' hl'.of_cons.1
      rw [ht'] at h
      exact absurd h.symm hclose
  | cons r l ih =>
    obtain ⟨hle, _, hrest⟩ := hl.of_cons
    obtain ⟨t, hform, ht⟩ := runsText_cons mode l hle
    cases l' with
    | nil =>
      rw [ht] at h
      exact absurd h hclose
    | cons r' l' =>
      obtain ⟨hle', _, hrest'⟩ := hl'.of_cons
      obtain ⟨t', hform', ht'⟩ := runsText_cons mode l' hle'
      rw [ht, ht'] at h
      obtain ⟨hfirst, hbehind⟩ := describeByte_append_inj h
      obtain ⟨hr, hrests⟩ :=
        hform.append_inj hform' hfirst (leaves_runsText hl) (leaves_runsText hl') hbehind
      rw [hr, ih hrest hrest' hrests]

/-- The text of runs does not start with the sign of a negated class. -/
theorem runsText_ne (hl : Spaced l) : runsText mode l ≠ '^' :: u := by
  cases l with
  | nil => exact fun h => absurd (List.cons.inj h).1 (by decide)
  | cons r l =>
    obtain ⟨t, _, ht⟩ := runsText_cons mode l hl.of_cons.1
    rw [ht]
    exact describeByte_append_ne (by decide)

end Runs

/-! ## The text of a set -/

namespace ByteSet

variable {s a b : ByteSet} {limit : Nat}

theorem runs_inj (h : a.runs = b.runs) : a = b :=
  ext_test fun c => by rw [Bool.eq_iff_iff, ← exists_mem_runs, ← exists_mem_runs, h]

theorem compl_inj (h : a.compl = b.compl) : a = b := by
  refine ext_test fun c => ?_
  have := congrArg (fun s => s.test c) h
  simpa using this

theorem isFull_iff : s.isFull = true ↔ s = full := by
  obtain ⟨bits⟩ := s
  simp [isFull, full]

theorem eq_empty_of_toList (h : s.toList = []) : s = empty :=
  ext_test fun b => by
    rw [Bool.eq_iff_iff, ← mem_toList, h]
    simp

theorem eq_single_of_toList (h : s.toList = [c]) : s = single c :=
  ext_test fun b => by
    rw [Bool.eq_iff_iff, ← mem_toList, h]
    simp [eq_comm]

/-- The runs of a set, or those of its complement behind a sign. -/
def classText (mode : LabelMode) (s : ByteSet) : Bool → List Char
  | false => runsText mode s.runs
  | true => '^' :: runsText mode s.compl.runs

theorem classText_inj {n m : Bool} (h : classText mode a n = classText mode b m) : a = b := by
  have hspaced : ∀ s : ByteSet, Spaced s.runs := fun s => s.runsFrom_runs.toSpaced
  cases n with
  | false =>
    cases m with
    | false => exact runs_inj (runsText_inj (hspaced a) (hspaced b) h)
    | true => exact absurd h (runsText_ne (hspaced a))
  | true =>
    cases m with
    | false => exact absurd h.symm (runsText_ne (hspaced b))
    | true =>
      exact compl_inj (runs_inj (runsText_inj (hspaced _) (hspaced _) (List.cons.inj h).2))

/-- The descriptions of a set that leave nothing out. -/
inductive Described (mode : LabelMode) (s : ByteSet) : List Char → Prop
  | any (h : s = full) : Described mode s ['<', 'a', 'n', 'y', '>']
  | empty (h : s = empty) : Described mode s ['<', 'e', 'm', 'p', 't', 'y', '>']
  | lone {c : UInt8} (h : s = single c) : Described mode s (describeByte mode c)
  | brackets (negated : Bool) : Described mode s ('[' :: classText mode s negated)

theorem describeRuns_eq (h : 128 ≤ limit) (s : ByteSet) :
    describeRuns mode limit s.runs ++ [']'] = runsText mode s.runs := by
  have hlength := Nat.le_trans s.runsFrom_runs.toSpaced.length_le h
  rw [describeRuns, List.take_of_length_le hlength, if_neg (Nat.not_lt.2 hlength),
    List.append_nil]
  rfl

theorem described (h : 128 ≤ limit) (mode : LabelMode) (s : ByteSet) :
    Described mode s (s.description limit mode) := by
  unfold description
  split
  next hfull => exact .any (isFull_iff.1 hfull)
  next =>
    split
    next hlist => exact .empty (eq_empty_of_toList hlist)
    next hlist => exact .lone (eq_single_of_toList hlist)
    next =>
      simp only [List.cons_append, describeRuns_eq h]
      split
      next => exact .brackets false
      next => exact .brackets true

theorem Described.inj {t t' : List Char} (ha : Described mode a t) (hb : Described mode b t')
    (h : t = t') : a = b := by
  have hword : ∀ {c e u}, describeByte mode c ≠ '<' :: e :: u := fun {c e u} heq => by
    have hlt : describeByte mode 0x3c ++ e :: u = describeByte mode c ++ [] := by
      rw [List.append_nil, heq]
      cases mode <;> rfl
    cases (describeByte_append_inj hlt).2
  have hbracket : ∀ {c u}, describeByte mode c ≠ '[' :: u := fun {c u} heq =>
    describeByte_append_ne (u := []) (by decide) ((List.append_nil _).trans heq)
  cases ha with
  | any h1 =>
    cases hb with
    | any h2 => exact h1.trans h2.symm
    | empty => cases h
    | lone => exact absurd h.symm hword
    | brackets => cases h
  | empty h1 =>
    cases hb with
    | any => cases h
    | empty h2 => exact h1.trans h2.symm
    | lone => exact absurd h.symm hword
    | brackets => cases h
  | lone h1 =>
    cases hb with
    | any => exact absurd h hword
    | empty => exact absurd h hword
    | lone h2 =>
      have heq := congrArg (· ++ []) h
      rw [h1, h2, (describeByte_append_inj heq).1]
    | brackets => exact absurd h hbracket
  | brackets =>
    cases hb with
    | any => cases h
    | empty => cases h
    | lone => exact absurd h.symm hbracket
    | brackets => exact classText_inj (List.cons.inj h).2

/-- No set has more than 128 runs. If that many are spelled out, sets with the same description are
the same set. -/
theorem describe_inj (hlimit : 128 ≤ limit) (mode : LabelMode) :
    (∀ s : ByteSet, s.runs.length ≤ 128) ∧
      ∀ a b : ByteSet, a.describe limit mode = b.describe limit mode → a = b :=
  ⟨fun s => s.runsFrom_runs.toSpaced.length_le, fun a b h =>
    (described hlimit mode a).inj (described hlimit mode b) (String.ofList_injective h)⟩

/-- All bytes but the dash, described by the one that is left out. -/
theorem describe_inj_dash : (single 0x2d).compl.describe 128 .text = "[^\\-]" ∧
    (ofPred (· != 0x2d)).describe 128 .text = "[^\\-]" ∧
    (single 0x2d).compl = ofPred (· != 0x2d) := by
  have h1 : (single 0x2d).compl.describe 128 .text = "[^\\-]" := by decide +kernel
  have h2 : (ofPred (· != 0x2d)).describe 128 .text = "[^\\-]" := by decide +kernel
  exact ⟨h1, h2, (describe_inj (Nat.le_refl 128) .text).2 _ _ (h1.trans h2.symm)⟩

end ByteSet

end ByteRegex
