-- A pattern without raw bytes matches whole code points only. In a text that
-- is valid UTF-8 a match that is not empty starts and ends between two code
-- points, although no search ever decodes one.
import ByteRegex.Proofs.Compile
import ByteRegex.Proofs.Database
import ByteRegex.Proofs.Scan

namespace ByteRegex

namespace Utf8

/-! ## Texts -/

/-- Encodings of code points, one after another. -/
inductive Text : List UInt8 → Prop
  | nil : Text []
  | cons {c : Nat} {rest : List UInt8} : IsScalar c → Text rest → Text (encode c ++ rest)

/-- Code points end before the place `i`, and others start there. -/
def IsBoundary (bs : List UInt8) (i : Nat) : Prop :=
  i ≤ bs.length ∧ Text (bs.take i) ∧ Text (bs.drop i)

theorem Text.append {bs bs' : List UInt8} (h : Text bs) (h' : Text bs') : Text (bs ++ bs') := by
  induction h with
  | nil => exact h'
  | cons hc _ ih =>
    rw [List.append_assoc]
    exact .cons hc ih

theorem Text.single {c : Nat} (hc : IsScalar c) : Text (encode c) := by
  simpa using Text.cons hc .nil

/-! ## Lead bytes -/

theorem tail?_tailBytes {n c : Nat} {b : UInt8} (hb : b ∈ tailBytes n c) : (tail? b).isSome := by
  induction n with
  | zero => cases hb
  | succ n ih =>
    rcases List.mem_cons.1 hb with rfl | hb
    · have hlt : c / 64 ^ n % 0x40 < 0x40 := Nat.mod_lt _ (by decide)
      rw [tail?_eq_some_iff.2 ⟨hlt, toNat_continuation _⟩]
      rfl
    · exact ih hb

/-- No encoding starts with a continuation byte. -/
theorem tail?_leadByte {c : Nat} (hc : c ≤ maxCodePoint) :
    tail? (leadByte (tailCount c) c) = none := by
  cases ht : tail? (leadByte (tailCount c) c) with
  | none => rfl
  | some n =>
    obtain ⟨hn, hb⟩ := tail?_eq_some_iff.1 ht
    have hmax : maxCodePoint = 0x10ffff := rfl
    rw [toNat_leadByte hc] at hb
    unfold tailCount at hb
    split at hb
    · simp only [leadBase, Nat.pow_zero, Nat.div_one] at hb; omega
    split at hb
    · simp only [leadBase, Nat.pow_one] at hb; omega
    split at hb
    · simp only [leadBase, Nat.reducePow] at hb; omega
    · simp only [leadBase, Nat.reducePow] at hb; omega

/-! ## Cuts through a text -/

/-- What follows whole code points in a text are whole code points. -/
theorem Text.of_append {bs bs' : List UInt8} (h : Text bs) (hall : Text (bs ++ bs')) :
    Text bs' := by
  induction h with
  | nil => exact hall
  | @cons c rest hc _ ih =>
    rw [List.append_assoc] at hall
    generalize hbytes : encode c ++ (rest ++ bs') = bytes at hall
    cases hall with
    | nil => exact absurd (List.append_eq_nil_iff.1 hbytes).1 (encode_ne_nil c)
    | cons hc' hrest =>
      obtain rfl := encode_unique hc hc' hbytes
      rw [← List.append_cancel_left hbytes] at hrest
      exact ih hrest

/-- A text can be cut before every byte that is no continuation byte. -/
theorem Text.cut {bs rest : List UInt8} {b : UInt8} (h : Text (bs ++ b :: rest))
    (hb : tail? b = none) : Text bs ∧ Text (b :: rest) := by
  generalize hall : bs ++ b :: rest = all at h
  induction h generalizing bs with
  | nil => simp at hall
  | @cons c after hc hafter ih =>
    rcases List.append_eq_append_iff.1 hall with ⟨inside, hencode, hrest⟩ | ⟨more, rfl, hmore⟩
    · cases inside with
      | nil =>
        -- the cut is just behind the first code point
        rw [List.append_nil] at hencode
        rw [List.nil_append] at hrest
        exact ⟨hencode ▸ .single hc, hrest ▸ hafter⟩
      | cons b' inside =>
        obtain rfl : b = b' := (List.cons.inj hrest).1
        cases bs with
        | nil =>
          rw [List.nil_append] at hall
          exact ⟨.nil, hall ▸ .cons hc hafter⟩
        | cons lead bs =>
          -- the byte would stand inside the first code point
          rw [encode_eq, List.cons_append] at hencode
          have hmem : b ∈ tailBytes (tailCount c) c := by
            rw [(List.cons.inj hencode).2]
            simp
          have hsome := tail?_tailBytes hmem
          rw [hb] at hsome
          cases hsome
    · obtain ⟨h1, h2⟩ := ih hmore.symm
      exact ⟨.cons hc h1, h2⟩

/-- Whole code points that stand in a text, at least one of them, start and end at boundaries. -/
theorem Text.boundaries {before bs after : List UInt8} (hall : Text (before ++ (bs ++ after)))
    (h : Text bs) (hne : bs ≠ []) :
    (Text before ∧ Text (bs ++ after)) ∧ Text (before ++ bs) ∧ Text after := by
  have hcut : Text before ∧ Text (bs ++ after) := by
    cases h with
    | nil => exact absurd rfl hne
    | @cons c rest hc _ =>
      rw [encode_eq, List.cons_append, List.cons_append] at hall ⊢
      exact hall.cut (tail?_leadByte hc.1)
  exact ⟨hcut, hcut.1.append h, h.of_append hcut.2⟩

/-- The places from `i` to `j` hold whole code points. -/
def Between (data : Bytes) (i j : Nat) : Prop := i ≤ j ∧ Text (data.extract i j).toList

theorem Between.refl (data : Bytes) (i : Nat) : Between data i i := by
  refine ⟨Nat.le_refl i, ?_⟩
  simpa using Text.nil

theorem Between.trans {data : Bytes} {i m j : Nat} (h : Between data i m) (h' : Between data m j) :
    Between data i j := by
  have happend := h.2.append h'.2
  rw [← Array.toList_append, Array.extract_append_extract, Nat.min_eq_left h.1,
    Nat.max_eq_right h'.1] at happend
  exact ⟨Nat.le_trans h.1 h'.1, happend⟩

theorem Between.of_standsAt {data : Bytes} {i c : Nat} (hc : IsScalar c)
    (h : StandsAt data i (encode c)) : Between data i (i + (encode c).length) := by
  refine ⟨Nat.le_add_right _ _, ?_⟩
  rw [Array.toList_extract, List.extract_eq_take_drop, Nat.add_sub_cancel_left,
    ← List.prefix_iff_eq_take.1 h]
  exact .single hc

theorem Between.boundaries {data : Bytes} {i j : Nat} (h : Between data i j)
    (hall : Text data.toList)
    (hlt : i < j) (hj : j ≤ data.size) : IsBoundary data.toList i ∧ IsBoundary data.toList j := by
  have hlen : data.toList.length = data.size := Array.length_toList
  have htake : data.toList.take j = data.toList.take i ++ (data.extract i j).toList := by
    rw [Array.toList_extract, List.extract_eq_take_drop, ← List.take_add,
      Nat.add_sub_cancel' h.1]
  have hdrop : data.toList.drop i = (data.extract i j).toList ++ data.toList.drop j := by
    rw [Array.toList_extract, List.extract_eq_take_drop]
    have hsplit := List.take_append_drop (j - i) (data.toList.drop i)
    rw [List.drop_drop, Nat.add_sub_cancel' h.1] at hsplit
    exact hsplit.symm
  have hne : (data.extract i j).toList ≠ [] := by
    rw [← List.length_pos_iff]
    simp
    omega
  have hparts := hall
  rw [← List.take_append_drop i data.toList, hdrop] at hparts
  obtain ⟨⟨h1, h2⟩, h3, h4⟩ := hparts.boundaries h.2 hne
  exact ⟨⟨by omega, h1, hdrop ▸ h2⟩, ⟨by omega, htake ▸ h3, h4⟩⟩

end Utf8

/-! ## Patterns without raw bytes -/

namespace Pattern

def isRaw : Pattern → Bool
  | bytes _ _ => true
  | _ => false

/-- No node of the tree matches raw bytes. -/
def Textual (p : Pattern) : Prop := p.AllNodes fun n => n.isRaw = false

end Pattern

variable {p : Pattern} {data : Bytes} {d : Database} {n : Nfa} {limit : Nat} {m : Span}

/-- A pattern without raw bytes matches whole code points. -/
theorem Matches.between {i j : Nat} (hp : p.Textual) (h : Matches data p i j) :
    Utf8.Between data i j := by
  induction p using Pattern.induction generalizing i j with
  | chars loc ranges negated =>
    obtain ⟨c, hc, _, hstands, rfl⟩ := h
    exact .of_standsAt hc hstands
  | bytes loc ranges => cases hp.self
  | seq loc parts ih =>
    have hparts := (Pattern.allNodes_seq.1 hp).2
    clear hp
    simp only [Matches] at h
    induction parts generalizing i with
    | nil => exact (show j = i from h) ▸ .refl data i
    | cons q parts ihs =>
      obtain ⟨m, hm, hs⟩ := h
      have hfirst := ih q (by simp) (hparts q (by simp)) hm
      have hrest := ihs (fun q hq => ih q (by simp [hq])) hs fun q hq => hparts q (by simp [hq])
      exact hfirst.trans hrest
  | alt loc parts ih =>
    obtain ⟨q, hq, hm⟩ := matchesAlt_iff.1 h
    exact ih q hq ((Pattern.allNodes_alt.1 hp).2 q hq) hm
  | rep loc body min max greedy ih =>
    obtain ⟨k, _, _, hk⟩ := h
    have hbody := (Pattern.allNodes_rep.1 hp).2
    exact hk.keeps (fun x y hx hy => hx.trans (ih hbody hy)) (.refl data i)
  | anchor loc atEnd => exact h.2 ▸ .refl data i
  | wordEdge loc negated => exact h.2 ▸ .refl data i
  | empty loc => exact (show j = i from h) ▸ .refl data i
  | backref loc group => exact absurd h id
  | around loc body behind negated => exact absurd h id

/-! ## The spans of a search -/

/-- What a search finds is a match, whichever end it is made to report. -/
theorem Compiled.matches_of_find_some (h : Compiled p limit n d) {start : Nat}
    (hfind : d.find data start = some m) : Matches data p m.start m.stop := by
  obtain ⟨h1, h2, h3⟩ := Database.find_bounds hfind
  have hstart : start ≤ data.size := by omega
  cases hl : d.longest with
  | false =>
    rcases h.find_shortest hl hstart with ⟨hnone, _⟩ | ⟨s, e, hsome, _, _, hm, _⟩
    · rw [hfind] at hnone
      cases hnone
    · obtain rfl := Option.some.inj (hfind.symm.trans hsome)
      exact hm
  | true =>
    rcases h.find_longest hl hstart with ⟨hnone, _⟩ | ⟨s, e, hsome, _, _, _, hm, _⟩
    · rw [hfind] at hnone
      cases hnone
    · obtain rfl := Option.some.inj (hfind.symm.trans hsome)
      exact hm

/-- Every span of a scan comes from a search. -/
theorem Database.exists_find_of_mem_scanFrom {fuel pos : Nat} {lastStop : Option Nat}
    (hm : m ∈ d.scanFrom data fuel pos lastStop) : ∃ start, d.find data start = some m := by
  induction fuel generalizing pos lastStop with
  | zero => cases hm
  | succ fuel ih =>
    unfold scanFrom at hm
    split at hm
    · cases hm
    · rename_i m' hfind
      split at hm
      · exact ih hm
      · rcases List.mem_cons.1 hm with rfl | hm
        · exact ⟨pos, hfind⟩
        · exact ih hm

/-- For a pattern without raw bytes every span of a search or a scan holds whole code points,
whatever the text is. In a valid text a span that is not empty starts and ends at boundaries. -/
theorem spans_hold_code_points {options : Options} {tuning : Tuning}
    (h : compile p options tuning = .ok d) (hp : p.Textual) (data : Bytes) (m : Span)
    (hm : (∃ start, d.find data start = some m) ∨ m ∈ d.scan data) :
    Utf8.Text (data.extract m.start m.stop).toList ∧
      (Utf8.Text data.toList → m.start < m.stop →
        Utf8.IsBoundary data.toList m.start ∧ Utf8.IsBoundary data.toList m.stop) := by
  obtain ⟨_, n, hc⟩ := compile_ok h
  obtain ⟨start, hfind⟩ : ∃ start, d.find data start = some m := by
    rcases hm with hfind | hscan
    · exact hfind
    · exact Database.exists_find_of_mem_scanFrom hscan
  obtain ⟨_, _, hsize⟩ := Database.find_bounds hfind
  have hbetween := (hc.matches_of_find_some hfind).between hp
  exact ⟨hbetween.2, fun hall hlt => hbetween.boundaries hall hlt hsize⟩

/-! ## Runs of an accented letter -/

/-- The pattern `é+`. -/
def accented : Pattern := .rep none (.chars none [(0xe9, 0xe9)] false) 1 none true

def accentedNfa : Nfa where
  states := #[{ edges := #[.bytes 0xc3 0xc3 2] }, { edges := #[.eps 0, .eps 4] },
    { edges := #[.bytes 0xa9 0xa9 1] }, { edges := #[.eps 0] }, { edges := #[.eps 5] },
    { accept := some 0 }, { edges := #[.eps 3, .eps 7] }, { edges := #[.bytes 0x00 0xff 6] }]
  anchored := 3
  floating := 6

theorem starts_accented : (Alphabet.build accented).starts = #[0, 0xe9, 0xea] := by
  have hstarts : Alphabet.startsOf (Alphabet.charSets accented) = [0, 0xe9, 0xea] := by cbv
  exact congrArg List.toArray hstarts

theorem classesIn_accented :
    (Alphabet.build accented).classesIn (Pattern.charSet [(0xe9, 0xe9)] false) = [1] := by
  have hset : (Pattern.charSet [(0xe9, 0xe9)] false).intervals = [⟨0xe9, 0xe9⟩] := rfl
  have hfirst : (Alphabet.build accented).codePointClass 0xe9 = 1 := by
    simp [Alphabet.codePointClass, starts_accented]
  rw [Alphabet.classesIn, hset, List.flatMap_singleton, Alphabet.classesAlong, hfirst]
  simp [Alphabet.classLo, starts_accented, List.range']

theorem sequences_accented :
    (Alphabet.build accented).sequences.getD 1 [] = [[⟨0xc3, 0xc3⟩, ⟨0xa9, 0xa9⟩]] := by
  have hletter : Utf8.sequences 0xe9 0xe9 = [[⟨0xc3, 0xc3⟩, ⟨0xa9, 0xa9⟩]] := by cbv
  rw [Alphabet.sequences_build accented (by rw [starts_accented]; decide)]
  simpa [Alphabet.classLo, Alphabet.classHi, starts_accented] using hletter

/-- The fragment of a class that is one sequence of byte ranges. -/
theorem charsFragment_single {alpha : Alphabet} {set : Except Error CodePointSet}
    {s : CodePointSet} {i : Nat} {ranges : List Utf8.ByteRange} (hset : set = .ok s)
    (hclass : alpha.classesIn s = [i])
    (hranges : alpha.sequences.getD i [] = [ranges]) :
    Nfa.charsFragment limit alpha set = (do
      let entry ← Nfa.newState limit
      let exit ← Nfa.newState limit
      Nfa.addSequence limit exit entry ranges
      return ⟨entry, exit⟩) := by
  have hlift :
      (liftM (Except.ok s : Except Error CodePointSet) : Nfa.Build CodePointSet) = pure s := rfl
  rw [Nfa.charsFragment, hset, hlift]
  simp [hclass, hranges, -Array.getD_eq_getD_getElem?]

theorem ofPattern_accented :
    Nfa.ofPattern accented (Alphabet.build accented) ({} : Tuning).maxNfaStates
      = .ok accentedNfa := by
  have hset : Pattern.charSet? none [(0xe9, 0xe9)] false
      = .ok (Pattern.charSet [(0xe9, 0xe9)] false) := rfl
  have hclass := classesIn_accented
  have hranges := sequences_accented
  rw [Nfa.ofPattern_eq]
  generalize Alphabet.build accented = alpha at hclass hranges
  have hbody : Nfa.fragment ({} : Tuning).maxNfaStates alpha (.chars none [(0xe9, 0xe9)] false)
      = (do
        let entry ← Nfa.newState ({} : Tuning).maxNfaStates
        let exit ← Nfa.newState ({} : Tuning).maxNfaStates
        Nfa.addSequence ({} : Tuning).maxNfaStates exit entry [⟨0xc3, 0xc3⟩, ⟨0xa9, 0xa9⟩]
        return ⟨entry, exit⟩) := by
    rw [Nfa.fragment]
    exact charsFragment_single hset hclass hranges
  rw [accented, Nfa.fragment, hbody]
  rfl

theorem exists_compile_accented : ∃ d, compile accented {} {} = .ok d :=
  exists_compile_of_few rfl rfl ofPattern_accented (by decide +kernel) (by decide +kernel)

theorem matches_accented : Matches #[97, 0xc3, 0xa9] accented 1 3 := by
  refine ⟨1, Nat.le_refl 1, by simp, Passes.single.2 ?_⟩
  exact ⟨0xe9, ⟨by decide, by decide⟩, by decide, List.prefix_append _ [], rfl⟩

theorem nodes_accented : accented.nodes = [accented, .chars none [(0xe9, 0xe9)] false] := rfl

theorem textual_accented : accented.Textual := by
  intro n hn
  rw [nodes_accented] at hn
  rcases List.mem_pair.1 hn with rfl | rfl <;> rfl

theorem spans_hold_code_points_accented : ∃ d m, compile accented {} {} = .ok d ∧
    accented.Textual ∧ d.find #[97, 0xc3, 0xa9] 0 = some m ∧ m.start < m.stop ∧
      Utf8.Text #[97, 0xc3, 0xa9].toList ∧ Utf8.IsBoundary [97, 0xc3, 0xa9] m.start ∧
      Utf8.IsBoundary [97, 0xc3, 0xa9] m.stop := by
  obtain ⟨d, hd⟩ := exists_compile_accented
  obtain ⟨hl, n, hc⟩ := compile_ok hd
  have hall : Utf8.Text #[97, 0xc3, 0xa9].toList :=
    .cons (c := 97) ⟨by decide, by decide⟩ (.single (c := 0xe9) ⟨by decide, by decide⟩)
  rcases hc.find_longest hl (Nat.zero_le (#[97, 0xc3, 0xa9] : Bytes).size) with
    ⟨_, hnone⟩ | ⟨s, e, hfind, _, _, _, hm, _⟩
  · exact absurd matches_accented (hnone 1 (by decide) (by decide) 3)
  · have hlt : s < e := hm.lt rfl
    obtain ⟨_, hbounds⟩ := spans_hold_code_points hd textual_accented #[97, 0xc3, 0xa9] ⟨s, e⟩
      (Or.inl ⟨0, hfind⟩)
    obtain ⟨h1, h2⟩ := hbounds hall hlt
    exact ⟨d, ⟨s, e⟩, hd, textual_accented, hfind, hlt, hall, h1, h2⟩

end ByteRegex
