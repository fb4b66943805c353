-- What a list of overrides does. A list is read to its end just if it is one
-- item after another, and each setting has its last value then. At a bad item the
-- reading stops, and the items before it have had their effect.
import ByteRegex.Tuning
import Mathlib.Data.List.Induction
import Mathlib.Data.Nat.Digits.Defs

namespace ByteRegex.Tuning

/-! ## The form of a list -/

/-- The text is a decimal numeral of a number that fits a 32-bit word. -/
structure Numeral (text : List Char) (n : Nat) : Prop where
  ne_nil : text ≠ []
  digits : ∀ c ∈ text, c.isDigit = true
  value : n = Nat.ofDigits 10 (text.reverse.map fun c => c.toNat - '0'.toNat)
  le : n ≤ maxWord

/-- What an item sets, and to which number. -/
structure Setting where
  key : Key
  value : Nat
deriving DecidableEq

/-- The text is the name of a key, a colon and a numeral. -/
def IsItem (text : List Char) (s : Setting) : Prop :=
  ∃ digits, Numeral digits s.value ∧ text = s.key.name.toList ++ ':' :: digits

/-- The text is a list of items with one separator between any two, and at most one behind the
last. -/
inductive IsItems : List Char → List Setting → Prop
  | nil : IsItems [] []
  | last {text : List Char} {s : Setting} : IsItem text s → IsItems text [s]
  | more {text rest : List Char} {c : Char} {s : Setting} {ss : List Setting} :
      IsItem text s → isSeparator c = true → IsItems rest ss → IsItems (text ++ c :: rest) (s :: ss)

/-- An item may start behind the text, as it is empty or ends in a separator. -/
def ItemStarts (before : List Char) : Prop :=
  ∀ c, before.getLast? = some c → isSeparator c = true

/-- Behind a list of items stands one with the key that asks for help. -/
def AsksHelp (text : List Char) : Prop :=
  ∃ before rest ss, text = before ++ (helpKey ++ ':' :: rest) ∧ ItemStarts before ∧
    IsItems before ss

/-- What stands before the first separator. -/
def firstPiece (text : List Char) : List Char := text.takeWhile fun c => !isSeparator c

/-- The text starts with a list of items, and behind it stands a piece that is none. -/
def BreaksOff (text : List Char) (ss : List Setting) : Prop :=
  ∃ before rest, text = before ++ rest ∧ ItemStarts before ∧ IsItems before ss ∧ rest ≠ [] ∧
    ∀ s, ¬ IsItem (firstPiece rest) s

/-! ## What items set -/

/-- The value that a setting has when it was set to a number. -/
def Key.stored : Key → Nat → Nat
  | .minimize, n => (n != 0).toNat
  | .narrowTable, n => (n != 0).toNat
  | _, n => n

/-- The settings after some items. -/
def setAll (t : Tuning) (ss : List Setting) : Tuning := ss.foldl (fun t s => t.set s.value s.key) t

/-- The value of a setting after some items: the last one that they give it, or the one it had. -/
def valueAfter (t : Tuning) (ss : List Setting) (k : Key) : Nat :=
  match (ss.filter fun s => s.key = k).getLast? with
  | some s => k.stored s.value
  | none => t.get k

theorem get_set (t : Tuning) (n : Nat) (k k' : Key) :
    (t.set n k).get k' = if k = k' then k'.stored n else t.get k' := by
  cases k <;> cases k' <;> rfl

theorem get_setAll (t : Tuning) (ss : List Setting) (k : Key) :
    (t.setAll ss).get k = t.valueAfter ss k := by
  induction ss using List.reverseRecOn with
  | nil => rfl
  | append_singleton ss s ih =>
    rw [setAll, List.foldl_append, List.foldl_cons, List.foldl_nil, get_set]
    by_cases h : s.key = k
    · simp [valueAfter, h]
    · rw [if_neg h]
      simpa [valueAfter, h, setAll] using ih

/-! ## Numerals and keys -/

theorem foldl_digits (text : List Char) :
    text.foldl (fun n c => n * 10 + (c.toNat - '0'.toNat)) 0 =
      Nat.ofDigits 10 (text.reverse.map fun c => c.toNat - '0'.toNat) := by
  induction text using List.reverseRecOn with
  | nil => rfl
  | append_singleton text c ih =>
    rw [List.foldl_append, ih, List.reverse_append, List.reverse_singleton, List.singleton_append,
      List.map_cons, Nat.ofDigits_cons]
    simp only [List.foldl_cons, List.foldl_nil]
    rw [Nat.add_comm, Nat.mul_comm]

theorem readWord?_eq_some_iff {text : List Char} {n : Nat} :
    readWord? text = some n ↔ Numeral text n := by
  cases text with
  | nil => exact ⟨nofun, fun h => absurd rfl h.ne_nil⟩
  | cons c cs =>
    simp only [readWord?, foldl_digits]
    constructor
    · intro h
      split at h
      next hdigits =>
        obtain ⟨hle, heq⟩ := Option.ite_none_right_eq_some.1 h
        obtain rfl := Option.some.inj heq
        exact ⟨nofun, List.all_eq_true.1 hdigits, rfl, hle⟩
      next => cases h
    · rintro ⟨_, hdigits, rfl, hle⟩
      rw [if_pos (List.all_eq_true.2 hdigits), if_pos hle]

theorem Numeral.not_separator {text : List Char} {n : Nat} (h : Numeral text n) :
    ∀ c ∈ text, (!isSeparator c) = true := by
  intro c hc
  have hdigit := h.digits c hc
  have hsemicolon : (';').isDigit = false := rfl
  have hcomma : (',').isDigit = false := rfl
  rw [Bool.not_eq_true', isSeparator, Bool.or_eq_false_iff, beq_eq_false_iff_ne,
    beq_eq_false_iff_ne]
  constructor <;> rintro rfl <;> simp_all

theorem Key.ofName?_eq_some_iff {text : List Char} {k : Key} :
    ofName? text = some k ↔ text = k.name.toList := by
  constructor
  · intro h
    have hname := List.find?_some h
    exact (eq_of_beq hname).symm
  · rintro rfl
    cases k <;> decide

/-- The name of a key holds no colon and no separator. -/
theorem Key.name_plain (k : Key) :
    ∀ c ∈ k.name.toList, (c != ':') = true ∧ (!isSeparator c) = true := by
  have hall : (k.name.toList.all fun c => c != ':' && !isSeparator c) = true := by cases k <;> rfl
  intro c hc
  exact Bool.and_eq_true_iff.1 (List.all_eq_true.1 hall c hc)

theorem Key.name_ne_help (k : Key) : k.name.toList ≠ helpKey := by
  cases k <;> decide

theorem isItem_digit (k : Key) (c : Char) (h : c.isDigit = true) :
    IsItem (k.name.toList ++ [':', c]) ⟨k, c.toNat - '0'.toNat⟩ := by
  have hle : c.toNat ≤ '9'.toNat := by
    rw [Char.isDigit, Bool.and_eq_true, decide_eq_true_eq, decide_eq_true_eq] at h
    exact UInt32.le_iff_toNat_le.1 h.2
  have hword : '9'.toNat ≤ maxWord := by decide
  refine ⟨[c], ⟨nofun, fun d hd => List.mem_singleton.1 hd ▸ h, by simp, ?_⟩, rfl⟩
  exact (Nat.sub_le _ _).trans (hle.trans hword)

/-! ## One item -/

/-- An item, if it is one, is read up to its end. -/
theorem IsItem.split {text tail : List Char} {s : Setting} (h : IsItem text s)
    (htail : ∀ c rest, tail = c :: rest → isSeparator c = true) :
    firstPiece (text ++ tail) = text ∧
      ∃ digits, (text ++ tail).takeWhile (· != ':') = s.key.name.toList ∧
        (text ++ tail).dropWhile (· != ':') = ':' :: (digits ++ tail) ∧
        (digits ++ tail).takeWhile (fun c => !isSeparator c) = digits ∧
        (digits ++ tail).dropWhile (fun c => !isSeparator c) = tail ∧ Numeral digits s.value := by
  obtain ⟨digits, hnum, rfl⟩ := h
  have hcolon : ∀ c ∈ s.key.name.toList, (c != ':') = true := fun c hc => (s.key.name_plain c hc).1
  have hpiece : ∀ c ∈ s.key.name.toList ++ ':' :: digits, (!isSeparator c) = true := by
    intro c hc
    rcases List.mem_append.1 hc with hc | hc
    · exact (s.key.name_plain c hc).2
    · rcases List.mem_cons.1 hc with rfl | hc
      · rfl
      · exact hnum.not_separator c hc
  have hstop : tail.takeWhile (fun c => !isSeparator c) = [] ∧
      tail.dropWhile (fun c => !isSeparator c) = tail := by
    cases tail with
    | nil => exact ⟨rfl, rfl⟩
    | cons c rest => simp [htail c rest rfl]
  refine ⟨?_, digits, ?_, ?_, ?_, ?_, hnum⟩
  · rw [firstPiece, List.takeWhile_append_of_pos hpiece, hstop.1, List.append_nil]
  · rw [List.append_assoc, List.takeWhile_append_of_pos hcolon]
    simp
  · rw [List.append_assoc, List.dropWhile_append_of_pos hcolon]
    simp
  · rw [List.takeWhile_append_of_pos hnum.not_separator, hstop.1, List.append_nil]
  · rw [List.dropWhile_append_of_pos hnum.not_separator, hstop.2]

/-- An item takes effect, and the reading goes on behind its separator. -/
theorem applyItems_item (t : Tuning) (printed : String) {text tail : List Char} {s : Setting}
    (h : IsItem text s) (htail : ∀ c rest, tail = c :: rest → isSeparator c = true) :
    applyItems t printed (text ++ tail) =
      applyItems (t.set s.value s.key) printed (tail.drop 1) := by
  obtain ⟨_, digits, hkey, hdrop, hvalue, hrest, hnum⟩ := h.split htail
  have hne : text ++ tail ≠ [] := by
    intro heq
    rw [heq] at hdrop
    cases hdrop
  have hread := readWord?_eq_some_iff.2 hnum
  have hname := Key.ofName?_eq_some_iff.2 (rfl : s.key.name.toList = _)
  rw [applyItems, if_neg hne]
  split
  next hnil => rw [hdrop] at hnil; cases hnil
  next c afterColon hcons =>
    rw [hdrop] at hcons
    obtain ⟨_, rfl⟩ := List.cons.inj hcons
    simp only [hvalue, hrest, hkey, hread, if_neg s.key.name_ne_help, hname]

theorem applyItems_nil (t : Tuning) (printed : String) :
    applyItems t printed [] = ⟨t, printed, none⟩ := by
  rw [applyItems, if_pos rfl]

/-- A list is read to its end. -/
theorem IsItems.applyItems {text : List Char} {ss : List Setting} (h : IsItems text ss) (t : Tuning)
    (printed : String) : applyItems t printed text = ⟨t.setAll ss, printed, none⟩ := by
  induction h generalizing t with
  | nil => exact applyItems_nil t printed
  | last hitem =>
    have hstep : Tuning.applyItems t printed (_ ++ []) = _ := applyItems_item t printed hitem nofun
    rw [List.append_nil] at hstep
    rw [hstep, List.drop_nil, applyItems_nil]
    rfl
  | more hitem hc _ ih =>
    rw [applyItems_item t printed hitem fun c' rest' heq => (List.cons.inj heq).1 ▸ hc,
      List.drop_one,
      List.tail_cons, ih]
    rfl

/-! ## Bad items -/

theorem itemStarts_nil : ItemStarts [] := nofun

theorem ItemStarts.behind {before text : List Char} {c : Char} (h : ItemStarts before)
    (hc : isSeparator c = true) : ItemStarts (text ++ c :: before) := by
  intro c' hc'
  rw [List.getLast?_append, List.getLast?_cons] at hc'
  cases hlast : before.getLast? with
  | none =>
    rw [hlast] at hc'
    exact Option.some.inj hc' ▸ hc
  | some d =>
    rw [hlast] at hc'
    exact h c' (hlast.trans hc')

/-- A text with a bad item in front is broken off at once. -/
theorem breaksOff_first {text : List Char} (hne : text ≠ [])
    (h : ∀ s, ¬ IsItem (firstPiece text) s) : BreaksOff text [] :=
  ⟨[], text, rfl, itemStarts_nil, .nil, hne, h⟩

/-- What stands behind the first piece starts with a separator. -/
theorem separator_of_dropWhile {text rest : List Char} {c : Char}
    (h : text.dropWhile (fun c => !isSeparator c) = c :: rest) : isSeparator c = true := by
  have hhead := List.head?_dropWhile_not (fun c => !isSeparator c) text
  rw [h] at hhead
  simpa using hhead

/-- If the first piece is an item, its key and its numeral are what is read. -/
theorem read_of_isItem {text : List Char} {s : Setting} (h : IsItem (firstPiece text) s) :
    text.takeWhile (· != ':') = s.key.name.toList ∧
      ∃ after, text.dropWhile (· != ':') = ':' :: after ∧
        Numeral (after.takeWhile fun c => !isSeparator c) s.value := by
  obtain ⟨_, digits, hkey, hdrop, hvalue, _, hnum⟩ := h.split fun _ _ => separator_of_dropWhile
  rw [firstPiece, List.takeWhile_append_dropWhile] at hkey hdrop
  exact ⟨hkey, _, hdrop, hvalue.symm ▸ hnum⟩

/-- Up to the end of its first value a text is its key, a colon and that value. -/
theorem text_eq {text after : List Char} {c : Char}
    (h : text.dropWhile (· != ':') = c :: after) :
    text = (text.takeWhile (· != ':') ++ ':' :: after.takeWhile fun c => !isSeparator c) ++
      after.dropWhile fun c => !isSeparator c := by
  have hhead := List.head?_dropWhile_not (· != ':') text
  rw [h] at hhead
  obtain rfl : c = ':' := by simpa using hhead
  rw [List.append_assoc, List.cons_append, List.takeWhile_append_dropWhile, ← h,
    List.takeWhile_append_dropWhile]

/-- A good item in front changes nothing about how the rest is read. -/
theorem BreaksOff.behind {text rest : List Char} {c : Char} {s : Setting} {ss : List Setting}
    (h : BreaksOff rest ss) (hitem : IsItem text s) (hc : isSeparator c = true) :
    BreaksOff (text ++ c :: rest) (s :: ss) := by
  obtain ⟨before, bad, rfl, hstart, hlist, hne, hbad⟩ := h
  exact ⟨text ++ c :: before, bad, by simp, hstart.behind hc, hlist.more hitem hc, hne, hbad⟩

theorem AsksHelp.behind {text rest : List Char} {c : Char} {s : Setting}
    (h : AsksHelp rest) (hitem : IsItem text s) (hc : isSeparator c = true) :
    AsksHelp (text ++ c :: rest) := by
  obtain ⟨before, bad, ss, rfl, hstart, hlist⟩ := h
  exact ⟨text ++ c :: before, bad, s :: ss, by simp, hstart.behind hc, hlist.more hitem hc⟩

/-- Without a call for help a text is read to its end, or up to a bad item. -/
theorem applyItems_cases {text : List Char} (hhelp : ¬ AsksHelp text) (t : Tuning)
    (printed : String) :
    (∃ ss, IsItems text ss) ∨
      ∃ ss f, BreaksOff text ss ∧ applyItems t printed text = ⟨t.setAll ss, printed, some f⟩ := by
  fun_induction applyItems t printed text with
  | case1 t printed => exact .inl ⟨[], .nil⟩
  | case2 t printed text hne hcolon =>
    refine .inr ⟨[], _, breaksOff_first hne fun s hitem => ?_, rfl⟩
    obtain ⟨_, after, hdrop, _⟩ := read_of_isItem hitem
    rw [hcolon] at hdrop
    cases hdrop
  | case3 t printed text hne key head after hcolon value _ hread =>
    refine .inr ⟨[], _, breaksOff_first hne fun s hitem => ?_, rfl⟩
    obtain ⟨_, after', hdrop, hnum⟩ := read_of_isItem hitem
    obtain ⟨-, rfl⟩ := List.cons.inj (hcolon.symm.trans hdrop)
    exact absurd (readWord?_eq_some_iff.2 hnum) (by simp [hread, value])
  | case4 t printed text hne key head after hcolon value rest _ n hread hkey ih =>
    have htext := text_eq hcolon
    rw [show text.takeWhile (· != ':') = helpKey from hkey, List.append_assoc] at htext
    exact absurd ⟨[], _, [], htext, itemStarts_nil, .nil⟩ hhelp
  | case5 t printed text hne key head after hcolon value _ n hread hkey hname =>
    refine .inr ⟨[], _, breaksOff_first hne fun s hitem => ?_, rfl⟩
    exact absurd (Key.ofName?_eq_some_iff.2 (read_of_isItem hitem).1) (by simp [hname, key])
  | case6 t printed text hne key head after hcolon value rest _ n hread hkey k hname ih =>
    have hitem : IsItem (key ++ ':' :: value) ⟨k, n⟩ :=
      ⟨value, readWord?_eq_some_iff.1 hread, by rw [Key.ofName?_eq_some_iff.1 hname]⟩
    have htext : text = (key ++ ':' :: value) ++ after.dropWhile fun c => !isSeparator c :=
      text_eq hcolon
    cases htail : after.dropWhile fun c => !isSeparator c with
    | nil =>
      rw [htail, List.append_nil] at htext
      exact .inl ⟨[⟨k, n⟩], by rw [htext]; exact .last hitem⟩
    | cons c behind =>
      have hc := separator_of_dropWhile htail
      have hrest : rest = behind := by simp [rest, htail]
      rw [htail] at htext
      rw [hrest] at ih ⊢
      obtain ⟨ss, hlist⟩ | ⟨ss, f, hbreak, heq⟩ :=
        ih fun hasks => hhelp (htext ▸ hasks.behind hitem hc)
      · exact .inl ⟨⟨k, n⟩ :: ss, by rw [htext]; exact .more hitem hc hlist⟩
      · exact .inr ⟨⟨k, n⟩ :: ss, f, by rw [htext]; exact hbreak.behind hitem hc, heq⟩

/-! ## The overrides -/

theorem applyOverrides_eq_applyItems (t : Tuning) {s : String} (hs : s ≠ "help")
    (hhelp : ¬ AsksHelp s.toList) : applyOverrides t s = applyItems t "" s.toList := by
  rw [applyOverrides, if_neg]
  rintro (h | h)
  · exact hs h
  · subst h
    exact hhelp ⟨[], [], [], rfl, itemStarts_nil, .nil⟩

/-- A text is accepted just if it is a list of items, and every setting has the last value that the
list gives it. Else the caller is told that the text is malformed, and the items before the first
bad one have had their effect. -/
theorem applyOverrides_exact (t : Tuning) {s : String} (hs : s ≠ "help")
    (hhelp : ¬ AsksHelp s.toList) :
    ((applyOverrides t s).fault = none ↔ ∃ ss, IsItems s.toList ss) ∧
      (∀ ss, IsItems s.toList ss →
        ∀ k, (applyOverrides t s).tuning.get k = t.valueAfter ss k) ∧
      ∀ f, (applyOverrides t s).fault = some f →
        (∃ message, f.toError = .malformed message none) ∧
          ∃ ss, BreaksOff s.toList ss ∧
            ∀ k, (applyOverrides t s).tuning.get k = t.valueAfter ss k := by
  rw [applyOverrides_eq_applyItems t hs hhelp]
  refine ⟨⟨fun hnone => ?_, fun ⟨ss, hlist⟩ => ?_⟩, fun ss hlist k => ?_, fun f hfault => ?_⟩
  · obtain hlist | ⟨ss, f, _, heq⟩ := applyItems_cases hhelp t ""
    · exact hlist
    · rw [heq] at hnone
      cases hnone
  · rw [hlist.applyItems]
  · rw [hlist.applyItems, get_setAll]
  · obtain ⟨ss, hlist⟩ | ⟨ss, f', hbreak, heq⟩ := applyItems_cases hhelp t ""
    · rw [hlist.applyItems] at hfault
      cases hfault
    · refine ⟨⟨f.message, rfl⟩, ss, hbreak, fun k => ?_⟩
      rw [heq, get_setAll]

/-- A key may be set twice, and the separators may differ; the last value holds. -/
theorem applyOverrides_exact_repeated :
    (applyOverrides {} "minimizeDFA:0;limitNFAStates:5,limitNFAStates:7;").fault = none ∧
      (applyOverrides {} "minimizeDFA:0;limitNFAStates:5,limitNFAStates:7;").tuning.get
        .minimize = 0 ∧
      (applyOverrides {} "minimizeDFA:0;limitNFAStates:5,limitNFAStates:7;").tuning.get
        .maxNfaStates = 7 ∧
      (applyOverrides {} "minimizeDFA:0;limitNFAStates:5,limitNFAStates:7;").tuning.get
        .maxDfaStates = 10000 := by
  have hhelp : ¬ AsksHelp "minimizeDFA:0;limitNFAStates:5,limitNFAStates:7;".toList := by
    rintro ⟨before, rest, _, heq, _⟩
    have hp : 'p' ∈ "minimizeDFA:0;limitNFAStates:5,limitNFAStates:7;".toList := by
      simp [heq, helpKey]
    exact absurd hp (by decide)
  have hlist : IsItems "minimizeDFA:0;limitNFAStates:5,limitNFAStates:7;".toList
      [⟨.minimize, 0⟩, ⟨.maxNfaStates, 5⟩, ⟨.maxNfaStates, 7⟩] := by
    have hitems := IsItems.more (isItem_digit .minimize '0' rfl) (rfl : isSeparator ';' = true)
      (.more (isItem_digit .maxNfaStates '5' rfl) (rfl : isSeparator ',' = true)
        (.more (isItem_digit .maxNfaStates '7' rfl) (rfl : isSeparator ';' = true) .nil))
    exact hitems
  obtain ⟨hread, hvalues, _⟩ := applyOverrides_exact {} (by decide) hhelp
  exact ⟨hread.2 ⟨_, hlist⟩, hvalues _ hlist _, hvalues _ hlist _, hvalues _ hlist _⟩

/-- A key runs on to the next colon, so a piece without one spoils the item behind it. -/
example : (applyOverrides {} "limitDFAStates:50,many;minimizeDFA:0").fault =
    some (.badKey "many;minimizeDFA".toList) := by cbv

end ByteRegex.Tuning
