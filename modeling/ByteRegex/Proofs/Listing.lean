-- The labels in graphs. A described set stands between quotes, and a reader of
-- the graph finds the closing quote behind it, but for the set of the
-- backslash alone.
import ByteRegex.Listing
import ByteRegex.Proofs.ByteSet.Describe

namespace ByteRegex.Listing

open ByteSet

/-! ## Quoted strings -/

/-- What follows a quoted string, from behind its opening quote. A backslash is read together with
a backslash or a quote that follows it. -/
def afterQuoted : List Char → Option (List Char)
  | [] => none
  | '"' :: rest => some rest
  | '\\' :: '\\' :: rest => afterQuoted rest
  | '\\' :: '"' :: rest => afterQuoted rest
  | _ :: rest => afterQuoted rest

/-- What follows the quoted string that a text starts with. -/
def afterString : List Char → Option (List Char)
  | '"' :: rest => afterQuoted rest
  | _ => none

/-- Between quotes the label is one string, whatever follows it. -/
def Complete (label : String) : Prop :=
  ∀ rest, afterString ((quoted label).toList ++ rest) = some rest

/-- The character is neither a quote nor a backslash. -/
def isPlain (a : Char) : Bool := a != '"' && a != '\\'

variable {u rest : List Char} {slash slash' : Prop} {c : UInt8}

theorem isPlain_iff {a : Char} : isPlain a = true ↔ a ≠ '"' ∧ a ≠ '\\' := by
  rw [isPlain, Bool.and_eq_true, bne_iff_ne, bne_iff_ne]

theorem afterQuoted_plain {a : Char} (h : isPlain a = true) (u : List Char) :
    afterQuoted (a :: u) = afterQuoted u := by
  obtain ⟨hquote, hslash⟩ := isPlain_iff.1 h
  simp [afterQuoted, hslash]

theorem afterQuoted_slash_plain {a : Char} (h : isPlain a = true) (u : List Char) :
    afterQuoted ('\\' :: a :: u) = afterQuoted u := by
  obtain ⟨hquote, hslash⟩ := isPlain_iff.1 h
  simp [afterQuoted, hquote, hslash]

/-- The text is read up to `rest`, and also behind a backslash that has no partner yet, if there may
be one. -/
structure Closes (slash : Prop) (u rest : List Char) : Prop where
  read : afterQuoted u = some rest
  behind : slash → afterQuoted ('\\' :: u) = some rest

namespace Closes

theorem imp (h : Closes slash u rest) (himp : slash' → slash) : Closes slash' u rest :=
  ⟨h.read, fun hs => h.behind (himp hs)⟩

/-- Behind a plain character a backslash has no partner to wait for. -/
theorem cons {a : Char} (ha : isPlain a = true) (h : afterQuoted u = some rest) :
    Closes slash (a :: u) rest :=
  ⟨(afterQuoted_plain ha u).trans h, fun _ => (afterQuoted_slash_plain ha u).trans h⟩

theorem append {w : List Char} (hw : w.all isPlain = true) (h : Closes slash u rest) :
    Closes slash (w ++ u) rest := by
  induction w with
  | nil => exact h
  | cons a w ih =>
    rw [List.all_cons, Bool.and_eq_true] at hw
    exact cons hw.1 (ih hw.2).read

theorem twoSlashes (h : Closes slash u rest) : Closes slash ('\\' :: '\\' :: u) rest :=
  ⟨h.read, h.behind⟩

theorem oneSlash (h : Closes slash u rest) (hs : slash) : Closes slash ('\\' :: u) rest :=
  ⟨h.behind hs, fun _ => h.read⟩

end Closes

/-! ## Bytes and runs -/

theorem isPlain_byteChar (hquote : c ≠ 0x22) (hslash : c ≠ 0x5c) :
    isPlain (byteChar c) = true :=
  isPlain_iff.2 ⟨fun h => hquote (byteChar_inj h), fun h => hslash (byteChar_inj h)⟩

theorem isPlain_digitChar {n : Nat} (h : n < 16) : isPlain (Nat.digitChar n) = true := by
  revert n
  decide

theorem all_escapeCode (hcode : c ∈ bracketBytes ∨ isGraphByte c = false) (hslash : c ≠ 0x5c) :
    (escapeCode c).all isPlain = true := by
  have hquote : c ≠ 0x22 := by
    rintro rfl
    exact absurd hcode (by decide)
  have hc := c.toNat_lt
  unfold escapeCode
  split_ifs
  · rw [List.all_cons, isPlain_byteChar hquote hslash]
    rfl
  · rfl
  · rfl
  · rfl
  · rw [List.all_cons, List.all_cons, List.all_cons, isPlain_digitChar (by omega),
      isPlain_digitChar (by omega)]
    rfl

/-- Of the bytes only the quote must not stand behind a lone backslash, and only the backslash ends
in one. -/
theorem Closes.byte (hquote : slash → c ≠ 0x22) (hslash : c = 0x5c → slash)
    (h : Closes slash u rest) : Closes slash (describeByte .dot c ++ u) rest := by
  have hform := byteForm .dot c
  generalize describeByte .dot c = t at hform
  cases hform with
  | bare hbracket hbare =>
    have hne : c ≠ 0x5c := fun hc => hbracket (hc ▸ by decide)
    exact .cons (isPlain_byteChar (hbare rfl) hne) h.read
  | quote _ hc => exact ⟨h.read, fun hs => absurd hc (hquote hs)⟩
  | escaped hcode =>
    by_cases hc : c = 0x5c
    · exact hc ▸ (h.oneSlash (hslash hc)).twoSlashes
    · exact (h.append (all_escapeCode hcode hc)).twoSlashes

theorem Closes.run {r : UInt8 × UInt8} (hle : r.1 ≤ r.2) (h : Closes (0x22 < r.2) u rest) :
    Closes (0x22 < r.1) (describeRun .dot r ++ u) rest := by
  have hbyte : ∀ {d u}, Closes (0x22 < d) u rest →
      Closes (0x22 < d) (describeByte .dot d ++ u) rest := fun h =>
    h.byte (fun hlt heq => UInt8.lt_irrefl _ (heq ▸ hlt)) (fun heq => heq ▸ by decide)
  have hup : (0x22 : UInt8) < r.1 → 0x22 < r.2 := fun hlt => UInt8.lt_of_lt_of_le hlt hle
  obtain ⟨t, ht, hform⟩ := runForm .dot hle
  rw [ht, List.append_assoc]
  cases hform with
  | lone => exact hbyte (h.imp hup)
  | pair => exact hbyte ((hbyte h).imp hup)
  | dash => exact hbyte (.cons rfl (hbyte h).read)

/-- The bytes of runs ascend, so that no quote follows a backslash. -/
theorem closes_runs {l : List (UInt8 × UInt8)} (hl : Spaced l) (hc : ∀ r ∈ l, c ≤ r.1)
    (h : ∀ slash, Closes slash u rest) :
    Closes (0x22 < c) (l.flatMap (describeRun .dot) ++ u) rest := by
  induction l generalizing c with
  | nil => exact h _
  | cons r l ih =>
    obtain ⟨hle, hgap, hrest⟩ := hl.of_cons
    have hbehind := ih (c := r.2) hrest fun r' hr' =>
      UInt8.le_iff_toNat_le.2 (by have := hgap r' hr'; omega)
    rw [List.flatMap_cons, List.append_assoc]
    exact (hbehind.run hle).imp fun hlt => UInt8.lt_of_lt_of_le hlt (hc r List.mem_cons_self)

theorem closes_describeRuns {l : List (UInt8 × UInt8)} (hl : Spaced l) (limit : Nat)
    (h : ∀ slash, Closes slash u rest) :
    Closes False (describeRuns .dot limit l ++ u) rest := by
  have htake : Spaced (l.take limit) :=
    ⟨fun r hr => hl.le r (List.mem_of_mem_take hr), hl.gap.sublist (List.take_sublist _ _)⟩
  rw [describeRuns, List.append_assoc]
  refine (closes_runs (c := 0) htake (fun r _ => UInt8.zero_le) fun slash => ?_).imp False.elim
  refine Closes.append ?_ (h slash)
  split <;> rfl

/-! ## Labels -/

theorem complete_iff {s : ByteSet} {limit : Nat} : Complete (s.describe limit .dot) ↔
    ∀ rest, afterQuoted (s.description limit .dot ++ '"' :: rest) = some rest := by
  simp [Complete, quoted, describe, afterString]

theorem description_backslash (limit : Nat) :
    (single 0x5c).description limit .dot = ['\\', '\\', '\\'] := by
  have hfull : (single 0x5c).isFull = false := by decide +kernel
  have hlist : (single 0x5c).toList = [0x5c] := by decide +kernel
  rw [description, hfull, hlist]
  rfl

theorem closes_description {s : ByteSet} (limit : Nat) (hs : s ≠ single 0x5c) (rest : List Char) :
    Closes False (s.description limit .dot ++ '"' :: rest) rest := by
  have hend : Closes False ('"' :: rest) rest := ⟨rfl, False.elim⟩
  have hbracket : ∀ slash, Closes slash (']' :: '"' :: rest) rest := fun _ =>
    .cons rfl hend.read
  have hruns : ∀ s : ByteSet,
      Closes False (describeRuns .dot limit s.runs ++ ']' :: '"' :: rest) rest := fun s =>
    closes_describeRuns s.runsFrom_runs.toSpaced limit hbracket
  unfold description
  split
  · exact hend.append rfl
  · split
    next => exact hend.append rfl
    next c hlist =>
      exact hend.byte False.elim fun hc => hs (hc ▸ eq_single_of_toList hlist)
    next =>
      simp only
      split
      · rw [List.append_assoc]
        exact .cons rfl (hruns s).read
      · rw [List.append_assoc]
        have hsign : Closes False ('^' :: _) rest := .cons rfl (hruns s.compl).read
        exact .cons rfl hsign.read

/-- The label of a set is complete, however many runs are left out of it, just if the set is not the
backslash alone. -/
theorem complete_describe_iff (s : ByteSet) (limit : Nat) :
    Complete (s.describe limit .dot) ↔ s ≠ single 0x5c := by
  rw [complete_iff]
  refine ⟨?_, fun hs rest => (closes_description limit hs rest).read⟩
  rintro h rfl
  have hopen := h []
  rw [description_backslash] at hopen
  cases hopen

/-- The label has three backslashes. The last one takes the closing quote with it, so that nothing
ends the string. -/
theorem complete_describe_backslash_ne : (single 0x5c).describe 16 .dot = "\\\\\\" ∧
    afterString (quoted ((single 0x5c).describe 16 .dot)).toList = none ∧
    ¬ Complete ((single 0x5c).describe 16 .dot) := by
  have hlabel : (single 0x5c).describe 16 .dot = "\\\\\\" := by
    rw [describe, description_backslash]
  have hopen : afterString (quoted ((single 0x5c).describe 16 .dot)).toList = none := by
    rw [hlabel]
    decide
  refine ⟨hlabel, hopen, fun h => ?_⟩
  have := h []
  rw [List.append_nil, hopen] at this
  cases this

end ByteRegex.Listing
