-- Walks of a deterministic automaton over a text, byte by byte and to the last:
-- all places before which it accepts. The first and the last of them are what
-- scans ask for. A walk back is a walk over the reversed text.
import ByteRegex.Proofs.Dfa.Machine

namespace ByteRegex

/-! ## The first and the last place -/

/-- The least number from `lo` to `hi` with a property, if there is one. -/
def Leftmost (P : Nat → Prop) (lo hi : Nat) : Option Nat → Prop
  | none => ∀ j, lo ≤ j → j ≤ hi → ¬ P j
  | some e => lo ≤ e ∧ e ≤ hi ∧ P e ∧ ∀ j, lo ≤ j → j < e → ¬ P j

/-- The greatest number from `lo` to `hi` with a property, if there is one. -/
def Rightmost (P : Nat → Prop) (lo hi : Nat) : Option Nat → Prop
  | none => ∀ j, lo ≤ j → j ≤ hi → ¬ P j
  | some e => lo ≤ e ∧ e ≤ hi ∧ P e ∧ ∀ j, e < j → j ≤ hi → ¬ P j

theorem Leftmost.congr {P Q : Nat → Prop} {lo hi : Nat} {r : Option Nat} (h : Leftmost P lo hi r)
    (hPQ : ∀ j, lo ≤ j → j ≤ hi → (P j ↔ Q j)) : Leftmost Q lo hi r := by
  cases r with
  | none => exact fun j h1 h2 hq => h j h1 h2 ((hPQ j h1 h2).2 hq)
  | some e =>
    obtain ⟨h1, h2, h3, h4⟩ := h
    refine ⟨h1, h2, (hPQ e h1 h2).1 h3, fun j hj hje hq => h4 j hj hje ((hPQ j hj (by omega)).2 hq)⟩

theorem Rightmost.congr {P Q : Nat → Prop} {lo hi : Nat} {r : Option Nat} (h : Rightmost P lo hi r)
    (hPQ : ∀ j, lo ≤ j → j ≤ hi → (P j ↔ Q j)) : Rightmost Q lo hi r := by
  cases r with
  | none => exact fun j h1 h2 hq => h j h1 h2 ((hPQ j h1 h2).2 hq)
  | some e =>
    obtain ⟨h1, h2, h3, h4⟩ := h
    refine ⟨h1, h2, (hPQ e h1 h2).1 h3,
      fun j hj hje hq => h4 j hj hje ((hPQ j (by omega) hje).2 hq)⟩

theorem Leftmost.of_succ {P : Nat → Prop} {lo hi : Nat} {r : Option Nat}
    (h : Leftmost P (lo + 1) hi r) (hlo : ¬ P lo) : Leftmost P lo hi r := by
  cases r with
  | none =>
    intro j hj hj'
    rcases Nat.eq_or_lt_of_le hj with rfl | hj
    · exact hlo
    · exact h j hj hj'
  | some e =>
    obtain ⟨h1, h2, h3, h4⟩ := h
    refine ⟨by omega, h2, h3, fun j hj hje => ?_⟩
    rcases Nat.eq_or_lt_of_le hj with rfl | hj
    · exact hlo
    · exact h4 j hj hje

theorem Leftmost.unique {P : Nat → Prop} {lo hi : Nat} {r r' : Option Nat}
    (h : Leftmost P lo hi r) (h' : Leftmost P lo hi r') : r = r' := by
  cases r with
  | none =>
    cases r' with
    | none => rfl
    | some e' => exact absurd h'.2.2.1 (h e' h'.1 h'.2.1)
  | some e =>
    obtain ⟨h1, h2, h3, h4⟩ := h
    cases r' with
    | none => exact absurd h3 (h' e h1 h2)
    | some e' =>
      obtain ⟨h1', h2', h3', h4'⟩ := h'
      rcases Nat.lt_trichotomy e e' with hlt | rfl | hlt
      · exact absurd h3 (h4' e h1 hlt)
      · rfl
      · exact absurd h3' (h4 e' h1' hlt)

theorem exists_leftmost (P : Nat → Prop) (lo hi : Nat) : ∃ r, Leftmost P lo hi r := by
  induction hd : hi + 1 - lo generalizing lo with
  | zero => exact ⟨none, fun j h1 h2 => by omega⟩
  | succ d ih =>
    by_cases hP : P lo
    · exact ⟨some lo, Nat.le_refl lo, by omega, hP, fun j h1 h2 => by omega⟩
    · obtain ⟨r, hr⟩ := ih (lo + 1) (by omega)
      exact ⟨r, hr.of_succ hP⟩

theorem Rightmost.unique {P : Nat → Prop} {lo hi : Nat} {r r' : Option Nat}
    (h : Rightmost P lo hi r) (h' : Rightmost P lo hi r') : r = r' := by
  cases r with
  | none =>
    cases r' with
    | none => rfl
    | some e' => exact absurd h'.2.2.1 (h e' h'.1 h'.2.1)
  | some e =>
    obtain ⟨h1, h2, h3, h4⟩ := h
    cases r' with
    | none => exact absurd h3 (h' e h1 h2)
    | some e' =>
      obtain ⟨h1', h2', h3', h4'⟩ := h'
      rcases Nat.lt_trichotomy e e' with hlt | rfl | hlt
      · exact absurd h3' (h4 e' hlt h2')
      · rfl
      · exact absurd h3 (h4' e hlt h2)

theorem Leftmost.cons {P : Nat → Prop} {lo hi : Nat} {l : List Nat} {b : Bool}
    (h : Leftmost P (lo + 1) hi l.head?) (hlo : lo ≤ hi) (hb : b = true ↔ P lo) :
    Leftmost P lo hi ((if b then [lo] else []) ++ l).head? := by
  by_cases hP : P lo
  · rw [if_pos (hb.2 hP)]
    exact ⟨Nat.le_refl lo, hlo, hP, fun j h1 h2 => by omega⟩
  · rw [if_neg (mt hb.1 hP)]
    exact h.of_succ hP

theorem Rightmost.cons {P : Nat → Prop} {lo hi : Nat} {l : List Nat} {b : Bool}
    (h : Rightmost P (lo + 1) hi l.getLast?) (hlo : lo ≤ hi) (hb : b = true ↔ P lo) :
    Rightmost P lo hi ((if b then [lo] else []) ++ l).getLast? := by
  rw [List.getLast?_append]
  generalize l.getLast? = r at h
  cases r with
  | some e =>
    obtain ⟨h1, h2, h3, h4⟩ := h
    exact ⟨by omega, h2, h3, h4⟩
  | none =>
    by_cases hP : P lo
    · rw [if_pos (hb.2 hP)]
      exact ⟨Nat.le_refl lo, hlo, hP, fun j h1 h2 => h j h1 h2⟩
    · rw [if_neg (mt hb.1 hP)]
      intro j hj hj'
      rcases Nat.eq_or_lt_of_le hj with rfl | hj
      · exact hP
      · exact h j hj hj'

/-- Seen from the other end, the last place is the first. -/
theorem Rightmost.mirror {P : Nat → Prop} {size lo hi : Nat} {r : Option Nat} (hlo : lo ≤ hi)
    (hhi : hi ≤ size)
    (h : Rightmost P (size - hi) (size - lo) (r.map (size - hi + ·))) :
    Leftmost (fun j => P (size - j)) lo hi (r.map (hi - ·)) := by
  cases r with
  | none => exact fun j h1 h2 => h (size - j) (by omega) (by omega)
  | some m =>
    have hlast : Rightmost P (size - hi) (size - lo) (some (size - hi + m)) := h
    obtain ⟨_, h2, h3, h4⟩ := hlast
    have hplace : size - (hi - m) = size - hi + m := by omega
    show Leftmost _ lo hi (some (hi - m))
    refine ⟨by omega, by omega, ?_, fun j h1 h5 => h4 (size - j) (by omega) (by omega)⟩
    dsimp only
    rw [hplace]
    exact h3

namespace Machine

variable {σ τ : Type} {k : Nat} {M : Machine σ} {N : Machine τ} {K : Reading}

/-! ## Walks -/

/-- The state in which a walk starts beside a byte, or beside an end of the text. -/
def enter (M : Machine σ) (K : Reading) : Option UInt8 → σ
  | none => M.step M.startOther K.start
  | some b => if isWordByte b then M.startWord else M.startOther

/-- The automaton accepts before a byte, or before an end of the text. -/
def acceptsBefore (M : Machine σ) (K : Reading) (s : σ) : Option UInt8 → Bool
  | none => (M.accept (M.step s K.stop)).any
  | some b => (M.accept s).before b

/-- Behind how many bytes a walk accepts that takes the bytes of a list and would go on to `next`.
`n` bytes have been taken already. -/
def stops (M : Machine σ) (K : Reading) (next : Option UInt8) : σ → Nat → List UInt8 → List Nat
  | s, n, [] => if M.acceptsBefore K s next then [n] else []
  | s, n, b :: bs =>
    (if M.acceptsBefore K s (some b) then [n] else [])
      ++ M.stops K next (M.step s (K.ofByte b)) (n + 1) bs

theorem Agree.enter (h : Agree k M N) (hK : K.Below k) (b : Option UInt8) :
    Alike k M (M.enter K b) N (N.enter K b) := by
  cases b with
  | none => exact h.startOther.step hK.start
  | some b =>
    simp only [Machine.enter]
    split
    · exact h.startWord
    · exact h.startOther

theorem Alike.acceptsBefore {s : σ} {t : τ} (h : Alike k M s N t) (hK : K.Below k)
    (b : Option UInt8) : M.acceptsBefore K s b = N.acceptsBefore K t b := by
  unfold Machine.acceptsBefore
  rw [h.accept, (h.step hK.stop).accept]

/-- From alike states two automata accept in the same places. -/
theorem Alike.stops {s : σ} {t : τ} (h : Alike k M s N t) (hK : K.Below k) (next : Option UInt8)
    (n : Nat) (bs : List UInt8) : M.stops K next s n bs = N.stops K next t n bs := by
  induction bs generalizing s t n with
  | nil =>
    unfold Machine.stops
    rw [h.acceptsBefore hK]
  | cons b bs ih =>
    unfold Machine.stops
    rw [h.acceptsBefore hK, ih (h.step (hK.ofByte b))]

theorem Quiet.not_acceptsBefore {s : σ} (h : Quiet k M s) (hK : K.Below k) (b : Option UInt8) :
    M.acceptsBefore K s b = false := by
  unfold Machine.acceptsBefore
  rw [h.accept, (h.step hK.stop).accept]
  cases b with
  | none => decide
  | some b => exact not_before_never b

/-- Behind a quiet state there is nothing to be found. -/
theorem Quiet.stops {s : σ} (h : Quiet k M s) (hK : K.Below k) (next : Option UInt8) (n : Nat)
    (bs : List UInt8) : M.stops K next s n bs = [] := by
  induction bs generalizing s n with
  | nil =>
    unfold Machine.stops
    rw [h.not_acceptsBefore hK]
    rfl
  | cons b bs ih =>
    unfold Machine.stops
    rw [h.not_acceptsBefore hK, ih (h.step (hK.ofByte b))]
    rfl

/-! ## Walks over a text -/

/-- The byte before a place, if the text does not start there. -/
def byteBefore (data : Bytes) (i : Nat) : Option UInt8 :=
  if i = 0 then none else some (data.getD (i - 1) 0)

/-- The places from `start` on before which the automaton accepts on its way to the end. -/
def forwardStops (M : Machine σ) (K : Reading) (data : Bytes) (start : Nat) : List Nat :=
  M.stops K none (M.enter K (byteBefore data start)) start (data.toList.drop start)

/-- The places from `hi` down behind which the automaton accepts on its way back to `lo`. -/
def reverseStops (M : Machine σ) (K : Reading) (data : Bytes) (lo hi : Nat) : List Nat :=
  (M.stops K (byteBefore data lo) (M.enter K data[hi]?) 0
    ((data.toList.drop lo).take (hi - lo)).reverse).map (hi - ·)

theorem Agree.forwardStops (h : Agree k M N) (hK : K.Below k) (data : Bytes) (start : Nat) :
    M.forwardStops K data start = N.forwardStops K data start :=
  (h.enter hK _).stops hK _ _ _

theorem Agree.reverseStops (h : Agree k M N) (hK : K.Below k) (data : Bytes) (lo hi : Nat) :
    M.reverseStops K data lo hi = N.reverseStops K data lo hi :=
  congrArg _ ((h.enter hK _).stops hK _ _ _)

/-! ## Where walks stop -/

section Walks

variable {data : Bytes} {start : Nat}

theorem first_eq_enter (M : Machine σ) (K : Reading) (data : Bytes) (start : Nat) :
    M.first K data start = M.enter K (byteBefore data start) := by
  unfold first byteBefore
  by_cases h : start = 0
  · rw [if_pos h, if_pos h]
    rfl
  · rw [if_neg h, if_neg h]
    rfl

theorem acceptsBefore_iff (M : Machine σ) (K : Reading) (data : Bytes) (start i : Nat) :
    M.acceptsBefore K (M.after K data start (i - start)) data[i]? = true ↔
      M.AcceptsAt K data start i := by
  unfold AcceptsAt acceptsIn
  by_cases hlt : i < data.size
  · rw [if_pos hlt, Array.getD_eq_getD_getElem?, Array.getElem?_eq_getElem hlt]
    rfl
  · rw [if_neg hlt, Array.getElem?_eq_none (Nat.le_of_not_lt hlt)]
    rfl

theorem drop_eq_cons {i : Nat} (h : i < data.size) :
    data.toList.drop i = data[i] :: data.toList.drop (i + 1) := by
  rw [List.drop_eq_getElem_cons (by simpa using h), Array.getElem_toList]

/-- A walk over the bytes from `i` on stops first and last where the automaton first and last
accepts. -/
theorem stops_spec (M : Machine σ) (K : Reading) {i n : Nat} (hi : start ≤ i)
    (hn : i + n ≤ data.size) :
    Leftmost (M.AcceptsAt K data start) i (i + n)
        (M.stops K data[i + n]? (M.after K data start (i - start)) i
          ((data.toList.drop i).take n)).head? ∧
      Rightmost (M.AcceptsAt K data start) i (i + n)
        (M.stops K data[i + n]? (M.after K data start (i - start)) i
          ((data.toList.drop i).take n)).getLast? := by
  induction n generalizing i with
  | zero =>
    have hnone : ∀ j, i + 1 ≤ j → j ≤ i → ¬ M.AcceptsAt K data start j := fun j h1 h2 => by omega
    have hiff := acceptsBefore_iff M K data start i
    have hfirst := Leftmost.cons (l := []) hnone (Nat.le_refl i) hiff
    have hlast := Rightmost.cons (l := []) hnone (Nat.le_refl i) hiff
    rw [List.append_nil] at hfirst hlast
    exact ⟨hfirst, hlast⟩
  | succ n ih =>
    have hlt : i < data.size := by omega
    have hiff := acceptsBefore_iff M K data start i
    rw [Array.getElem?_eq_getElem hlt] at hiff
    have hafter : M.after K data start (i + 1 - start) =
        M.step (M.after K data start (i - start)) (K.ofByte data[i]) := by
      rw [show i + 1 - start = i - start + 1 by omega, after,
        show start + (i - start) = i by omega, Array.getD_eq_getD_getElem?,
        Array.getElem?_eq_getElem hlt]
      rfl
    have hrest := ih (i := i + 1) (by omega) (by omega)
    rw [hafter, show i + 1 + n = i + (n + 1) by omega] at hrest
    rw [drop_eq_cons hlt, List.take_succ_cons, stops]
    exact ⟨hrest.1.cons (by omega) hiff, hrest.2.cons (by omega) hiff⟩

theorem forwardStops_spec (M : Machine σ) (K : Reading) (hstart : start ≤ data.size) :
    Leftmost (M.AcceptsAt K data start) start data.size (M.forwardStops K data start).head? ∧
      Rightmost (M.AcceptsAt K data start) start data.size
        (M.forwardStops K data start).getLast? := by
  have hsum : start + (data.size - start) = data.size := by omega
  have h := stops_spec M K (Nat.le_refl start) (Nat.le_of_eq hsum)
  rw [hsum, Nat.sub_self, after, first_eq_enter, Array.getElem?_eq_none (Nat.le_refl _),
    List.take_of_length_le (by simp)] at h
  exact h

/-! ## The way back -/

theorem reverse_byteBefore {i : Nat} (hi : i ≤ data.size) :
    data.reverse[data.size - i]? = byteBefore data i := by
  unfold byteBefore
  by_cases h : i = 0
  · rw [if_pos h, Array.getElem?_eq_none (by simp; omega)]
  · rw [if_neg h, Array.getElem?_reverse (by omega), Array.getD_eq_getD_getElem?,
      show data.size - 1 - (data.size - i) = i - 1 by omega,
      Array.getElem?_eq_getElem (show i - 1 < data.size by omega)]
    rfl

theorem byteBefore_reverse {i : Nat} (hi : i ≤ data.size) :
    byteBefore data.reverse (data.size - i) = data[i]? := by
  have h : data.reverse.reverse[data.reverse.size - (data.size - i)]? =
      byteBefore data.reverse (data.size - i) := reverse_byteBefore (by simp)
  rw [Array.reverse_reverse, Array.size_reverse, Nat.sub_sub_self hi] at h
  exact h.symm

/-- The bytes from `lo` to `hi` in the reversed text. -/
theorem drop_reverse {lo hi : Nat} (hlo : lo ≤ hi) (hhi : hi ≤ data.size) :
    (data.reverse.toList.drop (data.size - hi)).take (hi - lo) =
      ((data.toList.drop lo).take (hi - lo)).reverse := by
  have hlength : (data.toList.take hi).length = hi := List.length_take_of_le (by simpa using hhi)
  rw [Array.toList_reverse, List.drop_reverse, Array.length_toList, Nat.sub_sub_self hhi,
    List.take_reverse, hlength, Nat.sub_sub_self hlo, List.take_drop, Nat.add_sub_cancel' hlo]

theorem stops_add (M : Machine σ) (K : Reading) (next : Option UInt8) (s : σ) (m n : Nat)
    (bs : List UInt8) :
    M.stops K next s (m + n) bs = (M.stops K next s n bs).map (m + ·) := by
  induction bs generalizing s n with
  | nil =>
    unfold stops
    split <;> rfl
  | cons b bs ih =>
    unfold stops
    rw [List.map_append, Nat.add_assoc, ih]
    split <;> rfl

theorem reverseStops_spec (M : Machine σ) (K : Reading) {lo hi : Nat} (hlo : lo ≤ hi)
    (hhi : hi ≤ data.size) :
    Leftmost (fun j => M.AcceptsAt K data.reverse (data.size - hi) (data.size - j)) lo hi
      (M.reverseStops K data lo hi).getLast? := by
  have hsum : data.size - hi + (hi - lo) = data.size - lo := by omega
  have hsize : data.size - hi + (hi - lo) ≤ data.reverse.size := by
    rw [Array.size_reverse]
    omega
  obtain ⟨_, hlast⟩ := stops_spec M K (Nat.le_refl (data.size - hi)) hsize
  rw [hsum, Nat.sub_self, after, first_eq_enter, reverse_byteBefore (Nat.le_trans hlo hhi),
    byteBefore_reverse hhi, drop_reverse hlo hhi, ← Nat.add_zero (data.size - hi), stops_add,
    List.getLast?_map, Nat.add_zero] at hlast
  unfold reverseStops
  rw [List.getLast?_map]
  exact hlast.mirror hlo hhi

end Walks

end Machine

end ByteRegex
