-- What a scan over a table finds: the first or the last place where a walk stops.
-- A scan may leave out what follows the dead state, as nothing is found there.
import ByteRegex.Proofs.Dfa.Stops
import ByteRegex.Table.Scan

namespace ByteRegex.Table

open Machine (byteBefore drop_eq_cons first_eq_enter)

/-- The automaton of a table. -/
def machine (t : Table) : Machine Nat := ⟨0, t.startOther, t.startWord, t.step, t.accept⟩

/-- The classes that a scan over a table uses. -/
def reading (t : Table) : Reading := ⟨t.byteClass, t.startClass, t.endClass⟩

variable {t : Table} {data : Bytes} {k : Nat}

theorem stops_end (next : Option UInt8) (s n : Nat) :
    t.machine.stops t.reading next s n [] =
      if t.machine.acceptsBefore t.reading s next then [n] else [] := rfl

theorem stops_byte (next : Option UInt8) (s n : Nat) (b : UInt8) (bs : List UInt8) :
    t.machine.stops t.reading next s n (b :: bs) =
      (if (t.accept s).before b then [n] else [])
        ++ t.machine.stops t.reading next (t.step s (t.byteClass b)) (n + 1) bs := rfl

theorem acceptsBefore_end (s : Nat) :
    t.machine.acceptsBefore t.reading s none = (t.accept (t.step s t.endClass)).any := rfl

/-! ## Forward -/

/-- A scan for the shortest match gives the first place where the walk accepts. -/
theorem forwardFrom_eq_head? (hK : t.reading.Below k) (hdead : t.machine.Quiet k 0) {s i : Nat}
    (hi : i ≤ data.size) :
    t.forwardFrom data true s i none =
      (t.machine.stops t.reading none s i (data.toList.drop i)).head? := by
  generalize hf : (none : Option Nat) = found
  generalize hb : true = shortest
  fun_induction forwardFrom t data shortest s i found with
  | case1 i found =>
    subst hf
    rw [hdead.stops hK, List.head?_nil]
  | case2 s i found _ hlt c here hacc =>
    have hhere : (t.accept s).before data[i] = true := (Bool.and_eq_true_iff.1 hacc).1
    rw [drop_eq_cons hlt, stops_byte, if_pos hhere]
    rfl
  | case3 s i found _ hlt c here hacc ih =>
    subst hb
    have hhere : ¬ here = true := by simpa using hacc
    have hrest := ih hlt (by rw [dif_neg hhere]; exact hf)
    rw [dif_neg hhere] at hrest
    rw [drop_eq_cons hlt, stops_byte, if_neg hhere, if_neg hhere, List.nil_append]
    exact hrest
  | case4 s i found _ hlt hany =>
    obtain rfl : i = data.size := by omega
    rw [List.drop_eq_nil_of_le (Nat.le_of_eq Array.length_toList), stops_end, acceptsBefore_end,
      if_pos hany]
    rfl
  | case5 s i found _ hlt hany =>
    obtain rfl : i = data.size := by omega
    rw [List.drop_eq_nil_of_le (Nat.le_of_eq Array.length_toList), stops_end, acceptsBefore_end,
      if_neg hany, ← hf]
    rfl

/-- A scan for the preferred match gives the last place where the walk accepts, and what had been
found before if there is none. -/
theorem forwardFrom_eq_getLast? (hK : t.reading.Below k) (hdead : t.machine.Quiet k 0) {s i : Nat}
    {found : Option Nat} (hi : i ≤ data.size) :
    t.forwardFrom data false s i found =
      (t.machine.stops t.reading none s i (data.toList.drop i)).getLast?.or found := by
  generalize hb : false = shortest
  fun_induction forwardFrom t data shortest s i found with
  | case1 i found =>
    rw [hdead.stops hK]
    rfl
  | case2 s i found _ hlt c here hacc =>
    subst hb
    simp at hacc
  | case3 s i found _ hlt c here hacc ih =>
    rw [drop_eq_cons hlt, stops_byte, List.getLast?_append, Option.or_assoc]
    simp only [dite_eq_ite] at ih
    rw [ih hlt]
    congr 1
    by_cases hhere : here = true
    · rw [if_pos hhere, if_pos hhere]
      rfl
    · rw [if_neg hhere, if_neg hhere]
      rfl
  | case4 s i found _ hlt hany =>
    obtain rfl : i = data.size := by omega
    rw [List.drop_eq_nil_of_le (Nat.le_of_eq Array.length_toList), stops_end, acceptsBefore_end,
      if_pos hany]
    rfl
  | case5 s i found _ hlt hany =>
    obtain rfl : i = data.size := by omega
    rw [List.drop_eq_nil_of_le (Nat.le_of_eq Array.length_toList), stops_end, acceptsBefore_end,
      if_neg hany]
    rfl

/-! ## Reverse -/

theorem acceptsBefore_low (lo s : Nat) :
    t.machine.acceptsBefore t.reading s (byteBefore data lo) = t.acceptsAtLow data lo s := by
  unfold byteBefore acceptsAtLow
  split <;> rfl

/-- The way back over one byte more takes that byte first. -/
theorem reverse_take_succ {lo n : Nat} (h : lo + n < data.size) :
    ((data.toList.drop lo).take (n + 1)).reverse =
      data.getD (lo + n) 0 :: ((data.toList.drop lo).take n).reverse := by
  rw [List.take_add_one, List.getElem?_drop, Array.getElem?_toList, Array.getD_eq_getD_getElem?,
    Array.getElem?_eq_getElem h]
  simp

/-- A reverse scan gives the last place where the walk accepts, and what had been found before if
there is none. -/
theorem reverseFrom_eq_getLast? (hK : t.reading.Below k) (hdead : t.machine.Quiet k 0)
    {lo hi n s : Nat} (found : Option Nat) (hhi : lo + n ≤ hi) (hsize : hi ≤ data.size) :
    t.reverseFrom data lo n s found =
      ((t.machine.stops t.reading (byteBefore data lo) s (hi - (lo + n))
        ((data.toList.drop lo).take n).reverse).map (hi - ·)).getLast?.or found := by
  induction n generalizing s found with
  | zero =>
    unfold reverseFrom
    by_cases hs : s = 0
    · rw [if_pos hs, hs, hdead.stops hK]
      rfl
    · rw [if_neg hs, List.take_zero, List.reverse_nil, stops_end, acceptsBefore_low]
      by_cases hacc : t.acceptsAtLow data lo s = true
      · rw [if_pos hacc, if_pos hacc, List.map_cons, Nat.sub_sub_self hhi]
        rfl
      · rw [if_neg hacc, if_neg hacc]
        rfl
  | succ n ih =>
    unfold reverseFrom
    by_cases hs : s = 0
    · rw [if_pos hs, hs, hdead.stops hK]
      rfl
    · rw [if_neg hs, reverse_take_succ (by omega), stops_byte, List.map_append,
        List.getLast?_append, Option.or_assoc, ih _ (by omega),
        show hi - (lo + n) = hi - (lo + (n + 1)) + 1 by omega]
      congr 1
      by_cases hacc : (t.accept s).before (data.getD (lo + n) 0) = true
      · rw [if_pos hacc, if_pos hacc, List.map_cons, Nat.sub_sub_self hhi]
        rfl
      · rw [if_neg hacc, if_neg hacc]
        rfl

/-! ## Whole scans -/

theorem forwardStart_eq (t : Table) (data : Bytes) (start : Nat) :
    t.forwardStart data start = t.machine.first t.reading data start := rfl

theorem reverseStart_eq {hi : Nat} (h : hi ≤ data.size) :
    t.reverseStart data hi = t.machine.enter t.reading data[hi]? := by
  unfold reverseStart
  by_cases heq : hi = data.size
  · rw [if_pos heq, Array.getElem?_eq_none (Nat.le_of_eq heq.symm)]
    rfl
  · rw [if_neg heq, Array.getD_eq_getD_getElem?,
      Array.getElem?_eq_getElem (Nat.lt_of_le_of_ne h heq)]
    rfl

theorem scanForward_eq_head? (hK : t.reading.Below k) (hdead : t.machine.Quiet k 0) {start : Nat}
    (hstart : start ≤ data.size) :
    t.scanForward data start true = (t.machine.forwardStops t.reading data start).head? := by
  unfold scanForward
  rw [forwardFrom_eq_head? hK hdead hstart, forwardStart_eq, first_eq_enter]
  rfl

theorem scanForward_eq_getLast? (hK : t.reading.Below k) (hdead : t.machine.Quiet k 0) {start : Nat}
    (hstart : start ≤ data.size) :
    t.scanForward data start false = (t.machine.forwardStops t.reading data start).getLast? := by
  unfold scanForward
  rw [forwardFrom_eq_getLast? hK hdead hstart, forwardStart_eq, first_eq_enter,
    Option.or_none]
  rfl

theorem scanReverse_eq_getLast? (hK : t.reading.Below k) (hdead : t.machine.Quiet k 0) {lo hi : Nat}
    (hlo : lo ≤ hi) (hsize : hi ≤ data.size) :
    t.scanReverse data lo hi = (t.machine.reverseStops t.reading data lo hi).getLast? := by
  have hsum : lo + (hi - lo) = hi := by omega
  unfold scanReverse
  rw [reverseFrom_eq_getLast? hK hdead none (Nat.le_of_eq hsum) hsize, reverseStart_eq hsize,
    Option.or_none, hsum, Nat.sub_self]
  rfl

/-! ## Places -/

/-- A scan for the shortest match finds the first place before which the automaton accepts. -/
theorem scanForward_shortest (hK : t.reading.Below k) (hdead : t.machine.Quiet k 0)
    {start : Nat} (hstart : start ≤ data.size) :
    Leftmost (t.machine.AcceptsAt t.reading data start) start data.size
      (t.scanForward data start true) := by
  rw [scanForward_eq_head? hK hdead hstart]
  exact (t.machine.forwardStops_spec t.reading hstart).1

/-- A scan for the preferred match finds the last place before which the automaton accepts. -/
theorem scanForward_longest (hK : t.reading.Below k) (hdead : t.machine.Quiet k 0)
    {start : Nat} (hstart : start ≤ data.size) :
    Rightmost (t.machine.AcceptsAt t.reading data start) start data.size
      (t.scanForward data start false) := by
  rw [scanForward_eq_getLast? hK hdead hstart]
  exact (t.machine.forwardStops_spec t.reading hstart).2

/-- A reverse scan finds the least place behind which the automaton accepts on the way back. -/
theorem scanReverse_spec (hK : t.reading.Below k) (hdead : t.machine.Quiet k 0) {lo hi : Nat}
    (hlo : lo ≤ hi) (hsize : hi ≤ data.size) :
    Leftmost (fun j => t.machine.AcceptsAt t.reading data.reverse (data.size - hi) (data.size - j))
      lo hi (t.scanReverse data lo hi) := by
  rw [scanReverse_eq_getLast? hK hdead hlo hsize]
  exact t.machine.reverseStops_spec t.reading hlo hsize

/-! ## Bounds

They hold for every table, even for one whose dead state accepts. -/

theorem forwardFrom_bounds {shortest : Bool} {s i e : Nat} {found : Option Nat}
    (hi : i ≤ data.size) (h : t.forwardFrom data shortest s i found = some e) :
    found = some e ∨ i ≤ e ∧ e ≤ data.size := by
  fun_induction forwardFrom t data shortest s i found with
  | case1 i found => exact Or.inl h
  | case2 s i found _ hlt c here hacc =>
    obtain rfl := Option.some.inj h
    exact Or.inr ⟨Nat.le_refl i, hi⟩
  | case3 s i found _ hlt c here hacc ih =>
    rcases ih hlt h with h1 | h1
    · split at h1
      · obtain rfl := Option.some.inj h1
        exact Or.inr ⟨Nat.le_refl i, hi⟩
      · exact Or.inl h1
    · exact Or.inr ⟨Nat.le_of_succ_le h1.1, h1.2⟩
  | case4 s i found _ hlt hany =>
    obtain rfl := Option.some.inj h
    exact Or.inr ⟨hi, Nat.le_refl _⟩
  | case5 s i found _ hlt hany => exact Or.inl h

theorem scanForward_bounds {start e : Nat} {shortest : Bool} (hstart : start ≤ data.size)
    (h : t.scanForward data start shortest = some e) : start ≤ e ∧ e ≤ data.size := by
  rcases forwardFrom_bounds hstart h with h1 | h1
  · cases h1
  · exact h1

theorem reverseFrom_bounds {lo n s e : Nat} {found : Option Nat}
    (h : t.reverseFrom data lo n s found = some e) : found = some e ∨ lo ≤ e ∧ e ≤ lo + n := by
  induction n generalizing s found with
  | zero =>
    unfold reverseFrom at h
    split at h
    · exact Or.inl h
    · split at h
      · obtain rfl := Option.some.inj h
        exact Or.inr ⟨Nat.le_refl _, Nat.le_refl _⟩
      · exact Or.inl h
  | succ n ih =>
    unfold reverseFrom at h
    split at h
    · exact Or.inl h
    · rcases ih h with h1 | h1
      · split at h1
        · obtain rfl := Option.some.inj h1
          exact Or.inr ⟨by omega, by omega⟩
        · exact Or.inl h1
      · exact Or.inr ⟨h1.1, by omega⟩

theorem scanReverse_bounds {lo hi e : Nat} (hlo : lo ≤ hi)
    (h : t.scanReverse data lo hi = some e) : lo ≤ e ∧ e ≤ hi := by
  rcases reverseFrom_bounds h with h1 | h1
  · cases h1
  · omega

end ByteRegex.Table
