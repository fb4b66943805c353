-- Ascending lists of numbers without repetition.
namespace ByteRegex

/-- Drops each number that equals the one before it. -/
def dropRepeats : List Nat → List Nat
  | [] => []
  | [n] => [n]
  | n :: m :: rest => if n = m then dropRepeats (m :: rest) else n :: dropRepeats (m :: rest)

/-- The members of a list in ascending order, each of them once. -/
def sortUnique (l : List Nat) : List Nat := dropRepeats (l.mergeSort (· ≤ ·))

theorem mem_dropRepeats {a : Nat} {l : List Nat} : a ∈ dropRepeats l ↔ a ∈ l := by
  fun_induction dropRepeats l with
  | case1 => rfl
  | case2 => rfl
  | case3 n rest ih => simp [ih]
  | case4 n m rest _ ih => rw [List.mem_cons, ih, List.mem_cons (b := n)]

theorem mem_sortUnique {a : Nat} {l : List Nat} : a ∈ sortUnique l ↔ a ∈ l := by
  simp [sortUnique, mem_dropRepeats]

theorem pairwise_dropRepeats {l : List Nat} (h : l.Pairwise (· ≤ ·)) :
    (dropRepeats l).Pairwise (· < ·) := by
  fun_induction dropRepeats l with
  | case1 => exact .nil
  | case2 n => exact List.pairwise_singleton _ n
  | case3 n rest ih => exact ih (List.pairwise_cons.1 h).2
  | case4 n m rest hne ih =>
    obtain ⟨hn, hrest⟩ := List.pairwise_cons.1 h
    refine List.pairwise_cons.2 ⟨fun x hx => ?_, ih hrest⟩
    rw [mem_dropRepeats] at hx
    have hm := hn m List.mem_cons_self
    rcases List.mem_cons.1 hx with rfl | hx
    · omega
    · have := (List.pairwise_cons.1 hrest).1 x hx
      omega

theorem pairwise_sortUnique (l : List Nat) : (sortUnique l).Pairwise (· < ·) := by
  have hsorted : (l.mergeSort (· ≤ ·)).Pairwise fun a b => decide (a ≤ b) = true :=
    List.pairwise_mergeSort (by simp only [decide_eq_true_eq]; omega)
      (by simp only [Bool.or_eq_true, decide_eq_true_eq]; omega) l
  exact pairwise_dropRepeats (hsorted.imp fun h => of_decide_eq_true h)

/-- A set of numbers: its members in ascending order. -/
structure KeySet where
  keys : List Nat
  ascending : keys.Pairwise (· < ·)

namespace KeySet

/-- The numbers in a list, as a set. -/
def ofList (l : List Nat) : KeySet := ⟨sortUnique l, pairwise_sortUnique l⟩

def contains (s : KeySet) (n : Nat) : Bool := s.keys.contains n

theorem contains_iff {s : KeySet} {n : Nat} : s.contains n = true ↔ n ∈ s.keys :=
  List.contains_iff_mem

theorem contains_ofList {l : List Nat} {n : Nat} : (ofList l).contains n = true ↔ n ∈ l := by
  rw [contains_iff, ofList, mem_sortUnique]

end KeySet

end ByteRegex
