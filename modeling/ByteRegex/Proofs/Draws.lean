-- What draws can give: a number stays in its range, and what is picked from a
-- list is on the list.
import ByteRegex.Draws

namespace ByteRegex.Draws

theorem between_bounds {lo hi : Nat} (h : lo ≤ hi) (d : Draws) :
    lo ≤ (between lo hi d).1 ∧ (between lo hi d).1 ≤ hi := by
  unfold between
  split
  · exact ⟨Nat.le_refl lo, h⟩
  · have hlt := Nat.mod_lt (d.script.getD d.pos 0) (show 0 < hi - lo + 1 by omega)
    dsimp only
    omega

/-- The rank of one of `n` things. -/
theorem between_lt {n : Nat} (hn : 0 < n) (d : Draws) : (between 0 (n - 1) d).1 < n := by
  have hle := (between_bounds (Nat.zero_le (n - 1)) d).2
  omega

theorem pick_mem {α : Type} {default : α} {l : List α} (hne : l ≠ []) (d : Draws) :
    (pick default l d).1 ∈ l := by
  have hlt := between_lt (List.length_pos_iff.2 hne) d
  have hpick : (pick default l d).1 = l.getD (between 0 (l.length - 1) d).1 default := rfl
  rw [hpick, List.getD_eq_getElem?_getD, List.getElem?_eq_getElem hlt]
  exact List.getElem_mem hlt

end ByteRegex.Draws
