-- The language of the automaton of a pattern: its paths lead from one place of
-- a text to another just where the text between them matches.
import ByteRegex.Proofs.Alphabet
import ByteRegex.Proofs.Nfa.Closed

namespace ByteRegex

namespace Nfa

variable {p : Pattern} {n : Nfa} {data : Bytes}

/-- The automaton of a pattern has one state that accepts. The paths to it from the anchored start
take just the matches, and those from the floating start the matches that start at the place or
later. -/
theorem ofPattern_exact {alpha : Alphabet} {limit : Nat} (ha : Alphabet.ofPattern p = .ok alpha)
    (hn : ofPattern p alpha limit = .ok n) :
    ∃ goal, (∀ t, n.Accepting t ↔ t = goal) ∧
      ∀ (data : Bytes) (i j : Nat), i ≤ j → j ≤ data.size →
        (n.Steps data (n.anchored, i) (goal, j) ↔ Matches data p i j) ∧
          (n.Steps data (n.floating, i) (goal, j) ↔ ∃ s, i ≤ s ∧ s ≤ j ∧ Matches data p s j) := by
  unfold Alphabet.ofPattern at ha
  split at ha
  · cases ha
  · rename_i hcheck
    obtain rfl := Except.ok.inj ha
    have hranged := Pattern.ranged_of_checkRanges hcheck
    obtain ⟨out, goal, skipping, h⟩ := ofPattern_closed (Alphabet.build_fits hranged) hranged hn
    have hgoal : ∀ t, n.Accepting t ↔ t = goal := by
      intro t
      refine ⟨h.accepting t, ?_⟩
      rintro rfl
      exact h.accepting_goal
    refine ⟨goal, hgoal, fun data i j hij hj => ⟨?_, ?_⟩⟩
    · rw [steps_iff_reaches hgoal]
      exact h.reaches_anchored
    · rw [steps_iff_reaches hgoal, h.reaches_floating (Nat.le_trans hij hj)]
      constructor
      · rintro ⟨s, hs, _, hm⟩
        exact ⟨s, hs, hm.le, hm⟩
      · rintro ⟨s, hs, hsj, hm⟩
        exact ⟨s, hs, Nat.le_trans hsj hj, hm⟩

end Nfa

/-! ## The end of a word -/

/-- The pattern `a`. -/
def letter : Pattern := .bytes none [(97, 97)]

/-- The pattern `(a|){1,2}?\b`. -/
def lastLetters : Pattern :=
  .seq none [.rep none (.alt none [letter, .empty none]) 1 (some 2) false, .wordEdge none false]

theorem fragment_letter {limit : Nat} {alpha : Alphabet} :
    Nfa.fragment limit alpha letter = Nfa.edgeFragment limit (.bytes 97 97) :=
  Nfa.fragment_bytes (s := Pattern.byteSet [(97, 97)]) rfl (by decide +kernel)

theorem exists_ofPattern_lastLetters (alpha : Alphabet) :
    ∃ n, Nfa.ofPattern lastLetters alpha 100 = .ok n := by
  simp only [Nfa.ofPattern_eq, lastLetters, Nfa.fragment, Nfa.fragments, fragment_letter]
  exact ⟨_, rfl⟩

theorem matches_lastLetters : Matches #[97, 97] lastLetters 0 2 := by
  have hletter : ∀ i < 2, MatchesAlt #[97, 97] [letter, .empty none] i (i + 1) := by
    intro i hi
    refine Or.inl ⟨97, ?_, by decide, rfl⟩
    have hall : ∀ i < 2, (#[97, 97] : Bytes)[i]? = some 97 := by decide
    exact hall i hi
  refine ⟨2, ⟨2, by decide, by simp, ?_⟩, 2, ⟨by decide, rfl⟩, rfl⟩
  exact ⟨1, hletter 0 (by decide), 2, hletter 1 (by decide), rfl⟩

/-- No word ends between two letters. -/
theorem not_matches_lastLetters : ¬ Matches #[97, 97] lastLetters 0 1 := by
  rintro ⟨m, _, _, ⟨hedge, rfl⟩, rfl⟩
  revert hedge
  decide

theorem ofPattern_exact_lastLetters :
    ∃ n goal, Nfa.ofPattern lastLetters (Alphabet.build lastLetters) 100 = .ok n ∧
      n.Accepting goal ∧ n.Steps #[97, 97] (n.anchored, 0) (goal, 2) ∧
      ¬ n.Steps #[97, 97] (n.anchored, 0) (goal, 1) ∧
      n.Steps #[97, 97] (n.floating, 0) (goal, 2) := by
  obtain ⟨n, hn⟩ := exists_ofPattern_lastLetters (Alphabet.build lastLetters)
  obtain ⟨goal, hgoal, h⟩ := Nfa.ofPattern_exact rfl hn
  refine ⟨n, goal, hn, (hgoal goal).2 rfl, ?_, ?_, ?_⟩
  · exact (h #[97, 97] 0 2 (by decide) (by decide)).1.2 matches_lastLetters
  · intro hsteps
    exact not_matches_lastLetters ((h #[97, 97] 0 1 (by decide) (by decide)).1.1 hsteps)
  · exact
      (h #[97, 97] 0 2 (by decide) (by decide)).2.2 ⟨0, by decide, by decide, matches_lastLetters⟩

end ByteRegex
