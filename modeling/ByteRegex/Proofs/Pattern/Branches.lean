-- An alternation that was read has branches. The reader makes an alternation
-- only at a bar, so it holds at least the branches on both sides.
import ByteRegex.Proofs.Pattern.Places

namespace ByteRegex.Pattern

/-- Every alternation of the tree has a branch. -/
def Branching (p : Pattern) : Prop := p.AllNodes HasBranches

variable {p : Pattern}

theorem branching_leaf (hnodes : p.nodes = [p]) (h : p.HasBranches) : p.Branching := by
  intro n hn
  rw [hnodes, List.mem_singleton] at hn
  exact hn ▸ h

/-- What a level holds. -/
structure Level.Holds (l : Level) : Prop where
  branches : ∀ p ∈ l.branches, p.Branching
  items : ∀ item ∈ l.items, item.2.Branching

namespace Level.Holds

variable {l : Level} {pos : Nat}

theorem begin (pos : Nat) : (Level.begin pos).Holds := ⟨nofun, nofun⟩

theorem branch (h : l.Holds) : l.branch.Branching := by
  refine allNodes_seq.2 ⟨trivial, fun p hp => ?_⟩
  simp only [List.map_reverse, List.mem_reverse, List.mem_map] at hp
  obtain ⟨item, hitem, rfl⟩ := hp
  exact h.items item hitem

theorem node (h : l.Holds) : l.node.Branching := by
  unfold Level.node
  split
  · exact h.branch
  · refine allNodes_alt.2 ⟨by simp [HasBranches], fun p hp => ?_⟩
    rcases List.mem_cons.1 (List.mem_reverse.1 hp) with rfl | hp
    · exact h.branch
    · exact h.branches p hp

theorem push (h : l.Holds) (hp : p.Branching) : (l.push pos p).Holds := by
  refine ⟨h.branches, fun item hitem => ?_⟩
  rcases List.mem_cons.1 hitem with rfl | hitem
  · exact hp
  · exact h.items item hitem

theorem repeatLast (h : l.Holds) (min : Nat) (max : Option Nat) (greedy : Bool) :
    (l.repeatLast min max greedy).Holds := by
  unfold Level.repeatLast
  split
  next => exact h
  next i p items heq =>
    have hitems := h.items
    rw [heq] at hitems
    refine ⟨h.branches, fun item hitem => ?_⟩
    rcases List.mem_cons.1 hitem with rfl | hitem
    · exact allNodes_rep.2 ⟨trivial, hitems _ List.mem_cons_self⟩
    · exact hitems item (List.mem_cons_of_mem _ hitem)

theorem nextBranch (h : l.Holds) : (l.nextBranch pos).Holds := by
  refine ⟨fun p hp => ?_, nofun⟩
  rcases List.mem_cons.1 hp with rfl | hp
  · exact h.branch
  · exact h.branches p hp

end Level.Holds

/-- What the reader holds. -/
structure ParseState.Holds (s : ParseState) : Prop where
  level : s.level.Holds
  groups : ∀ g ∈ s.groups, g.outer.Holds

theorem branching_group {pos : Nat} (group : Group) (h : p.Branching) :
    (group.node pos p).Branching := by
  cases group with
  | plain => exact h
  | around behind negated =>
    intro n hn
    rcases List.mem_cons.1 hn with rfl | hn
    · trivial
    · exact h n hn

namespace ParseState.Holds

variable {s s' : ParseState} {pos next : Nat} {t : Token}

theorem step (h : s.Holds) (hleaf : ∀ p, t = .leaf p → p.Branching)
    (hstep : s.step pos t next = .ok s') : s'.Holds := by
  cases t with
  | leaf p =>
    cases hstep
    exact ⟨h.level.push (hleaf p rfl), h.groups⟩
  | quantifier min max greedy =>
    cases hstep
    exact ⟨h.level.repeatLast min max greedy, h.groups⟩
  | bar =>
    cases hstep
    exact ⟨h.level.nextBranch, h.groups⟩
  | opening group =>
    cases hstep
    refine ⟨Level.Holds.begin next, fun g hg => ?_⟩
    rcases List.mem_cons.1 hg with rfl | hg
    · exact h.level
    · exact h.groups g hg
  | closing =>
    obtain ⟨level, groups⟩ := s
    cases groups with
    | nil => cases hstep
    | cons g groups =>
      cases hstep
      exact ⟨(h.groups g List.mem_cons_self).push (branching_group g.group h.level.node),
        fun g' hg' => h.groups g' (List.mem_cons_of_mem g hg')⟩

theorem run {c : Cursor} (h : s.Holds) (hrun : s.run c = .ok p) : p.Branching := by
  fun_induction ParseState.run s c with
  | case1 s c =>
    cases hrun
    exact h.level.node
  | case2 => cases hrun
  | case3 => cases hrun
  | case4 => cases hrun
  | case5 s c b bs _ t d htoken _ s' hstep ih =>
    refine ih (h.step (fun q hq => ?_) hstep) hrun
    obtain ⟨hnodes, _, hbranches⟩ := token_leaf _ _ _ _ q d (hq ▸ htoken)
    exact branching_leaf hnodes hbranches

end ParseState.Holds

/-- A tree that was read has no alternation without branches. -/
theorem branching_of_parse {text : List UInt8} (h : parse text = .ok p) : p.Branching :=
  ParseState.Holds.run (s := ⟨.begin 0, []⟩) ⟨Level.Holds.begin 0, nofun⟩ h

end ByteRegex.Pattern
