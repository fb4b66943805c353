-- A walk over a tree puts one fragment on the stack for each node, and leaves
-- what is below as it was. So what a walk builds is given by recursion on the
-- tree alone, without a stack.
import ByteRegex.Proofs.Matches
import ByteRegex.Proofs.Nfa.Build

namespace ByteRegex.Nfa

variable {limit : Nat} {alpha : Alphabet}

/-! ## The fragments of nodes -/

mutual

/-- The fragment of a pattern. -/
def fragment (limit : Nat) (alpha : Alphabet) : Pattern → Build Fragment
  | .chars loc ranges negated =>
    charsFragment limit alpha (Pattern.charSet? loc ranges negated)
  | .bytes loc ranges => bytesFragment limit (Pattern.byteSet? loc ranges)
  | .seq _ parts => do seqFragment limit (← fragments limit alpha parts)
  | .alt _ parts => do altFragment limit (← fragments limit alpha parts)
  | .rep _ body min max greedy => do
    let first ← fragment limit alpha body
    repeatFragment limit (fragment limit alpha body) first min max greedy
  | .anchor _ atEnd => anchorFragment limit atEnd
  | .wordEdge _ negated => wordEdgeFragment limit negated
  | .empty _ => emptyFragment limit
  | .backref loc group => throw (.unsupported (Pattern.Construct.backref group).family loc)
  | .around loc _ behind negated =>
    throw (.unsupported (Pattern.Construct.around behind negated).family loc)

def fragments (limit : Nat) (alpha : Alphabet) : List Pattern → Build (List Fragment)
  | [] => pure []
  | p :: ps => do
    let f ← fragment limit alpha p
    let fs ← fragments limit alpha ps
    return f :: fs

end

/-! ## Copies without a stack

A step that leaves the stack alone can be done before the stack comes in. -/

theorem chain_lift (copy : Build Fragment) (n : Nat) (f : Fragment) :
    (liftM (chain copy n f) : Visit Fragment) = chain (liftM copy) n f := by
  induction n generalizing f with
  | zero => exact monadLift_pure f
  | succ n ih =>
    simp only [chain, monadLift_bind, ih]
    rfl

theorem optionalCopies_lift (greedy : Bool) (copy : Build Fragment) (stop n cur : Nat) :
    (liftM (optionalCopies greedy copy stop n cur) : Visit Nat) =
      optionalCopies greedy (liftM copy) stop n cur := by
  induction n generalizing cur with
  | zero => exact monadLift_pure cur
  | succ n ih =>
    simp only [optionalCopies, monadLift_bind, ih]
    rfl

theorem repeatFragment_lift (copy : Build Fragment) (first : Fragment) (min : Nat)
    (max : Option Nat) (greedy : Bool) :
    (liftM (repeatFragment limit copy first min max greedy) : Visit Fragment) =
      repeatFragment limit (liftM copy) first min max greedy := by
  match min, max with
  | 0, none =>
    simp only [repeatFragment, liftM_bind, liftM_pure]
    rfl
  | m + 1, none =>
    simp only [repeatFragment, liftM_bind, liftM_pure, chain_lift]
    rfl
  | 0, some 0 =>
    simp only [repeatFragment, liftM_bind, liftM_pure]
    rfl
  | 0, some (n + 1) =>
    simp only [repeatFragment, liftM_bind, liftM_pure, optionalCopies_lift]
    rfl
  | m + 1, some n =>
    by_cases hn : n ≤ m + 1
    · simp only [repeatFragment, liftM_bind, liftM_pure, chain_lift, if_pos hn]
      rfl
    · simp only [repeatFragment, liftM_bind, liftM_pure, chain_lift, optionalCopies_lift, if_neg hn]
      rfl

/-! ## Walks -/

section Walks

variable {α : Type} {stack : List Fragment}

/-- There are as many fragments as patterns, and what comes behind may count on that. -/
theorem fragments_bind_congr {ps : List Pattern} {g g' : List Fragment → Build α}
    (h : ∀ fs, fs.length = ps.length → g fs = g' fs) :
    fragments limit alpha ps >>= g = fragments limit alpha ps >>= g' := by
  induction ps generalizing g g' with
  | nil =>
    simp only [fragments, pure_bind]
    exact h [] rfl
  | cons p ps ih =>
    simp only [fragments, bind_assoc, pure_bind]
    congr 1
    funext f
    exact ih fun fs hfs => h (f :: fs) (congrArg (· + 1) hfs)

theorem run_push_lift (x : Build Fragment) :
    (do push (← x) : Visit Unit).run stack = (fun f => ((), f :: stack)) <$> x := by
  simp [push]

theorem run_visitAll {ps : List Pattern} (hps : ∀ p ∈ ps, ∀ stack,
      (visit limit alpha p).run stack = (fun f => ((), f :: stack)) <$> fragment limit alpha p) :
    (visitAll limit alpha ps).run stack =
      (fun fs => ((), fs.reverse ++ stack)) <$> fragments limit alpha ps := by
  induction ps generalizing stack with
  | nil => simp [visitAll, fragments]
  | cons p ps ih =>
    have hrest : ∀ stack, (visitAll limit alpha ps).run stack =
        (fun fs => ((), fs.reverse ++ stack)) <$> fragments limit alpha ps :=
      fun _ => ih fun q hq => hps q (List.mem_cons_of_mem p hq)
    simp [visitAll, fragments, hps p List.mem_cons_self, hrest]

/-- What the walk over a list of patterns puts on the stack is taken again for the node around. -/
theorem run_visitAll_node {ps : List Pattern} (node : List Fragment → Build Fragment)
    (hps : ∀ p ∈ ps, ∀ stack,
      (visit limit alpha p).run stack = (fun f => ((), f :: stack)) <$> fragment limit alpha p) :
    (do visitAll limit alpha ps; push (← node (← popMany ps.length)) : Visit Unit).run stack =
      (fun f => ((), f :: stack)) <$> (fragments limit alpha ps >>= node) := by
  rw [StateT.run_bind, run_visitAll hps, bind_map_left, map_bind]
  refine fragments_bind_congr fun fs hfs => ?_
  rw [← hfs]
  simp [popMany, push]

/-- A walk over a pattern puts the fragment of the pattern on the stack, and nothing else. -/
theorem run_visit (p : Pattern) :
    (visit limit alpha p).run stack = (fun f => ((), f :: stack)) <$> fragment limit alpha p := by
  induction p using Pattern.induction generalizing stack with
  | chars loc ranges negated => exact run_push_lift _
  | bytes loc ranges => exact run_push_lift _
  | seq loc parts ih => exact run_visitAll_node (seqFragment limit) fun p hp _ => ih p hp
  | alt loc parts ih => exact run_visitAll_node (altFragment limit) fun p hp _ => ih p hp
  | rep loc body min max greedy ih =>
    have hcopy : (do visit limit alpha body; pop : Visit Fragment) =
        liftM (fragment limit alpha body) := by
      ext stack
      simp [ih, pop]
    -- the first copy is taken from the stack like the others
    have hrun : visit limit alpha (.rep loc body min max greedy) =
        (do push (← (fragment limit alpha (.rep loc body min max greedy) : Build Fragment))) := by
      simp only [visit, fragment, hcopy, ← repeatFragment_lift, liftM_bind, bind_assoc]
      rw [← bind_assoc, hcopy]
    rw [hrun]
    exact run_push_lift _
  | anchor loc atEnd => exact run_push_lift _
  | wordEdge loc negated => exact run_push_lift _
  | empty loc => exact run_push_lift _
  | backref loc group => rfl
  | around loc body behind negated => rfl

end Walks

section Stack

variable {stack stack' : List Fragment} {a a' : Arena}

theorem run_ok {β : Type} {x : Visit Unit} {y : Build β} {g : β → List Fragment}
    (hrun : x.run stack = (fun b => ((), g b)) <$> y) (h : x stack a = .ok (((), stack'), a')) :
    ∃ b, stack' = g b ∧ y a = .ok (b, a') := by
  rw [map_eq_pure_bind] at hrun
  obtain ⟨b, a1, hb, hpure⟩ := Build.bind_ok ((congrFun hrun a).symm.trans h)
  obtain ⟨hstack, rfl⟩ := Build.pure_ok hpure
  exact ⟨b, congrArg Prod.snd hstack, hb⟩

/-- Where a walk gets to its end, the fragment that it has built is on top of the stack. -/
theorem visit_ok {p : Pattern} (h : visit limit alpha p stack a = .ok (((), stack'), a')) :
    ∃ f, stack' = f :: stack ∧ fragment limit alpha p a = .ok (f, a') :=
  run_ok (run_visit p) h

theorem visitAll_ok {ps : List Pattern}
    (h : visitAll limit alpha ps stack a = .ok (((), stack'), a')) :
    ∃ fs, stack' = fs.reverse ++ stack ∧ fragments limit alpha ps a = .ok (fs, a') :=
  run_ok (run_visitAll fun p _ _ => run_visit p) h

end Stack

/-- A walk over a whole tree builds the fragment of the tree. -/
theorem visitRoot_eq (p : Pattern) : visitRoot limit alpha p = fragment limit alpha p := by
  simp [visitRoot, run_visit, pop]

/-- The automaton of a pattern, without a stack. -/
theorem ofPattern_eq (p : Pattern) (alpha : Alphabet) (limit : Nat) :
    ofPattern p alpha limit = ofBuild #[] (do close limit (← fragment limit alpha p)) := by
  rw [ofPattern, visitRoot_eq]

end ByteRegex.Nfa
