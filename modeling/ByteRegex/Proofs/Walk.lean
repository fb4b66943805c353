-- The laws of a walk. A walk over a stack is a relation between the order so
-- far and the order at the end, so that a stack can be cut in two: the walk
-- over the front, and then the walk over the rest.
import ByteRegex.Walk
import Mathlib.Logic.Relation
import Mathlib.Tactic.Common

namespace ByteRegex.Walk

open Relation (ReflTransGen)

variable {succ : Nat → List Nat} {stop : Nat → Bool} {bound : Nat}

/-- `v` can be reached from `u`. -/
def Reach (succ : Nat → List Nat) : Nat → Nat → Prop := ReflTransGen fun u v => v ∈ succ u

theorem Reach.refl (u : Nat) : Reach succ u u := ReflTransGen.refl

theorem Reach.head {u v w : Nat} (h : v ∈ succ u) (hw : Reach succ v w) : Reach succ u w :=
  ReflTransGen.head h hw

theorem Reach.tail {u v w : Nat} (h : Reach succ u v) (hw : w ∈ succ v) : Reach succ u w :=
  ReflTransGen.tail h hw

theorem Reach.trans {u v w : Nat} (h : Reach succ u v) (hw : Reach succ v w) : Reach succ u w :=
  ReflTransGen.trans h hw

/-- No way leads out of a list that holds all that follows its members. -/
theorem Reach.mem {l : List Nat} {u v : Nat} (h : Reach succ u v) (hu : u ∈ l)
    (hl : ∀ x ∈ l, ∀ y ∈ succ x, y ∈ l) : v ∈ l := by
  induction h with
  | refl => exact hu
  | tail _ hw ih => exact hl _ ih _ hw

/-- Nothing else reaches a node to which no edge leads. -/
theorem Reach.not_of_no_edge {v x : Nat} (hv : ∀ w, v ∉ succ w) (hx : x ≠ v) :
    ¬ Reach succ x v := by
  intro h
  rcases ReflTransGen.cases_tail h with heq | ⟨w, _, hw⟩
  · exact hx heq.symm
  · exact hv w hw

/-! ## The walk as a relation -/

/-- A walk over a stack leads from one order to another. The last part says
whether it met a node where it stops. -/
inductive Visits (succ : Nat → List Nat) (stop : Nat → Bool) (bound : Nat) :
    List Nat → List Nat → List Nat → Bool → Prop
  | nil {o : List Nat} : Visits succ stop bound [] o o false
  | skip {v : Nat} {rest o o' : List Nat} {b : Bool} :
      (v < bound → v ∈ o) → Visits succ stop bound rest o o' b →
      Visits succ stop bound (v :: rest) o o' b
  | halt {v : Nat} {rest o : List Nat} :
      v < bound → v ∉ o → stop v = true → Visits succ stop bound (v :: rest) o (o ++ [v]) true
  | enter {v : Nat} {rest o o' : List Nat} {b : Bool} :
      v < bound → v ∉ o → stop v = false →
      Visits succ stop bound (succ v ++ rest) (o ++ [v]) o' b →
      Visits succ stop bound (v :: rest) o o' b

theorem visit_visits (stack : List Nat) (seen : Std.HashSet Nat) (order : Array Nat)
    (hs : ∀ v, seen.contains v = true ↔ v ∈ order.toList) :
    ∃ b, Visits succ stop bound stack order.toList
      (visit succ stop bound stack seen order).toList b := by
  fun_induction visit succ stop bound stack seen order with
  | case1 seen order => exact ⟨false, .nil⟩
  | case2 seen order v rest h hstop =>
    refine ⟨true, ?_⟩
    rw [Array.toList_push]
    refine .halt h.1 ?_ hstop
    rw [← hs, h.2]
    simp
  | case3 seen order v rest h hstop _ ih =>
    have hv : v ∉ order.toList := by
      rw [← hs, h.2]
      simp
    obtain ⟨b, hb⟩ := ih (by
      intro w
      rw [Std.HashSet.contains_insert, Array.toList_push, List.mem_append, ← hs w]
      simp only [Bool.or_eq_true, beq_iff_eq, List.mem_singleton]
      exact or_comm.trans (or_congr Iff.rfl eq_comm))
    rw [Array.toList_push] at hb
    exact ⟨b, .enter h.1 hv (by simpa using hstop) hb⟩
  | case4 seen order v rest h ih =>
    obtain ⟨b, hb⟩ := ih hs
    refine ⟨b, .skip ?_ hb⟩
    intro hv
    rw [← hs]
    by_contra hc
    exact h ⟨hv, by simpa using hc⟩

theorem orderUntil_visits (succ : Nat → List Nat) (stop : Nat → Bool) (bound : Nat)
    (starts : List Nat) :
    ∃ b, Visits succ stop bound starts [] (orderUntil succ stop bound starts) b :=
  visit_visits starts ∅ #[] (by simp)

/-- A list with a member that counts has a first one. -/
theorem exists_first {G : Nat → Prop} {l : List Nat} (h : ∃ g ∈ l, G g) :
    ∃ l1 k l2, l = l1 ++ k :: l2 ∧ (∀ u ∈ l1, ¬ G u) ∧ G k := by
  induction l with
  | nil => simp at h
  | cons a l ih =>
    by_cases ha : G a
    · exact ⟨[], a, l, rfl, by simp, ha⟩
    · obtain ⟨l1, k, l2, rfl, h1, hk⟩ := ih (by simpa [ha] using h)
      exact ⟨a :: l1, k, l2, rfl, by simpa [ha] using h1, hk⟩

/-- A list is split in one way before the first member of a kind. -/
theorem split_unique {α : Type} {Q : α → Prop} {xs ys xs' ys' : List α} {y y' : α}
    (h : xs ++ y :: ys = xs' ++ y' :: ys') (hxs : ∀ z ∈ xs, ¬ Q z) (hxs' : ∀ z ∈ xs', ¬ Q z)
    (hy : Q y) (hy' : Q y') : y = y' := by
  induction xs generalizing xs' with
  | nil =>
    cases xs' with
    | nil => exact (List.cons.inj h).1
    | cons z zs => exact absurd ((List.cons.inj h).1 ▸ hy) (hxs' z List.mem_cons_self)
  | cons x xs ih =>
    cases xs' with
    | nil => exact absurd ((List.cons.inj h).1.symm ▸ hy') (hxs x List.mem_cons_self)
    | cons z zs =>
      exact ih (List.cons.inj h).2 (fun w hw => hxs w (List.mem_cons_of_mem _ hw))
        fun w hw => hxs' w (List.mem_cons_of_mem _ hw)

/-! ## What a walk adds -/

namespace Visits

variable {stack o o' : List Nat} {b : Bool}

theorem grows (h : Visits succ stop bound stack o o' b) : o <+: o' := by
  induction h with
  | nil => exact List.prefix_refl _
  | skip _ _ ih => exact ih
  | halt => exact List.prefix_append _ _
  | enter _ _ _ _ ih => exact (List.prefix_append _ _).trans ih

/-- All that is new can be reached from the stack. -/
theorem reached (h : Visits succ stop bound stack o o' b) {v : Nat} (hv : v ∈ o') :
    v ∈ o ∨ ∃ s ∈ stack, Reach succ s v := by
  induction h with
  | nil => exact Or.inl hv
  | skip _ _ ih =>
    rcases ih hv with h1 | ⟨s, hs, hr⟩
    · exact Or.inl h1
    · exact Or.inr ⟨s, List.mem_cons_of_mem _ hs, hr⟩
  | @halt u rest o _ _ _ =>
    rcases List.mem_append.1 hv with h1 | h1
    · exact Or.inl h1
    · rw [List.mem_singleton.1 h1]
      exact Or.inr ⟨u, List.mem_cons_self, Reach.refl u⟩
  | @enter u rest o o' b _ _ _ _ ih =>
    rcases ih hv with h1 | ⟨s, hs, hr⟩
    · rcases List.mem_append.1 h1 with h2 | h2
      · exact Or.inl h2
      · rw [List.mem_singleton.1 h2]
        exact Or.inr ⟨u, List.mem_cons_self, Reach.refl u⟩
    · rcases List.mem_append.1 hs with h2 | h2
      · exact Or.inr ⟨u, List.mem_cons_self, Reach.head h2 hr⟩
      · exact Or.inr ⟨s, List.mem_cons_of_mem _ h2, hr⟩

theorem nodup (h : Visits succ stop bound stack o o' b) (ho : o.Nodup) : o'.Nodup := by
  induction h with
  | nil => exact ho
  | skip _ _ ih => exact ih ho
  | halt _ hv _ => exact List.nodup_append.2 ⟨ho, by simp, by grind⟩
  | enter _ hv _ _ ih => exact ih (List.nodup_append.2 ⟨ho, by simp, by grind⟩)

/-- Nothing comes behind a node where the walk stops. -/
theorem pairwise (h : Visits succ stop bound stack o o' b) (ho : ∀ v ∈ o, stop v = false) :
    o'.Pairwise fun v _ => stop v = false := by
  induction h with
  | nil => exact List.pairwise_of_forall_mem_list fun v hv _ _ => ho v hv
  | skip _ _ ih => exact ih ho
  | halt =>
    refine List.pairwise_append.2 ⟨List.pairwise_of_forall_mem_list fun v hv _ _ => ho v hv,
      List.pairwise_singleton _ _, fun v hv _ _ => ho v hv⟩
  | @enter u rest o o' b _ _ hu _ ih =>
    refine ih fun v hv => ?_
    rcases List.mem_append.1 hv with hold | hnew
    · exact ho v hold
    · exact List.mem_singleton.1 hnew ▸ hu

/-- A walk that does not stop meets the whole stack. -/
theorem stack_mem (h : Visits succ stop bound stack o o' false) {v : Nat} (hv : v ∈ stack)
    (hb : v < bound) : v ∈ o' := by
  generalize hf : false = b at h
  induction h with
  | nil => cases hv
  | skip hs h ih =>
    rcases List.mem_cons.1 hv with rfl | h1
    · exact h.grows.subset (hs hb)
    · exact ih h1 hf
  | halt => cases hf
  | enter _ _ _ h ih =>
    rcases List.mem_cons.1 hv with rfl | h1
    · exact h.grows.subset (by simp)
    · exact ih (List.mem_append_right _ h1) hf

/-- A walk that does not stop meets all that follows what it adds. -/
theorem closed (h : Visits succ stop bound stack o o' false) {v w : Nat} (hv : v ∈ o')
    (hvo : v ∉ o) (hw : w ∈ succ v) (hb : w < bound) : w ∈ o' := by
  generalize hf : false = b at h
  induction h with
  | nil => exact absurd hv hvo
  | skip _ _ ih => exact ih hv hvo hf
  | halt => cases hf
  | @enter u rest o o' b _ _ _ h ih =>
    by_cases hvu : v = u
    · subst hvu
      subst hf
      exact h.stack_mem (List.mem_append_left _ hw) hb
    · exact ih hv (by simp [hvo, hvu]) hf

/-- A walk that stops does so at its last node, which is new. -/
theorem stopped (h : Visits succ stop bound stack o o' true) :
    ∃ o1 v, o' = o1 ++ [v] ∧ stop v = true ∧ v ∉ o1 ∧ o <+: o1 ∧
      ∀ w ∈ o1, w ∉ o → stop w = false := by
  generalize hf : true = b at h
  induction h with
  | nil => cases hf
  | skip _ _ ih => exact ih hf
  | @halt v rest o _ hv hs =>
    exact ⟨o, v, rfl, hs, hv, List.prefix_refl _, fun w hw hwo => absurd hw hwo⟩
  | @enter u rest o o' b _ hu hs _ ih =>
    obtain ⟨o1, v, he, hv, hvo, hp, hall⟩ := ih hf
    refine ⟨o1, v, he, hv, hvo, (List.prefix_append _ _).trans hp, ?_⟩
    intro w hw hwo
    by_cases hwu : w = u
    · exact hwu ▸ hs
    · exact hall w hw (by simp [hwo, hwu])

/-- A walk has one outcome. -/
theorem unique {o1 o2 : List Nat} {b1 b2 : Bool} (h1 : Visits succ stop bound stack o o1 b1)
    (h2 : Visits succ stop bound stack o o2 b2) : o1 = o2 ∧ b1 = b2 := by
  induction h1 generalizing o2 b2 with
  | nil => cases h2; exact ⟨rfl, rfl⟩
  | skip hs _ ih =>
    cases h2 with
    | skip _ h => exact ih h
    | halt hv hvo => exact absurd (hs hv) hvo
    | enter hv hvo => exact absurd (hs hv) hvo
  | halt hv hvo hst =>
    cases h2 with
    | skip hs => exact absurd (hs hv) hvo
    | halt => exact ⟨rfl, rfl⟩
    | enter _ _ hst' => rw [hst] at hst'; cases hst'
  | enter hv hvo hst _ ih =>
    cases h2 with
    | skip hs => exact absurd (hs hv) hvo
    | halt _ _ hst' => rw [hst] at hst'; cases hst'
    | enter _ _ _ h => exact ih h

end Visits

/-! ## The preferred way -/

/-- Some way from a node to a goal passes none of the nodes where `P` holds. -/
inductive Open (succ : Nat → List Nat) (G : Nat → Prop) (P : Nat → Prop) : Nat → Prop
  | goal {x : Nat} : ¬ P x → G x → Open succ G P x
  | step {x y : Nat} : ¬ P x → y ∈ succ x → Open succ G P y → Open succ G P x

/-- The most preferred of the ways from a node to a goal that never come back to a node, nor to
those where `P` holds, leads to the last one. -/
inductive Preferred (succ : Nat → List Nat) (G : Nat → Prop) : (Nat → Prop) → Nat → Nat → Prop
  | goal {P : Nat → Prop} {x : Nat} : ¬ P x → G x → Preferred succ G P x x
  | step {P : Nat → Prop} {x y k : Nat} {xs ys : List Nat} :
      ¬ P x → ¬ G x → succ x = xs ++ y :: ys → (∀ z ∈ xs, ¬ Open succ G (fun v => v = x ∨ P v) z) →
      Preferred succ G (fun v => v = x ∨ P v) y k → Preferred succ G P x k

variable {G P : Nat → Prop}

namespace Open

theorem fresh {x : Nat} (h : Open succ G P x) : ¬ P x := by
  cases h with
  | goal hp _ => exact hp
  | step hp _ _ => exact hp

/-- Only nodes that can be reached matter for what is passed. -/
theorem mono_reach {Q : Nat → Prop} {x : Nat} (h : Open succ G P x)
    (hQP : ∀ v, Reach succ x v → Q v → P v) : Open succ G Q x := by
  induction h with
  | goal hp hg => exact .goal (fun hq => hp (hQP _ (Reach.refl _) hq)) hg
  | step hp hy _ ih =>
    exact .step (fun hq => hp (hQP _ (Reach.refl _) hq)) hy
      (ih fun v hv => hQP v (Reach.head hy hv))

theorem mono {Q : Nat → Prop} {x : Nat} (h : Open succ G P x) (hQP : ∀ v, Q v → P v) :
    Open succ G Q x := h.mono_reach fun v _ => hQP v

theorem of_reach {x g : Nat} (h : Reach succ x g) (hg : G g) : Open succ G (fun _ => False) x := by
  induction h using ReflTransGen.head_induction_on with
  | refl => exact .goal id hg
  | head hv _ ih => exact .step id hv ih

theorem reach {x : Nat} (h : Open succ G P x) : ∃ g, Reach succ x g ∧ G g := by
  induction h with
  | goal _ hg => exact ⟨_, Reach.refl _, hg⟩
  | step _ hy _ ih =>
    obtain ⟨g, hr, hg⟩ := ih
    exact ⟨g, Reach.head hy hr, hg⟩

/-- Nodes beyond the bound lead nowhere. -/
theorem lt_bound {x : Nat} (h : Open succ G P x) (hout : ∀ v, bound ≤ v → succ v = [] ∧ ¬ G v) :
    x < bound := by
  refine Nat.lt_of_not_le fun hle => ?_
  obtain ⟨hsucc, hgoal⟩ := hout x hle
  cases h with
  | goal _ hg => exact hgoal hg
  | step _ hy _ =>
    rw [hsucc] at hy
    cases hy

/-- A way to a goal need not come back to where it starts. -/
theorem exists_step {x : Nat} (h : Open succ G P x) (hx : ¬ G x) :
    ∃ y ∈ succ x, Open succ G (fun v => v = x ∨ P v) y := by
  have key : ∀ z, Open succ G P z → Open succ G (fun v => v = x ∨ P v) z ∨
      ∃ y ∈ succ x, Open succ G (fun v => v = x ∨ P v) y := by
    intro z hz
    induction hz with
    | goal hp hg =>
      refine Or.inl (.goal ?_ hg)
      rintro (rfl | h)
      · exact hx hg
      · exact hp h
    | @step z w hp hw _ ih =>
      rcases ih with h1 | h1
      · by_cases hzx : z = x
        · exact Or.inr ⟨w, hzx ▸ hw, h1⟩
        · exact Or.inl (.step (not_or.2 ⟨hzx, hp⟩) hw h1)
      · exact Or.inr h1
  rcases key x h with h1 | h1
  · exact absurd (Or.inl rfl) h1.fresh
  · exact h1

/-- No way passes a node to which no edge leads, unless it starts there. -/
theorem avoid {Q : Nat → Prop} {v x : Nat} (h : Open succ G P x) (hv : ∀ w, v ∉ succ w)
    (hx : x ≠ v) (hQ : ∀ w, Q w ↔ w = v ∨ P w) : Open succ G Q x := by
  refine h.mono_reach fun w hw hq => ?_
  rcases (hQ w).1 hq with rfl | hp
  · exact absurd hw (Reach.not_of_no_edge hv hx)
  · exact hp

end Open

namespace Preferred

theorem open_start {x k : Nat} (h : Preferred succ G P x k) : Open succ G P x := by
  induction h with
  | goal hp hg => exact .goal hp hg
  | step hp _ hs _ _ ih =>
    exact .step hp (hs ▸ List.mem_append_right _ List.mem_cons_self) (ih.mono fun _ => Or.inr)

theorem goal_end {x k : Nat} (h : Preferred succ G P x k) : G k := by
  induction h with
  | goal _ hg => exact hg
  | step _ _ _ _ _ ih => exact ih

theorem reach {x k : Nat} (h : Preferred succ G P x k) : Reach succ x k := by
  induction h with
  | goal => exact Reach.refl _
  | step _ _ hs _ _ ih => exact Reach.head (hs ▸ List.mem_append_right _ List.mem_cons_self) ih

theorem unique {x k k' : Nat} (h : Preferred succ G P x k) (h' : Preferred succ G P x k') :
    k = k' := by
  induction h with
  | goal _ hg =>
    cases h' with
    | goal => rfl
    | step _ hng => exact absurd hg hng
  | step _ hng hs hxs hy ih =>
    cases h' with
    | goal _ hg => exact absurd hg hng
    | step _ _ hs' hxs' hy' =>
      obtain rfl := split_unique (hs.symm.trans hs') hxs hxs' hy.open_start hy'.open_start
      exact ih hy'

/-- Only nodes that can be reached matter for what is passed. -/
theorem congr_reach {Q : Nat → Prop} {x k : Nat} (h : Preferred succ G P x k)
    (hQ : ∀ w, Reach succ x w → (Q w ↔ P w)) : Preferred succ G Q x k := by
  induction h generalizing Q with
  | goal hp hg => exact .goal (fun hq => hp ((hQ _ (Reach.refl _)).1 hq)) hg
  | @step P x y k xs ys hp hg hs hxs _ ih =>
    have hnext : ∀ z ∈ xs ++ y :: ys, ∀ w, Reach succ z w → (w = x ∨ Q w ↔ w = x ∨ P w) :=
      fun z hz w hw => or_congr Iff.rfl (hQ w (Reach.head (hs ▸ hz) hw))
    refine .step (fun hq => hp ((hQ _ (Reach.refl _)).1 hq)) hg hs (fun z hz ho => hxs z hz ?_)
      (ih (hnext y (List.mem_append_right _ List.mem_cons_self)))
    exact ho.mono_reach fun w hw => (hnext z (List.mem_append_left _ hz) w hw).2

/-- A node to which no edge leads does not matter behind the start. -/
theorem forget {Q : Nat → Prop} {v x k : Nat} (h : Preferred succ G Q x k)
    (hv : ∀ w, v ∉ succ w) (hx : x ≠ v) (hQ : ∀ w, Q w ↔ w = v ∨ P w) : Preferred succ G P x k := by
  refine h.congr_reach fun w hw => ?_
  rw [hQ w]
  refine (or_iff_right ?_).symm
  rintro rfl
  exact Reach.not_of_no_edge hv hx hw

end Preferred

/-- What a walk has met is spent: there was no goal among it, and no way to a goal leads through it
but those that pass a node where `P` holds. -/
structure Spent (succ : Nat → List Nat) (G P : Nat → Prop) (o : List Nat) : Prop where
  met : ∀ v, P v → v ∈ o
  shut : ∀ v ∈ o, P v ∨ ¬ Open succ G P v
  goalless : ∀ v ∈ o, ¬ G v

namespace Spent

variable {o : List Nat} {v : Nat}

theorem nil : Spent succ G (fun _ => False) [] :=
  ⟨fun _ h => h.elim, fun _ h => absurd h List.not_mem_nil, fun _ h => absurd h List.not_mem_nil⟩

/-- A way may still lead through the node, but not twice. -/
theorem enter (h : Spent succ G P o) (hg : ¬ G v) :
    Spent succ G (fun w => w = v ∨ P w) (o ++ [v]) where
  met := by
    rintro w (rfl | hp)
    · simp
    · exact List.mem_append_left _ (h.met w hp)
  shut := by
    intro w hw
    rcases List.mem_append.1 hw with hold | hnew
    · rcases h.shut w hold with hp | hshut
      · exact Or.inl (Or.inr hp)
      · exact Or.inr fun hopen => hshut (hopen.mono fun _ => Or.inr)
    · exact Or.inl (Or.inl (List.mem_singleton.1 hnew))
  goalless := by
    intro w hw
    rcases List.mem_append.1 hw with hold | hnew
    · exact h.goalless w hold
    · exact List.mem_singleton.1 hnew ▸ hg

/-- No way to a goal leads through the node. -/
theorem pass (h : Spent succ G P o) (hv : v ∉ o) (hshut : ¬ Open succ G P v) :
    Spent succ G P (o ++ [v]) where
  met w hp := List.mem_append_left _ (h.met w hp)
  shut := by
    intro w hw
    rcases List.mem_append.1 hw with hold | hnew
    · exact h.shut w hold
    · exact Or.inr (List.mem_singleton.1 hnew ▸ hshut)
  goalless := by
    intro w hw
    rcases List.mem_append.1 hw with hold | hnew
    · exact h.goalless w hold
    · rw [List.mem_singleton.1 hnew]
      exact fun hg => hshut (.goal (fun hp => hv (h.met v hp)) hg)

end Spent

/-- The first goal that a walk meets is the one that the preferred way leads to. The walk starts
from `x`, with nodes in front from which all ways to a goal are shut, and what was met before is
spent. -/
theorem Visits.preferred {stack o o' : List Nat} {b : Bool}
    (h : Visits succ stop bound stack o o' b) {xs ys : List Nat} {x : Nat}
    (hst : stack = xs ++ x :: ys) (hout : ∀ v, bound ≤ v → succ v = [] ∧ ¬ G v)
    (hstop : ∀ v, stop v = true → G v) (ho : Spent succ G P o)
    (hxs : ∀ z ∈ xs, ¬ Open succ G P z) (hx : Open succ G P x) :
    ∃ l k l', o' = l ++ k :: l' ∧ (∀ u ∈ l, ¬ G u) ∧ G k ∧ Preferred succ G P x k := by
  induction h generalizing P xs ys x with
  | nil => simp at hst
  | @skip v rest o o' b hs _ ih =>
    cases xs with
    | nil =>
      -- an open node is neither beyond the bound nor spent
      obtain ⟨rfl, rfl⟩ := List.cons.inj hst
      rcases ho.shut v (hs (hx.lt_bound hout)) with hp | hshut
      · exact absurd hp hx.fresh
      · exact absurd hx hshut
    | cons z zs =>
      obtain ⟨rfl, rfl⟩ := List.cons.inj hst
      exact ih rfl ho (fun w hw => hxs w (List.mem_cons_of_mem _ hw)) hx
  | @halt v rest o hlt hv hsv =>
    cases xs with
    | nil =>
      obtain ⟨rfl, rfl⟩ := List.cons.inj hst
      exact ⟨o, v, [], rfl, ho.goalless, hstop v hsv, .goal hx.fresh (hstop v hsv)⟩
    | cons z zs =>
      obtain ⟨rfl, rfl⟩ := List.cons.inj hst
      exact absurd (.goal (fun hp => hv (ho.met v hp)) (hstop v hsv)) (hxs v List.mem_cons_self)
  | @enter v rest o o' b hlt hv hsv hw ih =>
    cases xs with
    | nil =>
      obtain ⟨rfl, rfl⟩ := List.cons.inj hst
      by_cases hg : G v
      · obtain ⟨t, rfl⟩ := hw.grows
        exact ⟨o, v, t, by simp, ho.goalless, hg, .goal hx.fresh hg⟩
      · obtain ⟨zs, y, zs', hsucc, hzs, hy⟩ := exists_first (hx.exists_step hg)
        have hsplit : succ v ++ rest = zs ++ y :: (zs' ++ rest) := by
          rw [hsucc, List.append_assoc, List.cons_append]
        obtain ⟨l, k, l', he, hl, hk, hpref⟩ := ih hsplit (ho.enter hg) hzs hy
        exact ⟨l, k, l', he, hl, hk, .step hx.fresh hg hsucc hzs hpref⟩
    | cons z zs =>
      -- a shut node has none but shut nodes behind it
      obtain ⟨rfl, rfl⟩ := List.cons.inj hst
      have hfresh : ¬ P v := fun hp => hv (ho.met v hp)
      have hshut : ¬ Open succ G P v := hxs v List.mem_cons_self
      have hsplit : succ v ++ (zs ++ x :: ys) = (succ v ++ zs) ++ x :: ys :=
        (List.append_assoc _ _ _).symm
      refine ih hsplit (ho.pass hv hshut) ?_ hx
      intro w hw'
      rcases List.mem_append.1 hw' with hnext | hrest
      · exact fun hopen => hshut (.step hfresh hnext hopen)
      · exact hxs w (List.mem_cons_of_mem _ hrest)

theorem orderUntil_eq {starts o : List Nat} {b : Bool}
    (h : Visits succ stop bound starts [] o b) : orderUntil succ stop bound starts = o := by
  obtain ⟨b', hb⟩ := orderUntil_visits succ stop bound starts
  exact (hb.unique h).1

/-- The order in which a walk of at most so many steps meets the nodes, found without hashing. -/
def trace? (succ : Nat → List Nat) (stop : Nat → Bool) (bound : Nat) :
    Nat → List Nat → List Nat → Option (List Nat)
  | _, [], order => some order
  | 0, _ :: _, _ => none
  | fuel + 1, v :: rest, order =>
    if v < bound ∧ v ∉ order then
      if stop v then some (order ++ [v])
      else trace? succ stop bound fuel (succ v ++ rest) (order ++ [v])
    else trace? succ stop bound fuel rest order

theorem trace?_visits {fuel : Nat} {stack o o' : List Nat}
    (h : trace? succ stop bound fuel stack o = some o') :
    ∃ b, Visits succ stop bound stack o o' b := by
  fun_induction trace? succ stop bound fuel stack o with
  | case1 fuel order =>
    obtain rfl := Option.some.inj h
    exact ⟨false, .nil⟩
  | case2 v rest order => cases h
  | case3 fuel v rest order hv hstop =>
    obtain rfl := Option.some.inj h
    exact ⟨true, .halt hv.1 hv.2 hstop⟩
  | case4 fuel v rest order hv hstop ih =>
    obtain ⟨b, hb⟩ := ih h
    exact ⟨b, .enter hv.1 hv.2 (by simpa using hstop) hb⟩
  | case5 fuel v rest order hv ih =>
    obtain ⟨b, hb⟩ := ih h
    exact ⟨b, .skip (fun hlt => by_contra fun ho => hv ⟨hlt, ho⟩) hb⟩

/-- A walk whose trace is known follows it. -/
theorem orderUntil_of_trace {fuel : Nat} {starts o : List Nat}
    (h : trace? succ stop bound fuel starts [] = some o) :
    orderUntil succ stop bound starts = o := by
  obtain ⟨b, hb⟩ := trace?_visits h
  exact orderUntil_eq hb

/-! ## The nodes that can be reached -/

theorem visits_all (succ : Nat → List Nat) (bound : Nat) (starts : List Nat) :
    Visits succ (fun _ => false) bound starts []
      (orderUntil succ (fun _ => false) bound starts) false := by
  obtain ⟨b, hb⟩ := orderUntil_visits succ (fun _ => false) bound starts
  cases b with
  | false => exact hb
  | true =>
    obtain ⟨_, _, _, hv, _⟩ := hb.stopped
    cases hv

theorem start_reachable {starts : List Nat} {s : Nat} (hs : s ∈ starts) (hb : s < bound) :
    (reachable succ bound starts).contains s = true := by
  rw [reachable, Std.HashSet.contains_ofList, List.contains_iff_mem]
  exact (visits_all succ bound starts).stack_mem hs hb

/-- The walk meets nothing but what can be reached from one of its starts. -/
theorem exists_start_of_reachable {starts : List Nat} {v : Nat}
    (h : (reachable succ bound starts).contains v = true) : ∃ s ∈ starts, Reach succ s v := by
  rw [reachable, Std.HashSet.contains_ofList, List.contains_iff_mem] at h
  exact ((visits_all succ bound starts).reached h).resolve_left List.not_mem_nil

theorem step_reachable {starts : List Nat} {v w : Nat}
    (hv : (reachable succ bound starts).contains v = true) (hw : w ∈ succ v) (hb : w < bound) :
    (reachable succ bound starts).contains w = true := by
  rw [reachable, Std.HashSet.contains_ofList, List.contains_iff_mem] at hv ⊢
  exact (visits_all succ bound starts).closed hv List.not_mem_nil hw hb

end ByteRegex.Walk
