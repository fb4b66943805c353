-- Which trail is left. The path that is tried first leaves the trail of where
-- it starts, and the trail of the floating start is the one of the leftmost
-- place where a match starts.
import ByteRegex.Proofs.Dfa.Trail
import ByteRegex.Proofs.Nfa.Closed

namespace ByteRegex.Nfa

open Dfa (LookContext)
open Dfa.Subset (freeTargets Important mem_freeTargets)
open Walk (Preferred Open Reach)

variable {n : Nfa} {data : Bytes}

/-! ## The path that is tried first -/

/-- After `k` moves from `c`, each of them the first one that leads to a match, the automaton
accepts before the place `e`. -/
inductive Best (n : Nfa) (data : Bytes) : Nat → Nat × Nat → Nat → Prop
  | accept {s i : Nat} : n.Accepting s → Best n data 0 (s, i) i
  | move {k e : Nat} {c c' : Nat × Nat} {xs ys : List (Nat × Nat)} :
      ¬ n.Accepting c.1 → n.moves data c = xs ++ c' :: ys →
      (∀ x ∈ xs, ∀ e', ¬ n.Reaches data x e') → Best n data k c' e → Best n data (k + 1) c e

theorem Best.reaches {k e : Nat} {c : Nat × Nat} (h : Best n data k c e) :
    n.Reaches data c e := by
  induction h with
  | accept ha => exact .accept ha
  | move _ hm _ _ ih => exact .move (hm ▸ List.mem_append_right _ List.mem_cons_self) ih

/-- The path that is tried first has one length. -/
theorem Best.unique {k k' e e' : Nat} {c : Nat × Nat} (h : Best n data k c e)
    (h' : Best n data k' c e') : k = k' := by
  induction h generalizing k' with
  | accept ha =>
    cases h' with
    | accept => rfl
    | move hna => exact absurd ha hna
  | move hna hm hxs hb ih =>
    cases h' with
    | accept ha => exact absurd ha hna
    | move _ hm' hxs' hb' =>
      obtain rfl := Walk.split_unique (Q := fun c => ∃ e, n.Reaches data c e)
        (hm.symm.trans hm') (fun z hz ⟨e, he⟩ => hxs z hz e he)
        (fun z hz ⟨e, he⟩ => hxs' z hz e he) ⟨_, hb.reaches⟩ ⟨_, hb'.reaches⟩
      rw [ih hb']

/-- A search that finds an end does so along the path that is tried first from some entry of the
stack, and nothing can be reached from the entries in front. -/
theorem First.exists_best {st : List (Nat × Nat)} {e : Nat} (h : First n data st (some e)) :
    ∃ xs c ys k, st = xs ++ c :: ys ∧ (∀ x ∈ xs, ∀ e', ¬ n.Reaches data x e') ∧
      Best n data k c e := by
  generalize hr : some e = r at h
  induction h with
  | nil => cases hr
  | @accept s i rest ha =>
    obtain rfl := Option.some.inj hr
    exact ⟨[], (s, e), rest, 0, rfl, by simp, .accept ha⟩
  | @enter c rest r ha _ ih =>
    obtain ⟨xs, c', ys, k, hst, hxs, hb⟩ := ih hr
    -- `c` does not accept, so an end that it reaches is one that a move reaches
    have hbarren : (∀ d ∈ n.moves data c, ∀ e', ¬ n.Reaches data d e') →
        ∀ e', ¬ n.Reaches data c e' := by
      intro hd e' hre
      rcases hre.cases with ⟨hacc, _⟩ | ⟨d, hmem, hre'⟩
      · exact ha hacc
      · exact hd d hmem e' hre'
    rcases List.append_eq_append_iff.1 hst with ⟨zs, rfl, hrest⟩ | ⟨zs, hm, hys⟩
    · refine ⟨c :: zs, c', ys, k, by rw [hrest, List.cons_append], fun x hx => ?_, hb⟩
      rcases List.mem_cons.1 hx with rfl | hx
      · exact hbarren fun d hd => hxs d (List.mem_append_left _ hd)
      · exact hxs x (List.mem_append_right _ hx)
    · cases zs with
      | nil =>
        rw [List.append_nil] at hm
        refine ⟨[c], c', ys, k, by rw [hys]; rfl, fun x hx => ?_, hb⟩
        rw [List.mem_singleton.1 hx]
        exact hbarren fun d hd => hxs d (hm ▸ hd)
      | cons d zs =>
        obtain ⟨rfl, rfl⟩ := List.cons.inj hys
        exact ⟨[], c, rest, k + 1, rfl, by simp, .move ha hm hxs hb⟩

/-- All edges of a state consume a byte, or none does. -/
def Pure (n : Nfa) : Prop :=
  ∀ s, ∀ e ∈ (n.state s).edges.toList, ∀ e' ∈ (n.state s).edges.toList, e.isByte = e'.isByte

/-- Where no edge consumes a byte, the moves are the free edges. -/
theorem moves_free {s i : Nat} (h : ∀ e ∈ (n.state s).edges.toList, e.isByte = false) :
    n.moves data (s, i) = (freeTargets n (some (placeOf data i)) s).map fun t => (t, i) := by
  rw [moves, freeTargets, List.map_filterMap]
  refine List.filterMap_congr fun e he => ?_
  cases e with
  | eps t => rfl
  | bytes lo hi t => cases h _ he
  | look k t =>
    simp only [Edge.next?, Dfa.Subset.freeTarget?, Option.any_some]
    split <;> rfl

/-- Where all edges consume a byte, the moves are the ones with the next byte. -/
theorem moves_bytes {s i : Nat} (hi : i < data.size)
    (h : ∀ e ∈ (n.state s).edges.toList, e.isByte = true) :
    n.moves data (s, i) = ((n.state s).byteTargets (data.getD i 0)).map fun t => (t, i + 1) := by
  obtain ⟨b, hb⟩ : ∃ b, data[i]? = some b := ⟨_, Array.getElem?_eq_getElem hi⟩
  rw [moves, State.byteTargets, List.map_filterMap, Array.getD_eq_getD_getElem?, hb,
    Option.getD_some]
  refine List.filterMap_congr fun e he => ?_
  cases e with
  | eps t => cases h _ he
  | bytes lo hi' t =>
    simp only [Edge.next?, Dfa.Subset.byteTarget?, hb, Option.any_some]
    split <;> rfl
  | look k t => cases h _ he

/-- From a state that does not matter only free edges lead on. -/
theorem no_byte_of_not_important {s : Nat} (h : ¬ Important n s) :
    ∀ e ∈ (n.state s).edges.toList, e.isByte = false := by
  intro e he
  cases e with
  | eps t => rfl
  | bytes lo hi t => exact absurd (Dfa.Subset.important_of_edge he rfl) h
  | look k t => rfl

/-- From a state that is not ready, but from which a match can come, no edge consumes a byte. -/
theorem no_byte_of_not_ready (hn : Pure n) {i s : Nat} (hs : Fertile n data i s)
    (h : ¬ Ready n data i s) : ∀ e ∈ (n.state s).edges.toList, e.isByte = false := by
  intro e he
  by_contra hbyte
  rw [Bool.not_eq_false] at hbyte
  obtain ⟨j, hj⟩ := hs
  rcases hj.cases with ⟨hacc, _⟩ | ⟨⟨t, i'⟩, hc, hre⟩
  · exact h (Or.inl hacc)
  · rcases Dfa.Subset.move_cases hc with ⟨_, hfree⟩ | ⟨hlt, hplace, hmem⟩
    · obtain ⟨e', he', hto⟩ := mem_freeTargets.1 hfree
      have hbyte' : e'.isByte = true := (hn s e' he' e he).trans hbyte
      cases e' with
      | eps u => cases hbyte'
      | bytes lo hi u => cases hto
      | look k u => cases hbyte'
    · dsimp only at hplace hmem
      subst hplace
      exact h (Or.inr ⟨hlt, t, hmem, j, hre⟩)

/-- A state that is ready without accepting moves with the next byte alone. -/
theorem Ready.moves (hn : Pure n) {i s : Nat} (h : Ready n data i s) (hs : ¬ n.Accepting s) :
    i < data.size ∧ n.moves data (s, i) =
      ((n.state s).byteTargets (data.getD i 0)).map fun t => (t, i + 1) := by
  obtain ⟨hi, t, ht, _⟩ := h.resolve_left hs
  refine ⟨hi, moves_bytes hi fun e he => ?_⟩
  obtain ⟨e', he', hto⟩ := List.mem_filterMap.1 ht
  rw [hn s e he e' he']
  cases e' with
  | eps u => cases hto
  | bytes lo hi' u => rfl
  | look k u => cases hto

/-- From a state that does not matter the looks tell nothing. -/
theorem freeTargets_of_not_important {ctx : LookContext} {s : Nat} (h : ¬ Important n s) :
    freeTargets n (some ctx) s = freeTargets n none s := by
  refine List.filterMap_congr fun e he => ?_
  cases e with
  | eps t => rfl
  | bytes lo hi t => rfl
  | look k t => exact absurd (Dfa.Subset.important_of_edge he rfl) h

/-- A list of places in front of one place is split where the list of the states is. -/
theorem map_place_split {l : List Nat} {i : Nat} {xs ys : List (Nat × Nat)} {c : Nat × Nat}
    (h : l.map (fun t => (t, i)) = xs ++ c :: ys) :
    ∃ us u vs, l = us ++ u :: vs ∧ c = (u, i) ∧ xs = us.map fun t => (t, i) := by
  obtain ⟨us, rest, rfl, rfl, hrest⟩ := List.map_eq_append_iff.1 h
  obtain ⟨u, vs, rfl, rfl, rfl⟩ := List.map_eq_cons_iff.1 hrest
  exact ⟨us, u, vs, rfl, rfl, rfl⟩

/-! ## Its trail -/

/-- The path that is tried first goes the preferred way to the states of a kind, if each state on
a free edge is of the kind or leads on by free edges alone. The nodes that `P` shuts out are ones
from which the path is longer. -/
theorem Best.preferred {ctx : Option LookContext} {G : Nat → Prop} {i k e s : Nat}
    (hmoves : ∀ t, Fertile n data i t → ¬ G t →
      ¬ n.Accepting t ∧ n.moves data (t, i) = (freeTargets n ctx t).map fun u => (u, i))
    (hfertile : ∀ t P, Open (freeTargets n ctx) G P t → Fertile n data i t)
    {P : Nat → Prop} (hP : ∀ t, P t → ∀ k' e', Best n data k' (t, i) e' → k < k')
    (h : Best n data k (s, i) e) :
    ∃ u k', k' ≤ k ∧ Preferred (freeTargets n ctx) G P s u ∧ Best n data k' (u, i) e := by
  induction k generalizing s P with
  | zero =>
    have hs : ¬ P s := fun hp => absurd (hP s hp 0 e h) (by omega)
    by_cases hG : G s
    · exact ⟨s, 0, Nat.le_refl 0, .goal hs hG, h⟩
    · cases h with
      | accept ha => exact absurd ha (hmoves s ⟨_, .accept ha⟩ hG).1
  | succ k ih =>
    have hs : ¬ P s := fun hp => absurd (hP s hp _ e h) (by omega)
    by_cases hG : G s
    · exact ⟨s, k + 1, Nat.le_refl _, .goal hs hG, h⟩
    · have hmap := (hmoves s ⟨e, h.reaches⟩ hG).2
      have hbest := h
      cases h with
      | move _ hm hxs hb =>
        obtain ⟨us, u, vs, hsplit, rfl, rfl⟩ := map_place_split (hmap.symm.trans hm)
        have hP' : ∀ t, t = s ∨ P t → ∀ k' e', Best n data k' (t, i) e' → k < k' := by
          rintro t (rfl | hp) k' e' hb'
          · rw [← hbest.unique hb']
            exact Nat.lt_succ_self k
          · exact Nat.lt_of_succ_lt (hP t hp k' e' hb')
        obtain ⟨w, k', hle, hpref, hb'⟩ := ih hP' hb
        refine ⟨w, k', Nat.le_succ_of_le hle, .step hs hG hsplit (fun z hz ho => ?_) hpref, hb'⟩
        obtain ⟨e', he'⟩ := hfertile z _ ho
        exact hxs (z, i) (List.mem_map.2 ⟨z, hz, rfl⟩) e' he'

/-- From where the path that is tried first goes, the thread it passes is the one that counts. -/
theorem Best.elects (hn : Pure n) {i k e s : Nat}
    (h : Best n data k (s, i) e) :
    ∃ u k', k' ≤ k ∧ Elects n data i s u ∧ Best n data k' (u, i) e := by
  have halive : ∀ t, Fertile n data i t → ¬ Alive n data i t →
      ¬ n.Accepting t ∧ n.moves data (t, i) = (freeTargets n none t).map fun u => (u, i) := by
    intro t ht hna
    have himp : ¬ Important n t := fun h => hna ⟨h, ht⟩
    refine ⟨fun ha => himp (Dfa.Subset.important_of_accepting ha), ?_⟩
    rw [moves_free (no_byte_of_not_important himp), freeTargets_of_not_important himp]
  have hready : ∀ t, Fertile n data i t → ¬ Ready n data i t → ¬ n.Accepting t ∧
      n.moves data (t, i) =
        (freeTargets n (some (placeOf data i)) t).map fun u => (u, i) := by
    intro t ht hnr
    exact ⟨fun ha => hnr (Or.inl ha), moves_free (no_byte_of_not_ready hn ht hnr)⟩
  obtain ⟨u, k1, hle1, hpref1, hb1⟩ := h.preferred (P := fun _ => False) halive
    (fun t P ho => fertile_of_open_alive ho) fun t hp => hp.elim
  obtain ⟨w, k2, hle2, hpref2, hb2⟩ := hb1.preferred (P := fun _ => False) hready
    (fun t P ho => fertile_of_open_ready ho) fun t hp => hp.elim
  exact ⟨w, k2, Nat.le_trans hle2 hle1, ⟨u, hpref1, hpref2⟩, hb2⟩

/-- The path that is tried first leaves the trail. -/
theorem Best.trail (hn : Pure n) {k e : Nat} {c : Nat × Nat} (h : Best n data k c e) :
    Trail n data c e := by
  induction k using Nat.strongRecOn generalizing c with
  | _ k ih =>
    obtain ⟨s, i⟩ := c
    obtain ⟨u, k', hle, helect, hb⟩ := h.elects hn
    cases hb with
    | accept ha => exact .accept helect ha
    | @move k' _ _ c' xs ys hna hm hxs hb =>
      obtain ⟨hi, hmap⟩ := helect.ready.moves hn hna
      obtain ⟨us, t, vs, hsplit, rfl, rfl⟩ := map_place_split (hmap.symm.trans hm)
      refine .move helect hna hi hsplit (fun z hz ⟨e', he'⟩ => ?_) (ih k' hle hb)
      exact hxs (z, i + 1) (List.mem_map.2 ⟨z, hz, rfl⟩) e' he'

/-- Where a search without marks finds an end, the trail leads there. -/
theorem First.trail (hn : Pure n) {c : Nat × Nat} {e : Nat} (h : First n data [c] (some e)) :
    Trail n data c e := by
  obtain ⟨xs, d, ys, k, hst, _, hb⟩ := h.exists_best
  obtain rfl : d = c := List.mem_singleton.1 (hst ▸ List.mem_append_right _ List.mem_cons_self)
  exact hb.trail hn

/-! ## The trail of the floating start -/

namespace Closed

variable {R : UInt8 → UInt8 → Prop} {p : Pattern} {out goal skipping : Nat}

theorem freeTargets_floating (h : Closed R n p out goal skipping) {ctx : Option LookContext} :
    freeTargets n ctx n.floating = [n.anchored, skipping] := by
  rw [freeTargets, show n.state n.floating = _ from h.floating]
  rfl

theorem freeTargets_skipping (h : Closed R n p out goal skipping) {ctx : Option LookContext} :
    freeTargets n ctx skipping = [] := by
  rw [freeTargets, show n.state skipping = _ from h.skip]
  rfl

theorem byteTargets_skipping (h : Closed R n p out goal skipping) (b : UInt8) :
    (n.state skipping).byteTargets b = [n.floating] := by
  rw [show n.state skipping = _ from h.skip]
  simp [State.byteTargets, Dfa.Subset.byteTarget?, le_last]

theorem not_important_floating (h : Closed R n p out goal skipping) :
    ¬ Important n n.floating := by
  rw [Important, show n.state n.floating = _ from h.floating]
  simp [State.important, Edge.isEps]

/-- No free edge leads back to the floating start. -/
theorem floating_not_mem (h : Closed R n p out goal skipping) {ctx : Option LookContext}
    (t : Nat) : n.floating ∉ freeTargets n ctx t := by
  intro hmem
  have hskip : t = skipping := by
    obtain ⟨e, he, hto⟩ := mem_freeTargets.1 hmem
    refine h.into t e he ?_
    cases e with
    | eps u => exact Option.some.inj hto
    | bytes lo hi u => cases hto
    | look k u =>
      simp only [Dfa.Subset.freeTarget?] at hto
      split at hto
      · exact Option.some.inj hto
      · cases hto
  rw [hskip, h.freeTargets_skipping] at hmem
  cases hmem

theorem preferred_skipping (h : Closed R n p out goal skipping) {ctx : Option LookContext}
    {G P : Nat → Prop} {k : Nat} (hk : Preferred (freeTargets n ctx) G P skipping k) :
    k = skipping := by
  cases hk with
  | goal => rfl
  | step _ _ hs =>
    rw [h.freeTargets_skipping] at hs
    simp at hs

/-- From the floating start the thread that counts begins a match if one starts at the place, and
skips a byte otherwise. -/
theorem elects_floating (h : Closed R n p out goal skipping) {i k : Nat}
    (hk : Elects n data i n.floating k) :
    Elects n data i n.anchored k ∨ (k = skipping ∧ ∀ e, ¬ Matches data p i e) := by
  have hne : n.anchored ≠ n.floating := by
    intro heq
    have hmem : n.anchored ∈ freeTargets n none n.floating := by
      rw [h.freeTargets_floating]
      exact List.mem_cons_self
    exact h.floating_not_mem n.floating (heq ▸ hmem)
  have hQ : ∀ w, (w = n.floating ∨ False) ↔ w = n.floating ∨ False := fun w => Iff.rfl
  obtain ⟨u, h1, h2⟩ := hk
  cases h1 with
  | goal _ hg => exact absurd hg.1 h.not_important_floating
  | @step _ _ y _ xs ys _ _ hs hxs hy =>
    rw [h.freeTargets_floating] at hs
    cases xs with
    | nil =>
      obtain ⟨rfl, _⟩ := List.cons.inj hs
      exact Or.inl ⟨u, hy.forget h.floating_not_mem hne hQ, h2⟩
    | cons x xs =>
      obtain ⟨rfl, hrest⟩ := List.cons.inj hs
      have hshut : ∀ e, ¬ Matches data p i e := by
        intro e he
        have hopen :=
          (show Fertile n data i n.anchored from ⟨e, h.reaches_anchored.2 he⟩).open_alive
        exact hxs n.anchored List.mem_cons_self (hopen.avoid h.floating_not_mem hne hQ)
      obtain rfl : y = skipping :=
        List.mem_singleton.1 (hrest ▸ List.mem_append_right _ List.mem_cons_self)
      obtain rfl := h.preferred_skipping hy
      exact Or.inr ⟨h.preferred_skipping h2, hshut⟩

/-- The trail of the floating start is the one of the leftmost place where a match starts. -/
theorem trail_floating (h : Closed R n p out goal skipping) {i e : Nat} (hi : i ≤ data.size)
    (ht : Trail n data (n.floating, i) e) :
    ∃ s, i ≤ s ∧ s ≤ data.size ∧ (∀ j, i ≤ j → j < s → ∀ e', ¬ Matches data p j e') ∧
      Trail n data (n.anchored, s) e := by
  generalize hc : (n.floating, i) = c at ht
  induction ht generalizing i with
  | @accept s i' k hk hacc =>
    obtain ⟨rfl, rfl⟩ := Prod.mk.inj hc
    rcases h.elects_floating hk with hk' | ⟨rfl, _⟩
    · exact ⟨i, Nat.le_refl i, hi, fun j h1 h2 => by omega, .accept hk' hacc⟩
    · exact absurd hacc h.skip.not_accepting
  | @move s i' k t e xs ys hk hna hlt hb hxs ht ih =>
    obtain ⟨rfl, rfl⟩ := Prod.mk.inj hc
    rcases h.elects_floating hk with hk' | ⟨rfl, hnone⟩
    · exact ⟨i, Nat.le_refl i, hi, fun j h1 h2 => by omega, .move hk' hna hlt hb hxs ht⟩
    · rw [h.byteTargets_skipping] at hb
      obtain rfl : t = n.floating :=
        List.mem_singleton.1 (hb ▸ List.mem_append_right _ List.mem_cons_self)
      obtain ⟨s, h1, h2, h3, h4⟩ := ih hlt rfl
      refine ⟨s, by omega, h2, fun j hj hjs => ?_, h4⟩
      rcases Nat.eq_or_lt_of_le hj with rfl | hj
      · exact hnone
      · exact h3 j hj hjs

end Closed

end ByteRegex.Nfa
