-- Looks that wait. A set of threads is closed while the looks are unknown, and
-- closed once more when the place is known. The second closure no longer knows
-- which states the first one has passed, so it may come back to them. Where no
-- thread leads back to itself it does not, and then the looks could as well
-- have been followed where they were met.
import ByteRegex.Proofs.Compile
import ByteRegex.Proofs.Dfa.Limit
import ByteRegex.Proofs.Dfa.Preference

namespace ByteRegex

/-! ## The first member of a list that counts -/

/-- `k` is the first member of the list that counts. -/
def FirstOf (G : Nat → Prop) (l : List Nat) (k : Nat) : Prop :=
  ∃ l1 l2, l = l1 ++ k :: l2 ∧ (∀ u ∈ l1, ¬ G u) ∧ G k

namespace FirstOf

variable {G : Nat → Prop} {l : List Nat} {k : Nat}

theorem mem (h : FirstOf G l k) : k ∈ l := by
  obtain ⟨l1, l2, rfl, _⟩ := h
  exact List.mem_append_right _ List.mem_cons_self

theorem counts (h : FirstOf G l k) : G k := by
  obtain ⟨_, _, _, _, hk⟩ := h
  exact hk

theorem exists_iff : (∃ k, FirstOf G l k) ↔ ∃ k ∈ l, G k := by
  constructor
  · rintro ⟨k, hk⟩
    exact ⟨k, hk.mem, hk.counts⟩
  · intro h
    obtain ⟨l1, k, l2, heq, hl1, hk⟩ := Walk.exists_first h
    exact ⟨k, l1, l2, heq, hl1, hk⟩

theorem unique {k' : Nat} (h : FirstOf G l k) (h' : FirstOf G l k') : k = k' := by
  obtain ⟨l1, l2, heq, hl1, hk⟩ := h
  obtain ⟨l1', l2', heq', hl1', hk'⟩ := h'
  exact Walk.split_unique (heq.symm.trans heq') hl1 hl1' hk hk'

theorem head (hk : G k) : FirstOf G (k :: l) k := ⟨[], l, rfl, by simp, hk⟩

theorem cons_iff {v : Nat} (hv : ¬ G v) : FirstOf G (v :: l) k ↔ FirstOf G l k := by
  constructor
  · rintro ⟨l1, l2, heq, hl1, hk⟩
    cases l1 with
    | nil =>
      obtain ⟨rfl, _⟩ := List.cons.inj heq
      exact absurd hk hv
    | cons u l1 =>
      obtain ⟨_, rfl⟩ := List.cons.inj heq
      exact ⟨l1, l2, rfl, fun w hw => hl1 w (List.mem_cons_of_mem _ hw), hk⟩
  · rintro ⟨l1, l2, rfl, hl1, hk⟩
    exact ⟨v :: l1, l2, rfl, by simpa [hv] using hl1, hk⟩

end FirstOf

/-- Two lists are equal if they have the same first member of every kind. Only kinds that take in
the members at which a list has to end need be asked for. -/
theorem eq_of_firstOf {I stop : Nat → Prop} {l l' : List Nat}
    (hl : l.Pairwise fun u v => u ≠ v ∧ ¬ stop u) (hl' : l'.Pairwise fun u v => u ≠ v ∧ ¬ stop u)
    (hstop : ∀ v, stop v → I v) (hI : ∀ v ∈ l, I v) (hI' : ∀ v ∈ l', I v)
    (h : ∀ G : Nat → Prop, (∀ v, stop v → G v) → (∀ v, G v → I v) →
      ∀ k, FirstOf G l k ↔ FirstOf G l' k) : l = l' := by
  induction l generalizing I l' with
  | nil =>
    cases l' with
    | nil => rfl
    | cons k r =>
      have hk := (h I hstop (fun _ => id) k).2 (.head (hI' k List.mem_cons_self))
      exact absurd hk.mem List.not_mem_nil
  | cons k r ih =>
    cases l' with
    | nil =>
      have hk := (h I hstop (fun _ => id) k).1 (.head (hI k List.mem_cons_self))
      exact absurd hk.mem List.not_mem_nil
    | cons k' r' =>
      have hk := (h I hstop (fun _ => id) k).1 (.head (hI k List.mem_cons_self))
      obtain rfl := hk.unique (.head (hI' k' List.mem_cons_self))
      obtain ⟨hk, hr⟩ := List.pairwise_cons.1 hl
      obtain ⟨hk', hr'⟩ := List.pairwise_cons.1 hl'
      by_cases hs : stop k
      · -- nothing comes behind the end of either list
        rw [List.eq_nil_iff_forall_not_mem.2 fun v hv => (hk v hv).2 hs,
          List.eq_nil_iff_forall_not_mem.2 fun v hv => (hk' v hv).2 hs]
      · refine congrArg (k :: ·) (ih (I := fun v => I v ∧ v ≠ k) hr hr' ?_ ?_ ?_ ?_)
        · exact fun v hv => ⟨hstop v hv, fun heq => hs (heq ▸ hv)⟩
        · exact fun v hv => ⟨hI v (List.mem_cons_of_mem _ hv), ((hk v hv).1).symm⟩
        · exact fun v hv => ⟨hI' v (List.mem_cons_of_mem _ hv), ((hk' v hv).1).symm⟩
        · intro G hG hGI j
          have hGk : ¬ G k := fun hg => (hGI k hg).2 rfl
          rw [← FirstOf.cons_iff hGk, ← FirstOf.cons_iff (l := r') hGk]
          exact h G hG (fun v hv => (hGI v hv).1) j

namespace Dfa.Subset

open Walk (Preferred Open Reach)

variable {c : Subset} {n : Nfa} {ctx : LookContext} {G P : Nat → Prop}

/-! ## The first thread of a closure that counts -/

/-- The preferred way from the seeds to a state that counts leads to `k`. -/
def PreferredFrom (n : Nfa) (ctx : Option LookContext) (G : Nat → Prop) (seeds : List Nat)
    (k : Nat) : Prop :=
  ∃ xs x ys, seeds = xs ++ x :: ys ∧ (∀ z ∈ xs, ¬ Open (freeTargets n ctx) G (fun _ => False) z) ∧
    Preferred (freeTargets n ctx) G (fun _ => False) x k

theorem exists_firstOf_closure {ctx : Option LookContext} {seeds : List Nat}
    (hG : ∀ v, G v → Important c.nfa v) (hstop : ∀ v, c.shutsOut v = true → G v)
    (h : ∃ x ∈ seeds, Open (freeTargets c.nfa ctx) G (fun _ => False) x) :
    ∃ k, FirstOf G (c.closure ctx seeds) k ∧ PreferredFrom c.nfa ctx G seeds k := by
  obtain ⟨xs, x, ys, rfl, hxs, hx⟩ := Walk.exists_first h
  obtain ⟨l, k, l', heq, hl, hk, hpref⟩ :
      ∃ l k l', c.closure ctx (xs ++ x :: ys) = l ++ k :: l' ∧ _ := closure_first hG hstop hxs hx
  exact ⟨k, ⟨l, l', heq, hl, hk⟩, xs, x, ys, rfl, hxs, hpref⟩

theorem PreferredFrom.unique {ctx : Option LookContext} {seeds : List Nat} {k k' : Nat}
    (h : PreferredFrom n ctx G seeds k) (h' : PreferredFrom n ctx G seeds k') : k = k' := by
  obtain ⟨xs, x, ys, heq, hxs, hx⟩ := h
  obtain ⟨xs', x', ys', heq', hxs', hx'⟩ := h'
  obtain rfl := Walk.split_unique (heq.symm.trans heq') hxs hxs' hx.open_start hx'.open_start
  exact hx.unique hx'

theorem PreferredFrom.exists_open {ctx : Option LookContext} {seeds : List Nat} {k : Nat}
    (h : PreferredFrom n ctx G seeds k) :
    ∃ x ∈ seeds, Open (freeTargets n ctx) G (fun _ => False) x := by
  obtain ⟨xs, x, ys, rfl, _, hx⟩ := h
  exact ⟨x, List.mem_append_right _ List.mem_cons_self, hx.open_start⟩

theorem firstOf_closure_iff {ctx : Option LookContext} {seeds : List Nat} {k : Nat}
    (hG : ∀ v, G v → Important c.nfa v) (hstop : ∀ v, c.shutsOut v = true → G v) :
    FirstOf G (c.closure ctx seeds) k ↔ PreferredFrom c.nfa ctx G seeds k := by
  constructor
  · intro h
    obtain ⟨u, hu, hr⟩ := closure_reached h.mem
    obtain ⟨k', h', hpref⟩ := exists_firstOf_closure hG hstop ⟨u, hu, Open.of_reach hr h.counts⟩
    exact h.unique h' ▸ hpref
  · intro h
    obtain ⟨k', h', hpref⟩ := exists_firstOf_closure hG hstop h.exists_open
    exact h.unique hpref ▸ h'

/-- Some thread of a closure counts just if the seeds lead to one that does. -/
theorem exists_closure_iff {ctx : Option LookContext} {seeds : List Nat}
    (hG : ∀ v, G v → Important c.nfa v) (hstop : ∀ v, c.shutsOut v = true → G v) :
    (∃ k ∈ c.closure ctx seeds, G k) ↔
      ∃ x ∈ seeds, ∃ g, Reach (freeTargets c.nfa ctx) x g ∧ G g := by
  constructor
  · rintro ⟨k, hk, hg⟩
    obtain ⟨x, hx, hr⟩ := closure_reached hk
    exact ⟨x, hx, k, hr, hg⟩
  · rintro ⟨x, hx, g, hr, hg⟩
    obtain ⟨k, hk, _⟩ := exists_firstOf_closure hG hstop ⟨x, hx, Open.of_reach hr hg⟩
    exact ⟨k, hk.mem, hk.counts⟩

/-! ## Two closures in a row -/

/-- Free edges lead from the state back to it. -/
def Returns (n : Nfa) (ctx : LookContext) (s : Nat) : Prop :=
  ∃ t ∈ freeTargets n (some ctx) s, Reach (freeTargets n (some ctx)) t s

/-- The state matters, and with the looks resolved it leads to one that counts. -/
def Leads (n : Nfa) (ctx : LookContext) (G : Nat → Prop) (s : Nat) : Prop :=
  Important n s ∧ ∃ g, Reach (freeTargets n (some ctx)) s g ∧ G g

theorem shutsOut_leads (hG : ∀ v, G v → Important c.nfa v)
    (hstop : ∀ v, c.shutsOut v = true → G v) : ∀ v, c.shutsOut v = true → Leads c.nfa ctx G v :=
  fun v hv => ⟨hG v (hstop v hv), v, Reach.refl v, hstop v hv⟩

/-- Resolved late or at once, some thread counts in both cases or in neither. -/
theorem exists_resolved_iff (hG : ∀ v, G v → Important c.nfa v)
    (hstop : ∀ v, c.shutsOut v = true → G v) {seeds : List Nat} :
    (∃ k ∈ c.closure (some ctx) (c.closure none seeds), G k) ↔
      ∃ k ∈ c.closure (some ctx) seeds, G k := by
  rw [exists_closure_iff hG hstop, exists_closure_iff hG hstop]
  constructor
  · rintro ⟨u, hu, g, hr, hg⟩
    obtain ⟨x, hx, hr'⟩ := closure_reached hu
    exact ⟨x, hx, g, (reach_of_none hr').trans hr, hg⟩
  · rintro ⟨x, hx, g, hr, hg⟩
    obtain ⟨f, hf, h1, h2⟩ := exists_first_important hr (hG g hg)
    obtain ⟨u, hu, _, hlead⟩ := (exists_closure_iff (G := Leads c.nfa ctx G) (fun _ hv => hv.1)
      (shutsOut_leads hG hstop)).2 ⟨x, hx, f, h1, hf, g, h2, hg⟩
    exact ⟨u, hu, hlead⟩

theorem returns_of_reach {s t : Nat} (hst : Reach (freeTargets n (some ctx)) s t)
    (hts : Reach (freeTargets n (some ctx)) t s) (hne : s ≠ t) : Returns n ctx s := by
  rcases Relation.ReflTransGen.cases_head hst with rfl | ⟨u, hu, hut⟩
  · exact absurd rfl hne
  · exact ⟨u, hu, hut.trans hts⟩

/-- Each way to a state that counts passes a state that matters, and up to the first of these no
look is in the way. -/
theorem open_leads (hG : ∀ v, G v → Important n v) {z : Nat}
    (h : Open (freeTargets n (some ctx)) G P z) :
    Open (freeTargets n none) (Leads n ctx G) P z := by
  induction h with
  | goal hp hg => exact .goal hp ⟨hG _ hg, _, Reach.refl _, hg⟩
  | @step x y hp hy hopen ih =>
    by_cases himp : Important n x
    · obtain ⟨g, hr, hg⟩ := hopen.reach
      exact .goal hp ⟨himp, g, Reach.head hy hr, hg⟩
    · exact .step hp (free_none_of_not_important himp hy) ih

/-- The preferred way up to the first state that matters, and the preferred way on from there, make
up the preferred way. What was passed on the first one is forgotten on the second, but a state that
does not lead back to itself leads to none of that. -/
theorem preferred_resolved (hG : ∀ v, G v → Important n v) {x u k : Nat}
    (h : Preferred (freeTargets n none) (Leads n ctx G) P x u)
    (hP : ∀ p, P p → Reach (freeTargets n (some ctx)) p u) (hu : ¬ Returns n ctx u)
    (hk : Preferred (freeTargets n (some ctx)) G (fun _ => False) u k) :
    Preferred (freeTargets n (some ctx)) G P x k := by
  induction h with
  | @goal P x hp _ =>
    refine hk.congr_reach fun w hw => iff_of_false (fun hpw => ?_) id
    exact hu (returns_of_reach hw (hP w hpw) fun heq => hp (heq ▸ hpw))
  | @step P x y u xs ys hp hleads hs hxs hy ih =>
    have hreach : Reach (freeTargets n none) x u :=
      Reach.head (hs ▸ List.mem_append_right _ List.mem_cons_self) hy.reach
    have himp : ¬ Important n x := by
      intro himp
      obtain ⟨g, hr, hg⟩ := hy.goal_end.2
      exact hleads ⟨himp, g, (reach_of_none hreach).trans hr, hg⟩
    refine .step hp (fun hg => himp (hG x hg))
      ((Nfa.freeTargets_of_not_important himp).trans hs)
      (fun z hz ho => hxs z hz (open_leads hG ho))
      (ih ?_ hu hk)
    rintro p (rfl | hp')
    · exact reach_of_none hreach
    · exact hP p hp'

theorem firstOf_resolved (hG : ∀ v, G v → Important c.nfa v)
    (hstop : ∀ v, c.shutsOut v = true → G v) {seeds : List Nat}
    (h : ∀ s ∈ c.closure none seeds, ¬ Returns c.nfa ctx s) (k : Nat) :
    FirstOf G (c.closure (some ctx) (c.closure none seeds)) k ↔
      FirstOf G (c.closure (some ctx) seeds) k := by
  have hforward : ∀ k, FirstOf G (c.closure (some ctx) (c.closure none seeds)) k →
      FirstOf G (c.closure (some ctx) seeds) k := by
    intro k hk
    obtain ⟨us, u, us', heq, hus, hu⟩ := (firstOf_closure_iff hG hstop).1 hk
    have hmem : u ∈ c.closure none seeds :=
      heq ▸ List.mem_append_right _ List.mem_cons_self
    have hfirst : FirstOf (Leads c.nfa ctx G) (c.closure none seeds) u := by
      refine ⟨us, us', heq, ?_, (mem_closure.1 hmem).2, hu.open_start.reach⟩
      rintro z hz ⟨_, g, hr, hg⟩
      exact hus z hz (Open.of_reach hr hg)
    obtain ⟨xs, x, ys, rfl, hxs, hx⟩ :=
      (firstOf_closure_iff (fun _ hv => hv.1) (shutsOut_leads hG hstop)).1 hfirst
    refine (firstOf_closure_iff hG hstop).2 ⟨xs, x, ys, rfl, ?_, ?_⟩
    · exact fun z hz ho => hxs z hz (open_leads hG ho)
    · exact preferred_resolved hG hx (fun _ => False.elim) (h u hmem) hu
  refine ⟨hforward k, fun hk => ?_⟩
  -- some state that counts is found late as well, and it can be no other
  obtain ⟨k', hk'⟩ := FirstOf.exists_iff.2
    ((exists_resolved_iff hG hstop).2 (FirstOf.exists_iff.1 ⟨k, hk⟩))
  exact (hforward k' hk').unique hk ▸ hk'

/-! ## Closures -/

/-- A closure has no thread twice, and none behind one that shuts out the others. -/
theorem closure_pairwise (ctx : Option LookContext) (seeds : List Nat) :
    (c.closure ctx seeds).Pairwise fun u v => u ≠ v ∧ ¬ c.shutsOut u = true := by
  obtain ⟨_, hv⟩ := Walk.orderUntil_visits (freeTargets c.nfa ctx) c.shutsOut c.nfa.size seeds
  have hlast := (hv.pairwise (by simp)).filter fun s => (c.nfa.state s).important
  exact ((closure_nodup ctx seeds).and hlast).imp fun h => ⟨h.1, by simp [h.2]⟩

/-- If no thread of a key leads back to itself where the looks hold, then the key with its looks
resolved is the closure that follows the looks where they are met. -/
theorem closure_resolved (c : Subset) (ctx : LookContext) (seeds : List Nat)
    (h : ∀ s ∈ c.closure none seeds, ¬ Returns c.nfa ctx s) :
    c.closure (some ctx) (c.closure none seeds) = c.closure (some ctx) seeds := by
  refine eq_of_firstOf (I := Important c.nfa) (closure_pairwise _ _) (closure_pairwise _ _)
    ?_ ?_ ?_ ?_
  · exact fun v hv => important_of_accepting (accepting_of_shutsOut hv)
  · exact fun v hv => (mem_closure.1 hv).2
  · exact fun v hv => (mem_closure.1 hv).2
  · exact fun G hstop hG k => firstOf_resolved hG hstop h k

end Dfa.Subset

/-! ## A look before a loop, and a look within one -/

/-- Before a word byte where none came before. -/
def beforeWord : Dfa.LookContext := ⟨false, false, false, true⟩

/-- The pattern `\b(a*?)*`. -/
def lettersBehindEdge : Pattern := .seq none [.wordEdge none false, nestedLetters]

def lettersBehindEdgeNfa : Nfa where
  states := #[{ edges := #[.look .wordEdge 1] }, { edges := #[.eps 6] },
    { edges := #[.bytes 97 97 3] }, { edges := #[.eps 4] }, { edges := #[.eps 5, .eps 2] },
    { edges := #[.eps 6] }, { edges := #[.eps 4, .eps 7] }, { edges := #[.eps 8] },
    { accept := some 0 }, { edges := #[.eps 0, .eps 10] }, { edges := #[.bytes 0x00 0xff 9] }]
  anchored := 0
  floating := 9

theorem ofPattern_lettersBehindEdge (alpha : Alphabet) :
    Nfa.ofPattern lettersBehindEdge alpha ({} : Tuning).maxNfaStates =
      .ok lettersBehindEdgeNfa := by
  simp only [Nfa.ofPattern_eq, lettersBehindEdge, nestedLetters, Nfa.fragment, Nfa.fragments,
    fragment_letter]
  rfl

/-- The pattern `(\b|a)+`. -/
def edgesOrLetters : Pattern := .rep none (.alt none [.wordEdge none false, letter]) 1 none true

def edgesOrLettersNfa : Nfa where
  states := #[{ edges := #[.look .wordEdge 1] }, { edges := #[.eps 5] },
    { edges := #[.bytes 97 97 3] }, { edges := #[.eps 5] }, { edges := #[.eps 0, .eps 2] },
    { edges := #[.eps 4, .eps 7] }, { edges := #[.eps 4] }, { edges := #[.eps 8] },
    { accept := some 0 }, { edges := #[.eps 6, .eps 10] }, { edges := #[.bytes 0x00 0xff 9] }]
  anchored := 6
  floating := 9

theorem ofPattern_edgesOrLetters (alpha : Alphabet) :
    Nfa.ofPattern edgesOrLetters alpha ({} : Tuning).maxNfaStates = .ok edgesOrLettersNfa := by
  simp only [Nfa.ofPattern_eq, edgesOrLetters, Nfa.fragment, Nfa.fragments, fragment_letter]
  rfl

namespace Dfa.Subset

/-- Empty edges go round within `(a*?)*`, but the look before it is not passed again. -/
theorem closure_resolved_lettersBehindEdge : ∃ n,
    Nfa.ofPattern lettersBehindEdge (Alphabet.build lettersBehindEdge) 500000 = .ok n ∧
      let c := Subset.ofNfa n (Alphabet.build lettersBehindEdge) .leftmostFirst
      (∀ s ∈ c.closure none [n.anchored], ¬ Returns c.nfa beforeWord s) ∧
        c.closure (some beforeWord) (c.closure none [n.anchored])
          = c.closure (some beforeWord) [n.anchored] := by
  refine ⟨lettersBehindEdgeNfa, ofPattern_lettersBehindEdge _, ?_⟩
  intro c
  have hkey : c.closure none [lettersBehindEdgeNfa.anchored] = [0] :=
    closure_of_trace 20 (by decide +kernel)
  have h : ∀ s ∈ c.closure none [lettersBehindEdgeNfa.anchored], ¬ Returns c.nfa beforeWord s := by
    rw [hkey]
    intro s hs
    obtain rfl := List.mem_singleton.1 hs
    rintro ⟨t, ht, hr⟩
    have hnext : freeTargets c.nfa (some beforeWord) 0 = [1] := by decide +kernel
    obtain rfl := List.mem_singleton.1 (hnext ▸ ht)
    -- no edge leads out of the states behind the look
    have hmem := hr.mem (l := [1, 2, 4, 5, 6, 7, 8]) (by decide) (by decide +kernel)
    revert hmem
    decide
  exact ⟨h, closure_resolved c beforeWord [lettersBehindEdgeNfa.anchored] h⟩

/-- In `(\b|a)+` a look stands within a loop. With the looks followed where they are met the loop
is left behind the first one, but the second closure enters it once more and comes to the letter. -/
theorem closure_resolved_edgesOrLetters_ne : ∃ n,
    Nfa.ofPattern edgesOrLetters (Alphabet.build edgesOrLetters) 500000 = .ok n ∧
      let c := Subset.ofNfa n (Alphabet.build edgesOrLetters) .leftmostFirst
      c.closure (some beforeWord) (c.closure none [n.anchored]) = [0, 2, 8] ∧
        c.closure (some beforeWord) [n.anchored] = [0, 8] := by
  refine ⟨edgesOrLettersNfa, ofPattern_edgesOrLetters _, ?_⟩
  intro c
  have hkey : c.closure none [edgesOrLettersNfa.anchored] = [0, 2] :=
    closure_of_trace 20 (by decide +kernel)
  refine ⟨?_, closure_of_trace 20 (by decide +kernel)⟩
  rw [hkey]
  exact closure_of_trace 20 (by decide +kernel)

end Dfa.Subset

end ByteRegex
