-- Where the preferred match of an automaton ends. Behind each byte only the
-- first thread from which a match can still come counts, and the next byte
-- leads on from it: these threads leave a trail, and its end is the last place
-- before which any thread accepts.
import ByteRegex.Proofs.Dfa.Threads

namespace ByteRegex

namespace Nfa

open Dfa.Subset (freeTargets Important)
open Walk (Preferred Open Reach)

variable {n : Nfa} {data : Bytes}

/-! ## The trail -/

/-- From the state before the place `i` a match can still come. -/
def Fertile (n : Nfa) (data : Bytes) (i s : Nat) : Prop := ∃ e, n.Reaches data (s, i) e

/-- The state matters, and a match can still come from it. -/
def Alive (n : Nfa) (data : Bytes) (i s : Nat) : Prop := Important n s ∧ Fertile n data i s

/-- The state accepts, or the next byte leads on to a match. -/
def Ready (n : Nfa) (data : Bytes) (i s : Nat) : Prop :=
  n.Accepting s ∨
    (i < data.size ∧ ∃ t ∈ (n.state s).byteTargets (data.getD i 0), Fertile n data (i + 1) t)

/-- From `s` before the place `i` the thread `k` is the one that counts. The preferred way leads
through empty edges to a state that matters, and from there, now with the looks and with a clean
slate, to a state that is ready. -/
def Elects (n : Nfa) (data : Bytes) (i s k : Nat) : Prop :=
  ∃ u, Preferred (freeTargets n none) (Alive n data i) (fun _ => False) s u ∧
    Preferred (freeTargets n (some (placeOf data i))) (Ready n data i) (fun _ => False) u k

/-- The threads that count lead from a state before a place to the end of a match. -/
inductive Trail (n : Nfa) (data : Bytes) : Nat × Nat → Nat → Prop
  | accept {s i k : Nat} : Elects n data i s k → n.Accepting k → Trail n data (s, i) i
  | move {s i k t e : Nat} {xs ys : List Nat} : Elects n data i s k → ¬ n.Accepting k →
      i < data.size → (n.state k).byteTargets (data.getD i 0) = xs ++ t :: ys →
      (∀ x ∈ xs, ¬ Fertile n data (i + 1) x) → Trail n data (t, i + 1) e → Trail n data (s, i) e

/-! ## Ready states -/

theorem Ready.important {i s : Nat} (h : Ready n data i s) : Important n s := by
  rcases h with h | ⟨_, _, ht, _⟩
  · exact Dfa.Subset.important_of_accepting h
  · exact Dfa.Subset.important_of_byte ht

theorem Ready.fertile {i s : Nat} (h : Ready n data i s) : Fertile n data i s := by
  rcases h with h | ⟨hi, t, ht, e, he⟩
  · exact ⟨i, .accept h⟩
  · exact ⟨e, .move (Dfa.Subset.byte_move hi ht) he⟩

theorem Fertile.of_reach {i s t : Nat} (h : Fertile n data i t)
    (hr : Reach (freeTargets n (some (placeOf data i))) s t) : Fertile n data i s := by
  obtain ⟨e, he⟩ := h
  exact ⟨e, .of_steps (Dfa.Subset.steps_of_reach hr) he⟩

/-- Where a match can still come from, free edges lead to a state that is ready. -/
theorem Fertile.exists_ready {i s : Nat} (h : Fertile n data i s) :
    ∃ k, Reach (freeTargets n (some (placeOf data i))) s k ∧ Ready n data i k := by
  obtain ⟨e, m, hm⟩ := h
  induction m generalizing s with
  | zero =>
    cases hm with
    | accept hacc => exact ⟨s, Reach.refl s, Or.inl hacc⟩
  | succ m ih =>
    cases hm with
    | @move _ _ _ c hc hm =>
      obtain ⟨t, j⟩ := c
      rcases Dfa.Subset.move_cases hc with ⟨hj, hfree⟩ | ⟨hi, hj, hbyte⟩
      · dsimp only at hj
        subst hj
        obtain ⟨k, hr, hk⟩ := ih hm
        exact ⟨k, Reach.head hfree hr, hk⟩
      · dsimp only at hj
        subst hj
        exact ⟨s, Reach.refl s, Or.inr ⟨hi, t, hbyte, e, m, hm⟩⟩

theorem Fertile.open_ready {i s : Nat} (h : Fertile n data i s) :
    Open (freeTargets n (some (placeOf data i))) (Ready n data i) (fun _ => False) s := by
  obtain ⟨k, hr, hk⟩ := h.exists_ready
  exact Open.of_reach hr hk

theorem Fertile.open_alive {i s : Nat} (h : Fertile n data i s) :
    Open (freeTargets n none) (Alive n data i) (fun _ => False) s := by
  obtain ⟨k, hr, hk⟩ := h.exists_ready
  obtain ⟨f, hf, h1, h2⟩ := Dfa.Subset.exists_first_important hr hk.important
  exact Open.of_reach h1 ⟨hf, hk.fertile.of_reach h2⟩

theorem fertile_of_open_ready {i s : Nat} {P : Nat → Prop}
    (h : Open (freeTargets n (some (placeOf data i))) (Ready n data i) P s) :
    Fertile n data i s := by
  obtain ⟨k, hr, hk⟩ := h.reach
  exact hk.fertile.of_reach hr

theorem fertile_of_open_alive {i s : Nat} {P : Nat → Prop}
    (h : Open (freeTargets n none) (Alive n data i) P s) : Fertile n data i s := by
  obtain ⟨k, hr, hk⟩ := h.reach
  exact hk.2.of_reach (Dfa.Subset.reach_of_none hr)

/-! ## The end of a trail -/

theorem Elects.steps {i s k : Nat} (h : Elects n data i s k) : n.Steps data (s, i) (k, i) := by
  obtain ⟨u, h1, h2⟩ := h
  exact (Dfa.Subset.steps_of_reach (Dfa.Subset.reach_of_none h1.reach)).trans
    (Dfa.Subset.steps_of_reach h2.reach)

theorem Elects.ready {i s k : Nat} (h : Elects n data i s k) : Ready n data i k := by
  obtain ⟨u, _, h2⟩ := h
  exact h2.goal_end

theorem Elects.unique {i s k k' : Nat} (h : Elects n data i s k) (h' : Elects n data i s k') :
    k = k' := by
  obtain ⟨u, h1, h2⟩ := h
  obtain ⟨u', h1', h2'⟩ := h'
  obtain rfl := h1.unique h1'
  exact h2.unique h2'

/-- A trail is a path that ends in a match. -/
theorem Trail.reaches {c : Nat × Nat} {e : Nat} (h : Trail n data c e) : n.Reaches data c e := by
  induction h with
  | accept hk hacc => exact .of_steps hk.steps (.accept hacc)
  | @move s i k t e xs ys hk _ hi hb _ _ ih =>
    have hmem : t ∈ (n.state k).byteTargets (data.getD i 0) :=
      hb ▸ List.mem_append_right _ List.mem_cons_self
    exact .of_steps (hk.steps.tail (Dfa.Subset.byte_move hi hmem)) ih

/-- A trail has one end. -/
theorem Trail.unique {c : Nat × Nat} {e e' : Nat} (h : Trail n data c e) (h' : Trail n data c e') :
    e = e' := by
  induction h with
  | accept hk hacc =>
    cases h' with
    | accept => rfl
    | move hk' hnacc => exact absurd (hk.unique hk' ▸ hacc) hnacc
  | move hk hnacc _ hb hxs ht ih =>
    cases h' with
    | accept hk' hacc => exact absurd (hk'.unique hk ▸ hacc) hnacc
    | move hk' _ _ hb' hxs' ht' =>
      obtain rfl := hk.unique hk'
      obtain rfl := Walk.split_unique (hb.symm.trans hb') hxs hxs' ⟨_, ht.reaches⟩
        ⟨_, ht'.reaches⟩
      exact ih ht'

end Nfa

namespace Dfa.Subset

open Walk (Preferred Open Reach Visits)
open Nfa (Fertile Alive Ready Elects Trail)

variable {c : Subset} {data : Bytes}

/-! ## Threads leave a trail -/

theorem filter_append_cons {P : Nat → Bool} {l l' : List Nat} {k : Nat} (hk : P k = true) :
    (l ++ k :: l').filter P = l.filter P ++ k :: l'.filter P := by
  rw [List.filter_append, List.filter_cons, if_pos hk]

/-- The first goal of a closure is the one that is preferred. -/
theorem closure_first {ctx : Option LookContext} {G : Nat → Prop} {xs ys : List Nat} {x : Nat}
    (hG : ∀ v, G v → Important c.nfa v) (hstop : ∀ v, c.shutsOut v = true → G v)
    (hxs : ∀ z ∈ xs, ¬ Open (freeTargets c.nfa ctx) G (fun _ => False) z)
    (hx : Open (freeTargets c.nfa ctx) G (fun _ => False) x) :
    ∃ l k l', c.closure ctx (xs ++ x :: ys) = l ++ k :: l' ∧ (∀ u ∈ l, ¬ G u) ∧ G k ∧
      Preferred (freeTargets c.nfa ctx) G (fun _ => False) x k := by
  obtain ⟨b, hv⟩ := Walk.orderUntil_visits (freeTargets c.nfa ctx) c.shutsOut c.nfa.size
    (xs ++ x :: ys)
  have hout : ∀ v, c.nfa.size ≤ v → freeTargets c.nfa ctx v = [] ∧ ¬ G v := by
    intro v hv
    refine ⟨?_, fun hg => absurd (important_lt (hG v hg)) (Nat.not_lt_of_le hv)⟩
    rw [freeTargets, Nfa.state_of_le hv]
    rfl
  obtain ⟨l, k, l', heq, hl, hk, hpref⟩ := hv.preferred rfl hout hstop Walk.Spent.nil hxs hx
  refine ⟨l.filter fun s => (c.nfa.state s).important, k,
    l'.filter fun s => (c.nfa.state s).important, ?_,
    fun u hu => hl u (List.mem_filter.1 hu).1, hk, hpref⟩
  rw [closure, heq]
  exact filter_append_cons (P := fun s => (c.nfa.state s).important) (hG k hk)

/-- Of the threads that are resolved the first one that is ready is the one that counts. -/
theorem resolve_first (hkind : c.kind = .leftmostFirst) {i t : Nat} {pre : List Nat}
    (hpre : ∀ x ∈ pre, ¬ Fertile c.nfa data i x) (ht : Fertile c.nfa data i t)
    (post : List Nat) :
    ∃ l k l', c.resolve data i (pre ++ t :: post) = l ++ k :: l' ∧
      (∀ u ∈ l, ¬ Ready c.nfa data i u) ∧ Ready c.nfa data i k ∧ Elects c.nfa data i t k := by
  have hcanonical : ∀ l, c.canonical l = l := fun l => by rw [canonical, hkind]
  obtain ⟨l, u, l', heq, hl, hu, hpref⟩ := closure_first (c := c)
    (G := Alive c.nfa data i) (fun v hv => hv.1)
    (fun v hv => ⟨important_of_accepting (accepting_of_shutsOut hv), i,
      .accept (accepting_of_shutsOut hv)⟩)
    (fun z hz ho => hpre z hz (Nfa.fertile_of_open_alive ho)) ht.open_alive
  have himp : ∀ v ∈ l, Important c.nfa v := by
    intro v hv
    have hmem : v ∈ c.closure none (pre ++ t :: post) := heq ▸ List.mem_append_left _ hv
    exact (mem_closure.1 hmem).2
  obtain ⟨m, k, m', heq', hm, hk, hpref'⟩ := closure_first (c := c)
    (G := Ready c.nfa data i) (fun v hv => hv.important)
    (fun v hv => Or.inl (accepting_of_shutsOut hv))
    (fun z hz ho => hl z hz ⟨himp z hz, Nfa.fertile_of_open_ready ho⟩) hu.2.open_ready
  refine ⟨m, k, m', ?_, hm, hk, u, hpref, hpref'⟩
  rw [resolve, heq, hcanonical, heq']

/-- The seeds behind the first byte have a search of their own. -/
theorem seedsAfter_succ (start : Nat) (seeds : List Nat) (m : Nat) :
    c.seedsAfter data start seeds (m + 1) =
      c.seedsAfter data (start + 1) (c.advance data start seeds) m := by
  induction m with
  | zero => rfl
  | succ m ih =>
    rw [seedsAfter, ih, seedsAfter, show start + (m + 1) = start + 1 + m by omega]

theorem accepts_succ {start i : Nat} {seeds : List Nat} (h : start < i) :
    c.Accepts data start seeds i ↔ c.Accepts data (start + 1) (c.advance data start seeds) i := by
  rw [Accepts, Accepts, show i - start = i - (start + 1) + 1 by omega, seedsAfter_succ]

theorem accepts_start {start : Nat} {seeds : List Nat} :
    c.Accepts data start seeds start ↔ ∃ t ∈ c.resolve data start seeds, c.nfa.Accepting t := by
  rw [Accepts, Nat.sub_self]
  rfl

/-- The threads behind a byte, where the first one that is ready does not accept. -/
theorem advance_move {i k : Nat} {seeds l l' : List Nat}
    (h : c.resolve data i seeds = l ++ k :: l') (hl : ∀ u ∈ l, ¬ c.nfa.Accepting u)
    (hk : ¬ c.nfa.Accepting k) :
    ∃ rest, c.advance data i seeds =
      (l.flatMap fun s => (c.nfa.state s).byteTargets (data.getD i 0)) ++
        ((c.nfa.state k).byteTargets (data.getD i 0) ++ rest) := by
  have hpass : ∀ u, ¬ c.nfa.Accepting u → (!c.shutsOut u) = true := by
    intro u hu
    rw [Bool.not_eq_true']
    by_contra hc
    exact hu (accepting_of_shutsOut (by simpa using hc))
  refine ⟨(l'.takeWhile fun s => !c.shutsOut s).flatMap fun s =>
    (c.nfa.state s).byteTargets (data.getD i 0), ?_⟩
  rw [advance, h, List.takeWhile_append_of_pos fun u hu => hpass u (hl u hu), List.takeWhile_cons,
    if_pos (hpass k hk), List.flatMap_append, List.flatMap_cons]

/-- The threads behind a byte, where the first one that is ready accepts. -/
theorem advance_accept (hkind : c.kind = .leftmostFirst) {i k : Nat} {seeds l l' : List Nat}
    (h : c.resolve data i seeds = l ++ k :: l') (hl : ∀ u ∈ l, ¬ c.nfa.Accepting u)
    (hk : c.nfa.Accepting k) :
    c.advance data i seeds = l.flatMap fun s => (c.nfa.state s).byteTargets (data.getD i 0) := by
  have hshut : ∀ u, c.shutsOut u = (c.nfa.state u).accept.isSome := by
    intro u
    rw [shutsOut, hkind]
    rfl
  have hpass : ∀ u ∈ l, (!c.shutsOut u) = true := by
    intro u hu
    rw [Bool.not_eq_true', hshut]
    exact Bool.eq_false_iff.2 (hl u hu)
  rw [advance, h, List.takeWhile_append_of_pos hpass, List.takeWhile_cons, if_neg,
    List.append_nil]
  rw [hshut, show (c.nfa.state k).accept.isSome = true from hk]
  decide

/-- No thread accepts where no seed leads to a match. -/
theorem not_accepts {i e : Nat} {seeds : List Nat} (h : ∀ s ∈ seeds, ¬ Fertile c.nfa data i s)
    (hi : i ≤ e) (he : e ≤ data.size) : ¬ c.Accepts data i seeds e := by
  intro hacc
  obtain ⟨s, hs, hr⟩ := hacc.reaches hi he
  exact h s hs ⟨e, hr⟩

/-- The first seed that leads to a match leaves a trail to the last place before which threads
accept. -/
theorem rightmost_trail (hkind : c.kind = .leftmostFirst) {i t : Nat} {seeds pre post : List Nat}
    (hseeds : seeds = pre ++ t :: post) (hpre : ∀ x ∈ pre, ¬ Fertile c.nfa data i x)
    (ht : Fertile c.nfa data i t) (hi : i ≤ data.size) :
    ∃ e, Trail c.nfa data (t, i) e ∧ Rightmost (c.Accepts data i seeds) i data.size (some e) := by
  induction hd : data.size - i generalizing i t seeds pre post with
  | zero =>
    subst hseeds
    obtain ⟨l, k, l', heq, hl, hk, helect⟩ := resolve_first hkind hpre ht post
    have hacc : c.nfa.Accepting k := hk.resolve_right fun h => absurd h.1 (by omega)
    refine ⟨i, .accept helect hacc, Nat.le_refl i, hi, accepts_start.2 ⟨k, ?_, hacc⟩,
      fun j hj hj' => by omega⟩
    rw [heq]
    exact List.mem_append_right _ List.mem_cons_self
  | succ m ih =>
    subst hseeds
    obtain ⟨l, k, l', heq, hl, hk, helect⟩ := resolve_first hkind hpre ht post
    have hlt : i < data.size := by omega
    have hnacc : ∀ u ∈ l, ¬ c.nfa.Accepting u := fun u hu hc => hl u hu (Or.inl hc)
    have hbarren : ∀ v ∈ l.flatMap fun s => (c.nfa.state s).byteTargets (data.getD i 0),
        ¬ Fertile c.nfa data (i + 1) v := by
      intro v hv hf
      obtain ⟨u, hu, hvu⟩ := List.mem_flatMap.1 hv
      exact hl u hu (Or.inr ⟨hlt, v, hvu, hf⟩)
    by_cases hacc : c.nfa.Accepting k
    · refine ⟨i, .accept helect hacc, Nat.le_refl i, hi, accepts_start.2 ⟨k, ?_, hacc⟩,
        fun j hj hj' => ?_⟩
      · rw [heq]
        exact List.mem_append_right _ List.mem_cons_self
      · rw [accepts_succ hj, advance_accept hkind heq hnacc hacc]
        exact not_accepts hbarren hj hj'
    · obtain ⟨_, htargets⟩ := hk.resolve_left hacc
      obtain ⟨xs, u, ys, hsplit, hxs, hu⟩ := Walk.exists_first htargets
      obtain ⟨rest, hadv⟩ := advance_move heq hnacc hacc
      have hseeds : c.advance data i (pre ++ t :: post) =
          ((l.flatMap fun s => (c.nfa.state s).byteTargets (data.getD i 0)) ++ xs) ++
            u :: (ys ++ rest) := by
        rw [hadv, hsplit]
        simp only [List.append_assoc, List.cons_append]
      obtain ⟨e, htrail, h1, h2, h3, h4⟩ := ih hseeds
        (fun v hv => (List.mem_append.1 hv).elim (hbarren v) (hxs v)) hu hlt (by omega)
      refine ⟨e, .move helect hacc hlt hsplit hxs htrail, by omega, h2,
        (accepts_succ (by omega)).2 h3, fun j hj hj' => ?_⟩
      rw [accepts_succ (by omega)]
      exact h4 j hj hj'

end Dfa.Subset

end ByteRegex
