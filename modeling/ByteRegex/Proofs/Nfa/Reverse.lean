-- The automaton for the way back: over the reversed text it takes the moves of
-- the first one backwards, from behind a match to the place before it.
import ByteRegex.Proofs.Nfa.Closed
import ByteRegex.Proofs.Walk

namespace ByteRegex.Nfa

/-! ## The edges of the way back -/

/-- Every state has got some edges behind its own. -/
structure Appends (a a' : Arena) (added : Nat → List Edge) : Prop where
  size_eq : Array.size a' = a.size
  state : ∀ t, stateIn a' t =
    { stateIn a t with edges := (stateIn a t).edges ++ (added t).toArray }

theorem Appends.refl (a : Arena) : Appends a a fun _ => [] :=
  ⟨rfl, fun t => by simp⟩

theorem Appends.trans {a a' a'' : Arena} {f g : Nat → List Edge} (h : Appends a a' f)
    (h' : Appends a' a'' g) : Appends a a'' fun t => f t ++ g t where
  size_eq := h'.size_eq.trans h.size_eq
  state t := by
    rw [h'.state, h.state]
    simp [Array.append_assoc]

theorem addEdge_appends {a : Arena} {s : Nat} (e : Edge) (hs : s < a.size) :
    Appends a (a.addEdge s e) fun t => if t = s then [e] else [] where
  size_eq := size_addEdge
  state t := by
    rw [stateIn_addEdge hs]
    split
    · rename_i h
      subst h
      simp
    · simp

theorem foldl_appends {α : Type} {f : Arena → α → Arena} {g : α → Nat → List Edge} {l : List α}
    {a : Arena} (h : ∀ x ∈ l, ∀ a' : Arena, a'.size = a.size → Appends a' (f a' x) (g x)) :
    Appends a (l.foldl f a) fun t => l.flatMap fun x => g x t := by
  induction l generalizing a with
  | nil => exact Appends.refl a
  | cons x l ih =>
    have hx := h x List.mem_cons_self a rfl
    have hl := ih (a := f a x) fun y hy a' ha' =>
      h y (List.mem_cons_of_mem x hy) a' (ha'.trans hx.size_eq)
    exact hx.trans hl

/-- The ways back from `t` to the state `s`. -/
def waysBack (n : Nfa) (start s t : Nat) : List Edge :=
  (if (n.state s).accept.isSome = true ∧ t = start then [.eps s] else [])
    ++ (n.state s).edges.toList.flatMap fun e => if t = e.target then [e.reverse s] else []

/-- The states from which there are ways back. -/
def live (n : Nfa) : List Nat :=
  (List.range n.size).filter (Walk.reachable n.targets n.size [n.anchored]).contains

theorem addReversed_appends {n : Nfa} {start s : Nat} {a : Arena} (hstart : start < a.size)
    (ht : ∀ e ∈ (n.state s).edges.toList, e.target < a.size) :
    Appends a (n.addReversed start a s) (n.waysBack start s) := by
  have hfirst : Appends a (if (n.state s).accept.isSome then a.addEdge start (.eps s) else a)
      fun t => if (n.state s).accept.isSome = true ∧ t = start then [.eps s] else [] := by
    cases (n.state s).accept.isSome with
    | true => simpa using addEdge_appends (.eps s) hstart
    | false => simpa using Appends.refl a
  refine hfirst.trans ?_
  rw [addReversed, ← Array.foldl_toList]
  refine foldl_appends fun e he a' ha' => ?_
  refine addEdge_appends _ ?_
  have := ht e he
  have := hfirst.size_eq
  omega

/-- All edges lead to states of the automaton, and none tells bytes of one class from one another,
nor asks for more of a byte than its class tells. -/
structure Neat (R : UInt8 → UInt8 → Prop) (n : Nfa) : Prop where
  target : ∀ t, ∀ e ∈ (n.state t).edges.toList, e.target < n.size
  bytes : ∀ t b b', R b b' → (n.state t).byteTargets b = (n.state t).byteTargets b'
  words : ∀ t, ∀ e ∈ (n.state t).edges.toList, e.asksWords = true → WordsApart R
  floating : n.floating < n.size

variable {R : UInt8 → UInt8 → Prop} {n : Nfa} {data : Bytes}

theorem reverse_states (n : Nfa) :
    n.reverse.states = Arena.setAccept
      (n.live.foldl (n.addReversed n.size) (Array.replicate (n.size + 1) {})) n.anchored 0 := rfl

theorem size_reverse (h : Neat R n) : n.reverse.size = n.size + 1 := by
  have := foldl_appends (a := Array.replicate (n.size + 1) {}) (f := n.addReversed n.size)
    (l := n.live) fun s _ a ha => addReversed_appends
      (by rw [ha, Array.size_replicate]; omega)
      (fun e he => by rw [ha, Array.size_replicate]; exact Nat.lt_succ_of_lt (h.target s e he))
  exact size_setAccept.trans (this.size_eq.trans Array.size_replicate)

theorem state_reverse (h : Neat R n) (ha : n.anchored < n.size) (t : Nat) :
    n.reverse.state t =
      ⟨(n.live.flatMap fun s => n.waysBack n.size s t).toArray,
        if t = n.anchored then some 0 else none⟩ := by
  have happ := foldl_appends (a := Array.replicate (n.size + 1) {}) (f := n.addReversed n.size)
    (l := n.live) fun s _ a ha => addReversed_appends
      (by rw [ha, Array.size_replicate]; omega)
      (fun e he => by rw [ha, Array.size_replicate]; exact Nat.lt_succ_of_lt (h.target s e he))
  have hnew : ∀ u, stateIn (Array.replicate (n.size + 1) {}) u = {} := by
    intro u
    simp only [stateIn, Array.getD_eq_getD_getElem?, Array.getElem?_replicate]
    split <;> rfl
  have hsize := happ.size_eq.trans Array.size_replicate
  rw [show n.reverse.state t = stateIn n.reverse.states t from rfl, reverse_states,
    stateIn_setAccept (by omega), happ.state, happ.state, hnew, hnew]
  split
  · rename_i heq
    subst heq
    simp
  · simp

/-! ## The ways back are even -/

theorem byteTargets_waysBack (start s t : Nat) (b : UInt8) :
    (n.waysBack start s t).filterMap (Dfa.Subset.byteTarget? b)
      = (((n.state s).byteTargets b).filter (t = ·)).map fun _ => s := by
  have hfirst :
      (if (n.state s).accept.isSome = true ∧ t = start then [Edge.eps s] else []).filterMap
      (Dfa.Subset.byteTarget? b) = [] := by
    split <;> rfl
  rw [waysBack, List.filterMap_append, hfirst, List.nil_append, State.byteTargets]
  induction (n.state s).edges.toList with
  | nil => rfl
  | cons e es ih =>
    rw [List.flatMap_cons, List.filterMap_append, ih, List.filterMap_cons]
    cases e with
    | eps u => by_cases hu : t = u <;> simp [hu, Edge.target, Edge.reverse, Dfa.Subset.byteTarget?]
    | look k u =>
      by_cases hu : t = u <;> simp [hu, Edge.target, Edge.reverse, Dfa.Subset.byteTarget?]
    | bytes lo hi u =>
      by_cases hu : t = u <;> by_cases hb : lo ≤ b ∧ b ≤ hi <;>
        simp [hu, hb, Edge.target, Edge.reverse, Dfa.Subset.byteTarget?]

theorem target_reverse (e : Edge) (s : Nat) : (e.reverse s).target = s := by cases e <;> rfl

theorem asksWords_reverse (e : Edge) (s : Nat) : (e.reverse s).asksWords = e.asksWords := by
  cases e with
  | eps t => rfl
  | bytes lo hi t => rfl
  | look k t => cases k <;> rfl

/-- An edge of the reversed automaton leads from a start to a state that accepted, or is the
reverse of an edge. -/
theorem mem_edges_reverse (h : Neat R n) (ha : n.anchored < n.size) {t : Nat} {e : Edge}
    (he : e ∈ (n.reverse.state t).edges.toList) :
    ∃ s < n.size, e = .eps s ∨ ∃ e' ∈ (n.state s).edges.toList, e = e'.reverse s := by
  rw [state_reverse h ha] at he
  obtain ⟨s, hs, he⟩ := List.mem_flatMap.1 he
  refine ⟨s, List.mem_range.1 (List.mem_filter.1 hs).1, ?_⟩
  rcases List.mem_append.1 he with he | he
  · split at he
    · exact Or.inl (List.mem_singleton.1 he)
    · cases he
  · obtain ⟨e', he', he⟩ := List.mem_flatMap.1 he
    split at he
    · exact Or.inr ⟨e', he', List.mem_singleton.1 he⟩
    · cases he

theorem Neat.reverse (h : Neat R n) (ha : n.anchored < n.size) : Neat R n.reverse where
  target t e he := by
    rw [size_reverse h]
    obtain ⟨s, hs, rfl | ⟨e', _, rfl⟩⟩ := mem_edges_reverse h ha he
    · exact Nat.lt_succ_of_lt hs
    · rw [target_reverse]
      exact Nat.lt_succ_of_lt hs
  words t e he hw := by
    obtain ⟨s, _, rfl | ⟨e', he', rfl⟩⟩ := mem_edges_reverse h ha he
    · cases hw
    · exact h.words s e' he' (asksWords_reverse e' s ▸ hw)
  bytes t b b' hb := by
    have hflat : ∀ c, (n.reverse.state t).byteTargets c =
        n.live.flatMap fun s => (((n.state s).byteTargets c).filter (t = ·)).map fun _ => s := by
      intro c
      rw [State.byteTargets, state_reverse h ha, List.filterMap_flatMap]
      simp only [byteTargets_waysBack]
    rw [hflat, hflat]
    simp only [h.bytes _ b b' hb]
  floating := by
    rw [size_reverse h]
    exact Nat.lt_succ_self _

/-! ## The place in the reversed text -/

theorem reverse_getElem? {i : Nat} (hi : i < data.size) :
    data.reverse[data.size - (i + 1)]? = data[i]? := by
  rw [Array.getElem?_reverse (by omega)]
  congr 1
  omega

theorem wordAt_reverse {i : Nat} (hi : i ≤ data.size) :
    Matcher.wordAt data.reverse (data.size - i) = Matcher.wordBefore data i := by
  rw [Matcher.wordAt, Matcher.wordBefore]
  rcases Nat.eq_zero_or_pos i with rfl | hpos
  · rw [Array.getElem?_eq_none (by simp)]
    rfl
  · obtain ⟨i, rfl⟩ := Nat.exists_eq_add_of_lt hpos
    rw [Nat.zero_add] at hi ⊢
    rw [reverse_getElem? hi]
    rfl

theorem wordBefore_reverse {i : Nat} (hi : i ≤ data.size) :
    Matcher.wordBefore data.reverse (data.size - i) = Matcher.wordAt data i := by
  have hsize : data.reverse.size = data.size := Array.size_reverse
  have h := @wordAt_reverse data.reverse (data.size - i) (by omega)
  rw [Array.reverse_reverse, hsize, Nat.sub_sub_self hi] at h
  exact h.symm

theorem holds_reverse (k : Look) {i : Nat} (hi : i ≤ data.size) :
    (placeOf data.reverse (data.size - i)).holds k.reverse = (placeOf data i).holds k := by
  cases k with
  | textStart =>
    simp only [placeOf, Look.reverse, Dfa.LookContext.holds, Array.size_reverse]
    rw [Bool.eq_iff_iff, beq_iff_eq, beq_iff_eq]
    omega
  | textEnd =>
    simp only [placeOf, Look.reverse, Dfa.LookContext.holds]
    rw [Bool.eq_iff_iff, beq_iff_eq, beq_iff_eq]
    omega
  | wordEdge =>
    simp only [placeOf, Look.reverse, Dfa.LookContext.holds, wordAt_reverse hi,
      wordBefore_reverse hi]
    exact bne_comm
  | notWordEdge =>
    simp only [placeOf, Look.reverse, Dfa.LookContext.holds, wordAt_reverse hi,
      wordBefore_reverse hi]
    exact BEq.comm

/-- An edge leads from one place to another just if its reverse leads back. -/
theorem next?_reverse {e : Edge} {i j : Nat} (s : Nat) (hi : i ≤ data.size) (hj : j ≤ data.size) :
    (e.reverse s).next? data.reverse (data.size - j) = some (s, data.size - i) ↔
      e.next? data i = some (e.target, j) := by
  cases e with
  | eps t =>
    simp only [Edge.reverse, Edge.next?, Edge.target, Option.some.injEq, Prod.mk.injEq, true_and]
    omega
  | bytes lo hi' t =>
    rw [Edge.reverse, next?_bytes, next?_bytes]
    simp only [Edge.target, Prod.mk.injEq, true_and]
    constructor
    · rintro ⟨b, hb, h1, h2, heq⟩
      obtain rfl : j = i + 1 := by omega
      exact ⟨b, (reverse_getElem? hj).symm.trans hb, h1, h2, rfl⟩
    · rintro ⟨b, hb, h1, h2, rfl⟩
      exact ⟨b, (reverse_getElem? hj).trans hb, h1, h2, by omega⟩
  | look k t =>
    rw [Edge.reverse, next?_look, next?_look]
    simp only [Edge.target, Prod.mk.injEq, true_and]
    constructor
    · rintro ⟨hk, heq⟩
      obtain rfl : j = i := by omega
      exact ⟨(holds_reverse k hj).symm.trans hk, rfl⟩
    · rintro ⟨hk, rfl⟩
      exact ⟨(holds_reverse k hj).trans hk, rfl⟩

theorem next?_target {e : Edge} {i : Nat} {c : Nat × Nat} (h : e.next? data i = some c) :
    c.1 = e.target := by
  cases e with
  | eps t => rw [← Option.some.inj h, Edge.target]
  | bytes lo hi t =>
    obtain ⟨_, _, _, _, rfl⟩ := next?_bytes.1 h
    rfl
  | look k t =>
    obtain ⟨_, rfl⟩ := next?_look.1 h
    rfl

/-! ## The way back -/

theorem mem_waysBack {start s t : Nat} {e : Edge} :
    e ∈ n.waysBack start s t ↔ (n.Accepting s ∧ t = start ∧ e = .eps s) ∨
      ∃ e' ∈ (n.state s).edges.toList, e'.target = t ∧ e = e'.reverse s := by
  rw [waysBack, List.mem_append, List.mem_flatMap]
  refine or_congr ?_ (exists_congr fun e' => and_congr Iff.rfl ?_)
  · rw [Accepting]
    split <;> simp_all
  · by_cases h : t = e'.target
    · simp [h]
    · simp [h, Ne.symm h]

theorem anchored_live (ha : n.anchored < n.size) : n.anchored ∈ n.live :=
  List.mem_filter.2 ⟨List.mem_range.2 ha, Walk.start_reachable (List.mem_singleton_self _) ha⟩

theorem target_live (h : Neat R n) {s : Nat} (hs : s ∈ n.live) {e : Edge}
    (he : e ∈ (n.state s).edges.toList) : e.target ∈ n.live := by
  have ht := h.target s e he
  refine List.mem_filter.2 ⟨List.mem_range.2 ht, ?_⟩
  exact Walk.step_reachable (List.mem_filter.1 hs).2 (List.mem_map_of_mem he) ht

theorem moves_target (h : Neat R n) {c c' : Nat × Nat} (hm : c' ∈ n.moves data c) :
    c'.1 < n.size := by
  obtain ⟨e, he, hn⟩ := mem_moves.1 hm
  rw [next?_target hn]
  exact h.target _ e he

/-- A move is taken back between the mirrored places. -/
theorem reverse_move (h : Neat R n) (ha : n.anchored < n.size) {s t i j : Nat}
    (hs : s ∈ n.live) (hi : i ≤ data.size) (hj : j ≤ data.size)
    (hm : (t, j) ∈ n.moves data (s, i)) :
    (s, data.size - i) ∈ n.reverse.moves data.reverse (t, data.size - j) := by
  obtain ⟨e, he, hn⟩ := mem_moves.1 hm
  obtain rfl : t = e.target := next?_target hn
  refine mem_moves.2 ⟨e.reverse s, ?_, (next?_reverse s hi hj).2 hn⟩
  rw [state_reverse h ha]
  exact List.mem_flatMap.2 ⟨s, hs, mem_waysBack.2 (Or.inr ⟨e, he, rfl, rfl⟩)⟩

/-- A move back is that of some edge, or leads from the new start to where the automaton
accepts. -/
theorem move_of_reverse (h : Neat R n) (ha : n.anchored < n.size) {t k : Nat} {c : Nat × Nat}
    (hk : k ≤ data.size) (hm : c ∈ n.reverse.moves data.reverse (t, k)) :
    c.2 ≤ data.size ∧ ((t = n.size ∧ n.Accepting c.1 ∧ c.2 = k) ∨
      (t, data.size - k) ∈ n.moves data (c.1, data.size - c.2)) := by
  have hc : c.2 ≤ data.size := by
    have := moves_place hm
    rw [Array.size_reverse] at this
    dsimp only at this
    omega
  refine ⟨hc, ?_⟩
  obtain ⟨e, he, hn⟩ := mem_moves.1 hm
  rw [state_reverse h ha] at he
  obtain ⟨s, _, he⟩ := List.mem_flatMap.1 he
  rcases mem_waysBack.1 he with ⟨hacc, ht, rfl⟩ | ⟨e', he', rfl, rfl⟩
  · rw [← Option.some.inj hn]
    exact Or.inl ⟨ht, hacc, rfl⟩
  · have hs : c.1 = s := by
      rw [next?_target hn]
      cases e' <;> rfl
    subst hs
    refine Or.inr (mem_moves.2 ⟨e', he', (next?_reverse c.1 (by omega) (by omega)).1 ?_⟩)
    rw [Nat.sub_sub_self hk, Nat.sub_sub_self hc]
    exact hn

theorem reverse_steps (h : Neat R n) (ha : n.anchored < n.size) {i : Nat} {d : Nat × Nat}
    (hi : i ≤ data.size) (hd : Steps n data (n.anchored, i) d) :
    d.1 ∈ n.live ∧ Steps n.reverse data.reverse (d.1, data.size - d.2)
      (n.anchored, data.size - i) := by
  induction hd with
  | refl => exact ⟨anchored_live ha, Steps.refl _⟩
  | tail hs hm ih =>
    obtain ⟨hl, hback⟩ := ih
    have hle := Steps.le_size hs hi
    have hle' := Steps.le_size (Steps.tail hs hm) hi
    refine ⟨?_, Steps.head (reverse_move h ha hl hle hle' hm) hback⟩
    obtain ⟨e, he, hn⟩ := mem_moves.1 hm
    rw [next?_target hn]
    exact target_live h hl he

theorem accepting_reverse (h : Neat R n) (ha : n.anchored < n.size) {t : Nat} :
    n.reverse.Accepting t ↔ t = n.anchored := by
  rw [Accepting, state_reverse h ha]
  by_cases ht : t = n.anchored <;> simp [ht]

theorem steps_of_reverse (h : Neat R n) (ha : n.anchored < n.size) {m e : Nat} {c : Nat × Nat}
    (hc : c.2 ≤ data.size) (he : Ends n.reverse data.reverse m c e) :
    e ≤ data.size ∧ (Steps n data (n.anchored, data.size - e) (c.1, data.size - c.2) ∨
      (c.1 = n.size ∧
        ∃ s, n.Accepting s ∧ Steps n data (n.anchored, data.size - e) (s, data.size - c.2))) := by
  induction he with
  | accept hacc =>
    rw [(accepting_reverse h ha).1 hacc]
    exact ⟨hc, Or.inl (Steps.refl _)⟩
  | move hm _ ih =>
    obtain ⟨hle, hmove⟩ := move_of_reverse h ha hc hm
    obtain ⟨he, hsteps⟩ := ih hle
    refine ⟨he, ?_⟩
    rcases hmove with ⟨ht, hacc, heq⟩ | hmove
    · rw [← heq]
      rcases hsteps with hs | ⟨_, hrest⟩
      · exact Or.inr ⟨ht, _, hacc, hs⟩
      · exact Or.inr ⟨ht, hrest⟩
    · rcases hsteps with hs | ⟨heq, _⟩
      · exact Or.inl (Steps.tail hs hmove)
      · -- no edge leads out of a state that is not there
        exfalso
        rw [heq, mem_moves] at hmove
        obtain ⟨e', he', _⟩ := hmove
        rw [state_of_le (Nat.le_refl _)] at he'
        simp at he'

/-- Back from a place the reversed automaton gets to accept where `n` has started that accepts at
the place. -/
theorem Neat.reaches_reverse (h : Neat R n) (ha : n.anchored < n.size) {j k : Nat}
    (hj : j ≤ data.size) :
    Reaches n.reverse data.reverse (n.reverse.anchored, j) k ↔
      k ≤ data.size ∧ Reaches n data (n.anchored, data.size - k) (data.size - j) := by
  constructor
  · rintro ⟨m, hm⟩
    obtain ⟨hk, hs | ⟨_, hs⟩⟩ := steps_of_reverse h ha hj hm
    · -- no edge of `n` leads to the new start
      exfalso
      rcases Relation.ReflTransGen.cases_tail hs with heq | ⟨c, _, hmove⟩
      · exact Nat.ne_of_lt ha (Prod.mk.inj heq).1.symm
      · exact Nat.lt_irrefl _ (moves_target h hmove)
    · exact ⟨hk, Reaches.iff_steps.2 hs⟩
  · rintro ⟨hk, hr⟩
    obtain ⟨t, ht, hs⟩ := Reaches.iff_steps.1 hr
    obtain ⟨hl, hback⟩ := reverse_steps h ha (Nat.sub_le _ _) hs
    rw [Nat.sub_sub_self hk, Nat.sub_sub_self hj] at hback
    refine Reaches.iff_steps.2 ⟨n.anchored, (accepting_reverse h ha).2 rfl, Steps.head ?_ hback⟩
    refine mem_moves.2 ⟨.eps t, ?_, rfl⟩
    rw [state_reverse h ha]
    exact List.mem_flatMap.2 ⟨t, hl, mem_waysBack.2 (Or.inl ⟨ht, rfl, rfl⟩)⟩

theorem Closed.neat {p : Pattern} {out goal skipping : Nat} (h : Closed R n p out goal skipping) :
    Neat R n := ⟨h.target, h.bytes, h.words, h.starts.2⟩

/-- Back from behind a match the automaton gets to accept at the places where such a match
starts. -/
theorem Closed.reaches_reverse {p : Pattern} {out goal skipping : Nat}
    (h : Closed R n p out goal skipping) {j k : Nat} (hj : j ≤ data.size) :
    Reaches n.reverse data.reverse (n.reverse.floating, j) k ↔
      k ≤ data.size ∧ Matches data p (data.size - k) (data.size - j) := by
  rw [← h.reaches_anchored]
  exact h.neat.reaches_reverse h.starts.1 hj

/-! ## Reversal of any automaton -/

/-- All edges lead to states, and both starts are states. -/
structure WellFormed (n : Nfa) : Prop where
  target : ∀ s < n.size, ∀ e ∈ (n.state s).edges.toList, e.target < n.size
  anchored : n.anchored < n.size
  floating : n.floating < n.size

/-- If every byte is a class of its own, there is nothing to tell apart. -/
theorem WellFormed.neat (h : WellFormed n) : Neat Eq n where
  target t e he := by
    by_cases ht : t < n.size
    · exact h.target t ht e he
    · rw [state_of_le (Nat.le_of_not_lt ht)] at he
      simp at he
  bytes t b b' hb := by rw [hb]
  words t e he hw := by
    intro b b' hb
    rw [hb]
  floating := h.floating

/-- The reversed automaton has one start, and one state that accepts. Its paths over the reversed
text lead from the mirror of one place to the mirror of another just where `n` gets to accept
between the two. -/
theorem reverse_exact (h : WellFormed n) :
    n.reverse.floating = n.reverse.anchored ∧
      (∀ t, n.reverse.Accepting t ↔ t = n.anchored) ∧
      ∀ (data : Bytes) (i j : Nat), i ≤ j → j ≤ data.size →
        ((∃ t, n.Accepting t ∧ n.Steps data (n.anchored, i) (t, j)) ↔
          n.reverse.Steps data.reverse (n.reverse.anchored, data.size - j)
            (n.anchored, data.size - i)) := by
  have hgoal : ∀ t, n.reverse.Accepting t ↔ t = n.anchored :=
    fun t => accepting_reverse h.neat h.anchored
  refine ⟨rfl, hgoal, fun data i j hij hj => ?_⟩
  rw [steps_iff_reaches hgoal, h.neat.reaches_reverse h.anchored (Nat.sub_le _ _),
    Nat.sub_sub_self hj, Nat.sub_sub_self (Nat.le_trans hij hj), ← Reaches.iff_steps]
  exact iff_and_self.2 fun _ => Nat.sub_le _ _

/-! ## A knot -/

/-- All kinds of edges leave the first state, two of them for the byte `a`. The empty edges run in
circles, two states accept, and one more that cannot be reached. -/
def knot : Nfa where
  states := #[
    { edges := #[.eps 1, .look .wordEdge 2, .bytes 97 97 1, .bytes 97 98 2, .bytes 98 98 1] },
    { edges := #[.eps 0, .bytes 0 255 0] },
    { edges := #[.look .textEnd 3], accept := some 1 },
    { edges := #[.eps 2], accept := some 0 },
    { edges := #[.eps 0, .look .textStart 3], accept := some 0 }]
  anchored := 0
  floating := 0

theorem knot_wellFormed : WellFormed knot := ⟨by decide, by decide, by decide⟩

/-- Over the empty edge, the full stop and the word edge the knot accepts before the `b` of `.b`. -/
theorem knot_steps : knot.Steps #[46, 98] (0, 0) (2, 1) := by
  refine Steps.head (show (1, 0) ∈ _ by decide) (Steps.head (show (0, 1) ∈ _ by decide) ?_)
  exact Steps.head (show (2, 1) ∈ _ by decide) (Steps.refl _)

theorem knot_accepting : knot.Accepting 2 := by
  unfold Accepting
  decide

theorem reverse_exact_knot : knot.reverse.Steps #[98, 46] (5, 1) (0, 2) := by
  obtain ⟨_, _, h⟩ := reverse_exact knot_wellFormed
  have hback := (h #[46, 98] 0 1 (by decide) (by decide)).1 ⟨2, knot_accepting, knot_steps⟩
  rw [show Array.reverse #[46, 98] = (#[98, 46] : Bytes) by simp] at hback
  exact hback

end ByteRegex.Nfa
