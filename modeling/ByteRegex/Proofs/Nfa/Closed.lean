-- The whole automaton of a pattern: from its anchored start it gets to accept
-- just behind the matches, and from its floating start behind the matches that
-- start at the place or later.
import ByteRegex.Proofs.Nfa.Preference
import ByteRegex.Proofs.Nfa.Thompson

namespace ByteRegex.Nfa

/-- The automaton is the fragment of a pattern with an accepting state `goal` behind its exit
`out`, and a start that would rather begin a match than skip a byte. No state tells bytes of one
class from one another, and no state has both free edges and others. -/
structure Closed (R : UInt8 → UInt8 → Prop) (n : Nfa) (p : Pattern) (out goal skipping : Nat) :
    Prop where
  frag : Frag n p n.anchored out
  exit : Wired n out [.eps goal]
  accept : n.state goal = ⟨#[], some 0⟩
  floating : Wired n n.floating [.eps n.anchored, .eps skipping]
  skip : Wired n skipping [.bytes 0x00 0xff n.floating]
  accepting : ∀ t, n.Accepting t → t = goal
  target : ∀ t, ∀ e ∈ (n.state t).edges.toList, e.target < n.size
  bytes : ∀ t b b', R b b' → (n.state t).byteTargets b = (n.state t).byteTargets b'
  words : ∀ t, ∀ e ∈ (n.state t).edges.toList, e.asksWords = true → WordsApart R
  pure : ∀ t, ∀ e ∈ (n.state t).edges.toList, ∀ e' ∈ (n.state t).edges.toList,
    e.isByte = e'.isByte
  into : ∀ t, ∀ e ∈ (n.state t).edges.toList, e.target = n.floating → t = skipping
  starts : n.anchored < n.size ∧ n.floating < n.size

variable {R : UInt8 → UInt8 → Prop} {p : Pattern}

theorem le_last (b : UInt8) : b ≤ 0xff := by
  have := b.toNat_lt
  rw [UInt8.le_iff_toNat_le]
  exact Nat.le_of_lt_succ this

theorem modify_ok {g : Arena → Arena} {a a' : Arena} {u : PUnit}
    (h : (modify g : Build PUnit) a = .ok (u, a')) : a' = g a := by
  simp only [modify, modifyGet, MonadStateOf.modifyGet, StateT.modifyGet, pure, Except.pure,
    Except.ok.injEq, Prod.mk.injEq] at h
  exact h.2.symm

theorem stateIn_setAccept {a : Arena} {s t priority : Nat} (hs : s < a.size) :
    stateIn (a.setAccept s priority) t =
      if t = s then { stateIn a s with accept := some priority } else stateIn a t := by
  simp only [stateIn, Arena.setAccept, Array.getD_eq_getD_getElem?, Array.getElem?_modify]
  by_cases h : t = s
  · subst h
    simp [hs]
  · simp [h, Ne.symm h]

theorem size_setAccept {a : Arena} {s priority : Nat} :
    Array.size (a.setAccept s priority) = a.size := Array.size_modify

theorem ofBuild_ok {b : Build (Nat × Nat)} {n : Nfa} (h : ofBuild #[] b = .ok n) :
    b #[] = .ok ((n.anchored, n.floating), n.states) := by
  unfold ofBuild at h
  generalize b #[] = r at h
  cases r with
  | error e => cases h
  | ok r =>
    obtain ⟨⟨anchored, floating⟩, states⟩ := r
    rw [← Except.ok.inj h]

/-- An automaton comes from a fragment that has been completed. -/
theorem ofPattern_ok {alpha : Alphabet} {limit : Nat} {n : Nfa}
    (h : ofPattern p alpha limit = .ok n) :
    ∃ f a, fragment limit alpha p #[] = .ok (f, a) ∧
      close limit f a = .ok ((n.anchored, n.floating), n.states) := by
  rw [ofPattern_eq] at h
  exact Build.bind_ok (ofBuild_ok h)

/-! ## Around a fragment -/

/-- The automaton has the states of a fragment and three more: the first accepts, the next one is
the floating start, and the last one skips a byte. -/
structure Encloses (a : Arena) (f : Fragment) (n : Nfa) : Prop where
  size_eq : n.size = a.size + 3
  anchored_eq : n.anchored = f.entry
  floating_eq : n.floating = a.size + 1
  keeps : ∀ t < a.size, t ≠ f.exit → n.state t = stateIn a t
  exit : Wired n f.exit [.eps a.size]
  goal : n.state a.size = ⟨#[], some 0⟩
  floating : Wired n (a.size + 1) [.eps f.entry, .eps (a.size + 2)]
  skip : Wired n (a.size + 2) [.bytes 0x00 0xff (a.size + 1)]

section Steps

variable {limit entry out goal floating skipping : Nat} {a a1 a2 a3 a4 a5 : Arena}
  {u u' u'' : Unit}

/-- An accepting state is put behind the exit. -/
theorem addGoal_ok (hout : out < a.size) (hfresh : stateIn a out = {})
    (h1 : newState limit a = .ok (goal, a1)) (h2 : addEps out goal a1 = .ok (u, a2))
    (h3 : (modify (·.setAccept goal 0) : Build Unit) a2 = .ok (u', a3)) :
    goal = a.size ∧ a3.size = a.size + 1 ∧ stateIn a3 a.size = ⟨#[], some 0⟩ ∧
      stateIn a3 out = ⟨#[.eps a.size], none⟩ ∧
      ∀ t < a.size, t ≠ out → stateIn a3 t = stateIn a t := by
  obtain ⟨rfl, rfl⟩ := newState_ok h1
  obtain rfl := modify_ok h3
  have hsize : Array.size (Array.push a {}) = a.size + 1 := Array.size_push _
  have hold : ∀ t < a.size, stateIn (Array.push a {}) t = stateIn a t :=
    fun t ht => by rw [stateIn_push, if_neg (Nat.ne_of_lt ht)]
  have hfill := addEps_fills (R := Eq) (by omega) (by omega) ((hold out hout).trans hfresh) h2
  have hgoal : a.size < a2.size := by
    rw [hfill.size_eq, hsize]
    exact Nat.lt_succ_self _
  refine ⟨rfl, size_setAccept.trans (hfill.size_eq.trans hsize), ?_, ?_, fun t ht hne => ?_⟩
  · rw [stateIn_setAccept hgoal, if_pos rfl, hfill.keeps _ (by omega), stateIn_push, if_pos rfl]
  · rw [stateIn_setAccept hgoal, if_neg (by omega), hfill.fills]
  · rw [stateIn_setAccept hgoal, if_neg (by omega), hfill.keeps t hne, hold t ht]

/-- A start is put before the entry that may skip bytes. -/
theorem addFloating_ok (hentry : entry < a.size) (h1 : newState limit a = .ok (floating, a1))
    (h2 : newState limit a1 = .ok (skipping, a2)) (h3 : addEps floating entry a2 = .ok (u, a3))
    (h4 : addEps floating skipping a3 = .ok (u', a4))
    (h5 : addEdge skipping (.bytes 0x00 0xff floating) a4 = .ok (u'', a5)) :
    floating = a.size ∧ skipping = a.size + 1 ∧ a5.size = a.size + 2 ∧
      stateIn a5 a.size = ⟨#[.eps entry, .eps (a.size + 1)], none⟩ ∧
      stateIn a5 (a.size + 1) = ⟨#[.bytes 0x00 0xff a.size], none⟩ ∧
      ∀ t < a.size, stateIn a5 t = stateIn a t := by
  obtain ⟨rfl, rfl, hsize2, hfresh, hfresh', hnew⟩ := newState_two_ok (R := Eq) h1 h2
  obtain rfl := addEdge_ok h3
  obtain rfl := addEdge_ok h4
  obtain rfl := addEdge_ok h5
  have hfill : Fills Eq a2 _ a.size [.eps entry, .eps (a.size + 1)] :=
    addEps_two_fills (by omega) (by omega) (by omega) hfresh
  have hskip := hfill.size_eq.trans hsize2
  refine ⟨rfl, rfl, size_addEdge.trans hskip, ?_, ?_, fun t ht => ?_⟩
  · rw [stateIn_addEdge (by omega), if_neg (by omega), hfill.fills]
  · rw [stateIn_addEdge (by omega), if_pos rfl, hfill.keeps _ (by omega), hfresh']
    rfl
  · rw [stateIn_addEdge (by omega), if_neg (by omega), hfill.keeps t (by omega), hnew.keeps t ht]

end Steps

theorem close_ok {limit anchored floating : Nat} {f : Fragment} {a states : Arena}
    (hentry : f.entry < a.size) (hexit : f.exit < a.size) (hfresh : stateIn a f.exit = {})
    (h : close limit f a = .ok ((anchored, floating), states)) :
    Encloses a f ⟨states, anchored, floating⟩ := by
  obtain ⟨goal, a1, h1, h⟩ := Build.bind_ok h
  obtain ⟨_, a2, h2, h⟩ := Build.bind_ok h
  obtain ⟨_, a3, h3, h⟩ := Build.bind_ok h
  obtain ⟨start, a4, h4, h⟩ := Build.bind_ok h
  obtain ⟨skipping, a5, h5, h⟩ := Build.bind_ok h
  obtain ⟨_, a6, h6, h⟩ := Build.bind_ok h
  obtain ⟨_, a7, h7, h⟩ := Build.bind_ok h
  obtain ⟨_, a8, h8, h⟩ := Build.bind_ok h
  obtain ⟨hstarts, rfl⟩ := Build.pure_ok h
  obtain ⟨rfl, rfl⟩ := Prod.mk.inj hstarts
  obtain ⟨rfl, hsize, hgoal, hout, hold⟩ := addGoal_ok hexit hfresh h1 h2 h3
  obtain ⟨rfl, rfl, hsize', hstart, hskip, hold'⟩ :=
    addFloating_ok (by omega) h4 h5 h6 h7 h8
  rw [hsize] at hstart hskip hsize'
  exact
    { size_eq := hsize'
      anchored_eq := rfl
      floating_eq := hsize
      keeps := fun t ht hne => (hold' t (by omega)).trans (hold t ht hne)
      exit := (hold' _ (by omega)).trans hout
      goal := (hold' _ (by omega)).trans hgoal
      floating := hstart
      skip := hskip }

namespace Encloses

variable {a : Arena} {f : Fragment} {n : Nfa}

/-- A state is one of those that were there, one of the new ones, or none. -/
theorem cases (h : Encloses a f n) (t : Nat) :
    (t < a.size ∧ n.state t = stateIn a t) ∨ t = f.exit ∨ t = a.size ∨ t = a.size + 1 ∨
      t = a.size + 2 ∨ n.state t = {} := by
  by_cases hexit : t = f.exit
  · exact Or.inr (Or.inl hexit)
  · by_cases hlt : t < a.size
    · exact Or.inl ⟨hlt, h.keeps t hlt hexit⟩
    · by_cases hsize : t < a.size + 3
      · omega
      · have hnone : n.state t = {} := state_of_le (by rw [h.size_eq]; omega)
        simp only [hnone, or_true]

/-- Only the accepting state is not tidy. -/
theorem tidy (h : Encloses a f n) (ha : AllTidy R a) (hentry : f.entry < a.size) {t : Nat}
    (hne : t ≠ a.size) : Tidy R n.size (n.state t) := by
  have hsize := h.size_eq
  obtain ⟨hlt, hold⟩ | rfl | rfl | rfl | rfl | hnone := h.cases t
  · rw [hold]
    exact ha.tidy (by omega) t
  · rw [h.exit]
    exact Tidy.empty.push (by simp only [Edge.target]; omega) Edge.even_eps (by simp)
  · exact absurd rfl hne
  · rw [h.floating]
    exact (Tidy.empty.push (e := .eps f.entry) (by simp only [Edge.target]; omega) Edge.even_eps
      (by simp)).push (by simp only [Edge.target]; omega) Edge.even_eps (by simp [Edge.isByte])
  · rw [h.skip]
    exact Tidy.empty.push (e := .bytes 0x00 0xff (a.size + 1)) (by simp only [Edge.target]; omega)
      ⟨fun b b' _ => by simp [Dfa.Subset.byteTarget?, le_last], fun hw => by cases hw⟩ (by simp)
  · rw [hnone]
    exact Tidy.empty

theorem tidy_of_edge (h : Encloses a f n) (ha : AllTidy R a) (hentry : f.entry < a.size) {t : Nat}
    {e : Edge} (he : e ∈ (n.state t).edges.toList) : Tidy R n.size (n.state t) := by
  refine h.tidy ha hentry ?_
  rintro rfl
  rw [h.goal] at he
  simp at he

/-- The floating start is younger than all states with edges but itself and the skipping one. -/
theorem eq_of_target (h : Encloses a f n) (ha : AllTidy R a) (hentry : f.entry < a.size) {t : Nat}
    {e : Edge} (he : e ∈ (n.state t).edges.toList) (hto : e.target = a.size + 1) :
    t = a.size + 2 := by
  obtain ⟨hlt, hold⟩ | rfl | rfl | rfl | rfl | hnone := h.cases t
  · rw [hold] at he
    have := (ha t hlt).target e he
    omega
  · rw [h.exit, List.mem_singleton] at he
    subst he
    simp only [Edge.target] at hto
    omega
  · rw [h.goal] at he
    simp at he
  · rw [h.floating] at he
    simp only [List.mem_cons, List.not_mem_nil, or_false] at he
    rcases he with rfl | rfl <;> (simp only [Edge.target] at hto; omega)
  · rfl
  · rw [hnone] at he
    simp at he

end Encloses

/-- The automaton of a pattern is closed. -/
theorem ofPattern_closed {alpha : Alphabet} {limit : Nat} {n : Nfa}
    (hfit : p.AllNodes (NodeFits R alpha)) (hr : p.Ranged)
    (h : ofPattern p alpha limit = .ok n) :
    ∃ out goal skipping, Closed R n p out goal skipping := by
  obtain ⟨f, a, hfragment, hclose⟩ := ofPattern_ok h
  obtain ⟨hgrows, hf⟩ := fragment_built hfit hr hfragment
  have htidy : AllTidy R a := hgrows.tidy fun t ht => absurd ht (Nat.not_lt_zero t)
  have hentry := hf.entry.2
  have hn : Encloses a f n := close_ok hentry hf.exit.2 hf.fresh hclose
  have hgoal : n.state a.size = ⟨#[], some 0⟩ := hn.goal
  have hsize := hn.size_eq
  refine ⟨f.exit, a.size, a.size + 2, ?_⟩
  exact
    { frag := by
        rw [hn.anchored_eq]
        exact hf.holds n fun t ht => hn.keeps t ht.2.1 ht.2.2
      exit := hn.exit
      accept := hgoal
      floating := by
        rw [hn.floating_eq, hn.anchored_eq]
        exact hn.floating
      skip := by
        rw [hn.floating_eq]
        exact hn.skip
      accepting := by
        intro t ht
        by_contra hne
        rw [Accepting, (hn.tidy htidy hentry hne).accept] at ht
        cases ht
      target := fun t e he => (hn.tidy_of_edge htidy hentry he).target e he
      bytes := by
        intro t b b' hb
        by_cases hne : t = a.size
        · rw [hne, hgoal]
          rfl
        · exact (hn.tidy htidy hentry hne).bytes b b' hb
      words := fun t e he => (hn.tidy_of_edge htidy hentry he).words e he
      pure := fun t e he => (hn.tidy_of_edge htidy hentry he).pure e he
      into := by
        intro t e he hto
        exact hn.eq_of_target htidy hentry he (hto.trans hn.floating_eq)
      starts := by
        rw [hn.anchored_eq, hn.floating_eq]
        omega }

/-! ## What the automaton does -/

namespace Closed

variable {n : Nfa} {out goal skipping : Nat} {data : Bytes}

theorem ends_goal (h : Closed R n p out goal skipping) {k i e : Nat}
    (he : Ends n data k (goal, i) e) : e = i := by
  cases he with
  | accept _ => rfl
  | move hm _ =>
    rw [moves, h.accept] at hm
    simp at hm

theorem accepting_goal (h : Closed R n p out goal skipping) : n.Accepting goal := by
  rw [Accepting, h.accept]
  rfl

/-- From the anchored start the automaton gets to accept just behind the matches. -/
theorem reaches_anchored (h : Closed R n p out goal skipping) {i e : Nat} :
    Reaches n data (n.anchored, i) e ↔ Matches data p i e := by
  have hspans : Spans n data n.anchored out (Matches data p) := h.frag.spans
  have hlast : Spans n data out goal fun i j => j = i := Spans.eps h.exit (Spans.refl goal)
  constructor
  · rintro ⟨k, hk⟩
    obtain ⟨j, k', _, hm, hj⟩ := hspans.ends k i e hk
    obtain ⟨j', k'', _, rfl, hj'⟩ := hlast.ends k' j e hj
    rw [h.ends_goal hj']
    exact hm
  · intro hm
    refine Reaches.of_steps (hspans.steps i e hm) ?_
    exact Reaches.of_steps (hlast.steps e e rfl) (Reaches.accept h.accepting_goal)

theorem moves_floating (h : Closed R n p out goal skipping) (i : Nat) :
    n.moves data (n.floating, i) = [(n.anchored, i), (skipping, i)] := h.floating.moves i

theorem moves_skipping (h : Closed R n p out goal skipping) (i : Nat) :
    n.moves data (skipping, i) = if i < data.size then [(n.floating, i + 1)] else [] := by
  rw [h.skip.moves, List.filterMap_cons, List.filterMap_nil, Edge.next?]
  by_cases hi : i < data.size
  · simp [hi, le_last]
  · simp [hi]

/-- From the floating start the automaton gets to accept behind the matches that start at the place
or later. -/
theorem reaches_floating (h : Closed R n p out goal skipping) {i e : Nat}
    (hi : i ≤ data.size) :
    Reaches n data (n.floating, i) e ↔ ∃ s, i ≤ s ∧ s ≤ data.size ∧ Matches data p s e := by
  constructor
  · rintro ⟨k, hk⟩
    induction k using Nat.strongRecOn generalizing i with
    | _ k ih =>
      obtain ⟨k1, rfl, c, hc, hk⟩ := hk.first_move h.floating.not_accepting
      rw [h.moves_floating] at hc
      simp only [List.mem_cons, List.not_mem_nil, or_false] at hc
      rcases hc with rfl | rfl
      · exact ⟨i, Nat.le_refl i, hi, h.reaches_anchored.1 ⟨k1, hk⟩⟩
      · obtain ⟨k2, rfl, c, hc, hk⟩ := hk.first_move h.skip.not_accepting
        rw [h.moves_skipping] at hc
        split at hc
        · rename_i hlt
          rw [List.mem_singleton.1 hc] at hk
          obtain ⟨s, h1, h2, h3⟩ := ih k2 (by omega) hlt hk
          exact ⟨s, by omega, h2, h3⟩
        · cases hc
  · rintro ⟨s, h1, h2, h3⟩
    induction hd : s - i generalizing i with
    | zero =>
      obtain rfl : s = i := by omega
      exact Reaches.move (by rw [h.moves_floating]; simp) (h.reaches_anchored.2 h3)
    | succ d ih =>
      have hrest := ih (i := i + 1) (by omega) (by omega) (by omega)
      have hskip : (skipping, i) ∈ n.moves data (n.floating, i) := by rw [h.moves_floating]; simp
      have hback : (n.floating, i + 1) ∈ n.moves data (skipping, i) := by
        rw [h.moves_skipping, if_pos (by omega)]
        exact List.mem_singleton_self _
      exact Reaches.move hskip (Reaches.move hback hrest)

/-- Where no pass through an unbounded repeat is empty, the matcher and the automaton prefer the
same end. -/
theorem first_anchored (h : Closed R n p out goal skipping) (hp : p.LoopsConsume)
    {i m m' e : Nat}
    (hs : Matcher.search data p i Matcher.takeEnd m none = some (true, m', some e)) :
    First n data [(n.anchored, i)] (some e) := by
  have htake : ∀ j, Matches data p i j → Finds n data [(out, j)] (Matcher.takeEnd j) := by
    intro j _
    refine Finds.eps h.exit fun m s b m' r hr => ?_
    simp only [Matcher.takeEnd, Option.some.injEq, Prod.mk.injEq] at hr
    obtain ⟨rfl, _, rfl⟩ := hr
    exact Or.inl ⟨rfl, j, rfl, .accept h.accepting_goal⟩
  rcases h.frag.tracks hp i _ htake _ _ _ _ _ hs with ⟨_, e', he, hf⟩ | ⟨hb, _⟩
  · rwa [Option.some.inj he]
  · cases hb

end Closed

end ByteRegex.Nfa
