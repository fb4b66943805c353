-- The edges that consume no byte, while an automaton is being built. A step of
-- the construction closes no circle of them: what it leads to has no way back
-- that is free.
import ByteRegex.Proofs.Nfa.Trie

namespace ByteRegex.Nfa

open Relation (TransGen)

/-! ## Free edges -/

/-- An edge that consumes no byte leads from `s` to `t`. -/
def FreeEdge (a : Arena) (s t : Nat) : Prop :=
  ∃ e ∈ (stateIn a s).edges.toList, e.isByte = false ∧ e.target = t

/-- No state can get back to itself without consuming a byte. -/
def Acyclic (a : Arena) : Prop := ∀ t, ¬ TransGen (FreeEdge a) t t

/-- No free edge leads out of a set of states. -/
def Sealed (a : Arena) (S : Nat → Prop) : Prop := ∀ s t, S s → FreeEdge a s t → S t

/-- There is no free way from `t` to `s`, as a set shows. -/
def Parted (a : Arena) (t s : Nat) : Prop := ∃ S, Sealed a S ∧ S t ∧ ¬ S s

section Free

variable {a a' : Arena} {s t : Nat} {e : Edge} {S T : Nat → Prop}

theorem stateIn_of_le (h : a.size ≤ t) : stateIn a t = {} := state_of_le (n := ofArena a) h

theorem stateIn_newState : stateIn (a.push {}) t = stateIn a t := by
  rw [stateIn_push]
  split
  next h => rw [stateIn_of_le (Nat.le_of_eq h.symm)]
  next => rfl

theorem freeEdge_addEdge (hs : s < a.size) {x y : Nat} :
    FreeEdge (a.addEdge s e) x y ↔ FreeEdge a x y ∨ (x = s ∧ e.isByte = false ∧ e.target = y) := by
  constructor
  · rintro ⟨e', he', hbyte, hy⟩
    rcases (mem_edges_addEdge hs).1 he' with he' | ⟨rfl, rfl⟩
    · exact Or.inl ⟨e', he', hbyte, hy⟩
    · exact Or.inr ⟨rfl, hbyte, hy⟩
  · rintro (⟨e', he', hbyte, hy⟩ | ⟨rfl, hbyte, hy⟩)
    · exact ⟨e', (mem_edges_addEdge hs).2 (Or.inl he'), hbyte, hy⟩
    · exact ⟨e, (mem_edges_addEdge hs).2 (Or.inr ⟨rfl, rfl⟩), hbyte, hy⟩

theorem freeEdge_congr (h : stateIn a' s = stateIn a s) : FreeEdge a' s t ↔ FreeEdge a s t := by
  rw [FreeEdge, FreeEdge, h]

theorem not_freeEdge (h : stateIn a s = {}) : ¬ FreeEdge a s t := by
  rintro ⟨e, he, _⟩
  rw [h] at he
  simp at he

/-! ## Sealed sets -/

theorem Sealed.congr (h : Sealed a S) (ha : ∀ t, S t → stateIn a' t = stateIn a t) : Sealed a' S :=
  fun s t hs hst => h s t hs ((freeEdge_congr (ha s hs)).1 hst)

theorem Sealed.or (hS : Sealed a S) (hT : Sealed a T) : Sealed a fun t => S t ∨ T t :=
  fun s t hs hst => hs.imp (fun hs => hS s t hs hst) fun hs => hT s t hs hst

theorem Sealed.single (h : stateIn a s = {}) : Sealed a (· = s) := by
  rintro _ t rfl hst
  exact absurd hst (not_freeEdge h)

theorem Sealed.addEdge (h : Sealed a S) (hs : s < a.size) (he : S s → S e.target) :
    Sealed (a.addEdge s e) S := by
  intro x y hx hxy
  rcases (freeEdge_addEdge hs).1 hxy with hxy | ⟨rfl, _, rfl⟩
  · exact h x y hx hxy
  · exact he hx

theorem Parted.addEdge (h : Parted a t s) (hs : s < a.size) : Parted (a.addEdge s e) t s := by
  obtain ⟨S, hsealed, ht, hns⟩ := h
  exact ⟨S, hsealed.addEdge hs fun h => absurd h hns, ht, hns⟩

theorem Parted.fresh (h : stateIn a t = {}) (hne : s ≠ t) : Parted a t s :=
  ⟨(· = t), Sealed.single h, rfl, hne⟩

/-- A way that starts in a sealed set stays there. -/
theorem mem_of_transGen {r : Nat → Nat → Prop} (hS : ∀ x y, S x → r x y → S y)
    (h : TransGen r s t) (hs : S s) : S t := by
  induction h with
  | single hst => exact hS _ _ hs hst
  | tail _ hyz ih => exact hS _ _ ih hyz

/-- Edges that lead into a sealed set from outside close no circle. -/
theorem acyclic_of_sealed {r r' : Nat → Nat → Prop} (hS : ∀ x y, S x → r x y → S y)
    (hr : ∀ x y, r x y → r' x y ∨ (¬ S x ∧ S y)) (hr' : ∀ t, ¬ TransGen r' t t) (t : Nat) :
    ¬ TransGen r t t := by
  have hold : ∀ {x y}, TransGen r x y → (S y → S x) → TransGen r' x y := by
    intro x y h
    induction h with
    | single hxy =>
      intro hback
      rcases hr _ _ hxy with hxy | ⟨hx, hy⟩
      · exact .single hxy
      · exact absurd (hback hy) hx
    | tail hxy hyz ih =>
      intro hback
      refine (ih fun hy => hback (hS _ _ hy hyz)).tail ?_
      rcases hr _ _ hyz with hyz | ⟨hy, hz⟩
      · exact hyz
      · exact absurd (mem_of_transGen hS hxy (hback hz)) hy
  exact fun h => hr' t (hold h id)

theorem Acyclic.addEdge (h : Acyclic a) (hs : s < a.size)
    (he : e.isByte = false → Parted a e.target s) : Acyclic (a.addEdge s e) := by
  by_cases hbyte : e.isByte = true
  · have hsame : FreeEdge (a.addEdge s e) = FreeEdge a := by
      funext x y
      simp [freeEdge_addEdge hs, hbyte]
    rwa [Acyclic, hsame]
  · obtain ⟨S, hsealed, ht, hns⟩ := he (by simpa using hbyte)
    refine acyclic_of_sealed (hsealed.addEdge hs fun h => absurd h hns) (fun x y hxy => ?_) h
    rcases (freeEdge_addEdge hs).1 hxy with hxy | ⟨rfl, _, rfl⟩
    · exact Or.inl hxy
    · exact Or.inr ⟨hns, ht⟩

end Free

/-! ## Sound states -/

/-- All edges are free and look at nothing, or all consume a byte, or the only one is a look. -/
def State.Uniform (st : State) : Prop :=
  (∀ e ∈ st.edges.toList, e.isEps = true) ∨ (∀ e ∈ st.edges.toList, e.isByte = true) ∨
    ∃ k t, st.edges = #[.look k t]

/-- No state accepts yet, all are uniform, and their edges lead to states that there are. If `L`
holds, no free way leads from a state back to itself; it says that all loops consume. -/
structure Sound (L : Prop) (a : Arena) : Prop where
  accept : ∀ t, (stateIn a t).accept = none
  uniform : ∀ t, (stateIn a t).Uniform
  target : ∀ t, ∀ e ∈ (stateIn a t).edges.toList, e.target < a.size
  acyclic : L → Acyclic a

variable {L : Prop} {a a' c c' : Arena} {s t : Nat} {e : Edge}

theorem State.Uniform.empty : State.Uniform {} := Or.inl fun e he => by simp at he

theorem State.Uniform.pushEps {st : State} (h : ∀ e ∈ st.edges.toList, e.isEps = true) :
    State.Uniform { st with edges := st.edges.push (.eps t) } := by
  refine Or.inl fun e he => ?_
  rw [Array.toList_push, List.mem_append, List.mem_singleton] at he
  rcases he with he | rfl
  · exact h e he
  · rfl

theorem State.Uniform.pushBytes {st : State} {lo hi : UInt8}
    (h : ∀ e ∈ st.edges.toList, e.isByte = true) :
    State.Uniform { st with edges := st.edges.push (.bytes lo hi t) } := by
  refine Or.inr (Or.inl fun e he => ?_)
  rw [Array.toList_push, List.mem_append, List.mem_singleton] at he
  rcases he with he | rfl
  · exact h e he
  · rfl

theorem Sound.empty : Sound L #[] := by
  have hnone : ∀ s t, ¬ FreeEdge #[] s t := fun s t => not_freeEdge rfl
  refine ⟨fun _ => rfl, fun _ => State.Uniform.empty, fun _ e he => ?_, fun _ t h => ?_⟩
  · simp [stateIn] at he
  · cases h with
    | single hst => exact hnone _ _ hst
    | tail _ hst => exact hnone _ _ hst

theorem Sound.newState (h : Sound L a) : Sound L (a.push {}) := by
  have hstate : ∀ t, stateIn (Array.push a {}) t = stateIn a t := fun t => stateIn_newState
  refine ⟨fun t => ?_, fun t => ?_, fun t e he => ?_, fun hl t => ?_⟩
  · rw [hstate]
    exact h.accept t
  · rw [hstate]
    exact h.uniform t
  · rw [hstate] at he
    exact Nat.lt_trans (h.target t e he) (size_lt_push a)
  · have hsame : FreeEdge (Array.push a {}) = FreeEdge a := by
      funext x y
      exact propext (freeEdge_congr (hstate x))
    rw [hsame]
    exact h.acyclic hl t

theorem Sound.addEdge (h : Sound L a) (hs : s < a.size) (ht : e.target < a.size)
    (hu : State.Uniform { stateIn a s with edges := (stateIn a s).edges.push e })
    (hfree : L → e.isByte = false → Parted a e.target s) : Sound L (a.addEdge s e) := by
  refine ⟨fun t => ?_, fun t => ?_, fun t e' he' => ?_,
    fun hl => (h.acyclic hl).addEdge hs (hfree hl)⟩
  · rw [stateIn_addEdge hs]
    split
    · exact h.accept s
    · exact h.accept t
  · rw [stateIn_addEdge hs]
    split
    · exact hu
    · exact h.uniform t
  · rw [size_addEdge]
    rcases (mem_edges_addEdge hs).1 he' with he' | ⟨_, rfl⟩
    · exact h.target t e' he'
    · exact ht

/-! ## What a part of the construction adds -/

/-- From `a` on the construction has come to `c`. The states of `a` are as they were, and the newer
ones lead to one another only. -/
structure Adds (L : Prop) (a c : Arena) : Prop where
  size_le : a.size ≤ c.size
  keeps : ∀ t < a.size, stateIn c t = stateIn a t
  inside : ∀ t, a.size ≤ t → ∀ e ∈ (stateIn c t).edges.toList, a.size ≤ e.target ∧ e.target < c.size
  sound : Sound L a → Sound L c

namespace Adds

theorem refl (a : Arena) : Adds L a a := by
  refine ⟨Nat.le_refl _, fun _ _ => rfl, fun t ht e he => ?_, id⟩
  rw [stateIn_of_le ht] at he
  simp at he

theorem trans (h : Adds L a c) (h' : Adds L c c') : Adds L a c' := by
  have hsize := h.size_le
  have hsize' := h'.size_le
  refine ⟨by omega, fun t ht => ?_, fun t ht e he => ?_, h'.sound ∘ h.sound⟩
  · rw [h'.keeps t (by omega), h.keeps t ht]
  · by_cases htc : t < c.size
    · rw [h'.keeps t htc] at he
      have := h.inside t ht e he
      omega
    · have := h'.inside t (by omega) e he
      omega

theorem newState (h : Adds L a c) : Adds L a (c.push {}) := by
  have hsize := h.size_le
  have hlt : c.size < (c.push {}).size := size_lt_push c
  refine ⟨by omega, fun t ht => ?_, fun t ht e he => ?_, fun ha => (h.sound ha).newState⟩
  · rw [stateIn_newState, h.keeps t ht]
  · rw [stateIn_newState] at he
    have := h.inside t ht e he
    omega

theorem addEdge (h : Adds L a c) (hs : a.size ≤ s ∧ s < c.size)
    (ht : a.size ≤ e.target ∧ e.target < c.size)
    (hu : State.Uniform { stateIn c s with edges := (stateIn c s).edges.push e })
    (hfree : L → e.isByte = false → Parted c e.target s) : Adds L a (c.addEdge s e) := by
  refine ⟨?_, fun t htlt => ?_, fun t hta e' he' => ?_,
    fun ha => (h.sound ha).addEdge hs.2 ht.2 hu hfree⟩
  · rw [size_addEdge]
    exact h.size_le
  · rw [stateIn_addEdge hs.2, if_neg (by omega), h.keeps t htlt]
  · rw [size_addEdge]
    rcases (mem_edges_addEdge hs.2).1 he' with he' | ⟨_, rfl⟩
    · exact h.inside t hta e' he'
    · exact ht

/-- An edge that looks at nothing, out of a state that has only such. -/
theorem addEps (h : Adds L a c) (hs : a.size ≤ s ∧ s < c.size) (ht : a.size ≤ t ∧ t < c.size)
    (heps : ∀ e ∈ (stateIn c s).edges.toList, e.isEps = true) (hfree : L → Parted c t s) :
    Adds L a (c.addEdge s (.eps t)) :=
  h.addEdge (e := .eps t) hs ht (.pushEps heps) fun hl _ => hfree hl

/-- An edge that consumes a byte, out of a state that has only such. -/
theorem addBytes {lo hi : UInt8} (h : Adds L a c) (hs : a.size ≤ s ∧ s < c.size)
    (ht : a.size ≤ t ∧ t < c.size) (hbytes : ∀ e ∈ (stateIn c s).edges.toList, e.isByte = true) :
    Adds L a (c.addEdge s (.bytes lo hi t)) :=
  h.addEdge (e := .bytes lo hi t) hs ht (.pushBytes hbytes) fun _ hf => by cases hf

/-- The two ways out of a state where a repeat may go on or stop. -/
theorem addChoice {greedy : Bool} {onward stop : Nat} {u : Unit} (h : Adds L a c)
    (hs : a.size ≤ s ∧ s < c.size) (hfresh : stateIn c s = {})
    (honward : a.size ≤ onward ∧ onward < c.size) (hstop : a.size ≤ stop ∧ stop < c.size)
    (hfree : L → Parted c onward s) (hfree' : L → Parted c stop s)
    (hrun : Nfa.addChoice greedy s onward stop c = .ok (u, c')) : Adds L a c' := by
  have htwo : ∀ t t', a.size ≤ t ∧ t < c.size → a.size ≤ t' ∧ t' < c.size →
      (L → Parted c t s) → (L → Parted c t' s) →
      Adds L a ((c.addEdge s (.eps t)).addEdge s (.eps t')) := by
    intro t t' ht ht' hp hp'
    refine (h.addEps hs ht (by simp [hfresh]) hp).addEps (by rwa [size_addEdge])
      (by rwa [size_addEdge]) ?_ fun hl => (hp' hl).addEdge hs.2
    rw [stateIn_addEdge hs.2, if_pos rfl, hfresh]
    simp [Edge.isEps]
  cases greedy with
  | true =>
    obtain ⟨_, c1, h1, hrun⟩ := Build.bind_ok hrun
    obtain rfl := addEdge_ok h1
    obtain rfl := addEdge_ok hrun
    exact htwo _ _ honward hstop hfree hfree'
  | false =>
    obtain ⟨_, c1, h1, hrun⟩ := Build.bind_ok hrun
    obtain rfl := addEdge_ok h1
    obtain rfl := addEdge_ok hrun
    exact htwo _ _ hstop honward hfree' hfree

end Adds

/-! ## Parts -/

/-- The states from `lo` on below `hi` lead to one another only. Nothing leads out of the exit yet.
If the pattern consumes at least a byte, no free way leads from the entry to the exit. -/
structure Part (c : Arena) (lo hi : Nat) (f : Fragment) (nullable : Bool) : Prop where
  entry : lo ≤ f.entry ∧ f.entry < hi
  exit : lo ≤ f.exit ∧ f.exit < hi
  fresh : stateIn c f.exit = {}
  inside : ∀ t, lo ≤ t → t < hi → ∀ e ∈ (stateIn c t).edges.toList, lo ≤ e.target ∧ e.target < hi
  blocked : nullable = false →
    ∃ S, Sealed c S ∧ S f.entry ∧ ∀ t, S t → lo ≤ t ∧ t < hi ∧ t ≠ f.exit

/-- A part of the construction has added a part of the automaton. -/
structure Makes (L : Prop) (a c : Arena) (f : Fragment) (nullable : Bool) : Prop
    extends Adds L a c where
  part : Part c a.size c.size f nullable

section Parts

variable {lo mid hi x y : Nat} {f g : Fragment} {b b' : Bool}

namespace Part

theorem congr (h : Part c lo hi f b) (ha : ∀ t, lo ≤ t → t < hi → stateIn c' t = stateIn c t) :
    Part c' lo hi f b := by
  refine ⟨h.entry, h.exit, (ha _ h.exit.1 h.exit.2).trans h.fresh, fun t h1 h2 e he => ?_,
    fun hb => ?_⟩
  · rw [ha t h1 h2] at he
    exact h.inside t h1 h2 e he
  · obtain ⟨S, hsealed, hentry, hS⟩ := h.blocked hb
    exact ⟨S, hsealed.congr fun t ht => ha t (hS t ht).1 (hS t ht).2.1, hentry, hS⟩

/-- No free edge leads out of a part. -/
theorem sealed (h : Part c lo hi f b) : Sealed c fun t => lo ≤ t ∧ t < hi := by
  rintro s t ⟨h1, h2⟩ ⟨e, he, _, rfl⟩
  exact h.inside s h1 h2 e he

theorem parted (h : Part c lo hi f b) (hs : s < lo ∨ hi ≤ s) : Parted c f.entry s :=
  ⟨_, h.sealed, h.entry, by omega⟩

/-- From the entry there is no free way to the exit, if the part consumes. -/
theorem parted_exit (h : Part c lo hi f b) (hb : b = false) : Parted c f.entry f.exit := by
  obtain ⟨S, hsealed, hentry, hS⟩ := h.blocked hb
  exact ⟨S, hsealed, hentry, fun hx => (hS _ hx).2.2 rfl⟩

/-- Two parts side by side are one, if the exit of the first leads to the entry of the second. -/
theorem join (hf : Part c lo mid ⟨s, x⟩ b) (hg : Part c mid hi ⟨t, y⟩ b') (hhi : hi ≤ c.size) :
    Part (c.addEdge x (.eps t)) lo hi ⟨s, y⟩ (b && b') := by
  obtain ⟨hs1, hs2⟩ := hf.entry
  obtain ⟨hx1, hx2⟩ := hf.exit
  obtain ⟨ht1, ht2⟩ := hg.entry
  obtain ⟨hy1, hy2⟩ := hg.exit
  simp only at hs1 hs2 hx1 hx2 ht1 ht2 hy1 hy2
  have hx : x < c.size := by omega
  refine ⟨by simp only; omega, by simp only; omega, ?_, fun u h1 h2 e he => ?_, fun hb => ?_⟩
  · rw [stateIn_addEdge hx, if_neg (by simp only; omega)]
    exact hg.fresh
  · rcases (mem_edges_addEdge hx).1 he with he | ⟨_, rfl⟩
    · by_cases hu : u < mid
      · have := hf.inside u h1 hu e he
        omega
      · have := hg.inside u (by omega) h2 e he
        omega
    · simp only [Edge.target]
      omega
  · cases b with
    | false =>
      obtain ⟨S, hsealed, hentry, hS⟩ := hf.blocked rfl
      refine ⟨S, hsealed.addEdge hx fun h => absurd rfl (hS _ h).2.2, hentry, fun u hu => ?_⟩
      have := hS u hu
      simp only
      omega
    | true =>
      obtain ⟨S, hsealed, hentry, hS⟩ := hg.blocked (by simpa using hb)
      refine ⟨fun u => (lo ≤ u ∧ u < mid) ∨ S u, ?_, Or.inl ⟨hs1, hs2⟩, fun u hu => ?_⟩
      · exact (hf.sealed.or hsealed).addEdge hx fun _ => Or.inr hentry
      · rcases hu with hu | hu
        · simp only
          omega
        · have := hS u hu
          simp only at this ⊢
          omega

end Part

theorem Adds.makes (h : Adds L a c) (hentry : a.size ≤ f.entry ∧ f.entry < c.size)
    (hexit : a.size ≤ f.exit ∧ f.exit < c.size) (hfresh : stateIn c f.exit = {})
    (hblocked : b = false → ∃ S, Sealed c S ∧ S f.entry ∧
      ∀ t, S t → a.size ≤ t ∧ t < c.size ∧ t ≠ f.exit) : Makes L a c f b :=
  ⟨h, hentry, hexit, hfresh, fun t ht _ => h.inside t ht, hblocked⟩

/-- The way from one part to the next closes no circle. -/
theorem Adds.join (h : Adds L a c) (hlo : a.size ≤ lo) (hf : Part c lo mid ⟨s, x⟩ b)
    (hg : Part c mid hi ⟨t, y⟩ b') (hhi : hi ≤ c.size) :
    Adds L a (c.addEdge x (.eps t)) := by
  have hx := hf.exit
  have ht := hg.entry
  simp only at hx ht
  refine h.addEps (by omega) (by omega) ?_ fun _ => hg.parted (Or.inl hx.2)
  rw [show stateIn c x = {} from hf.fresh]
  simp

namespace Makes

/-- A copy behind a part. -/
theorem join {c1 : Arena} (h : Makes L a c ⟨s, x⟩ b) (hg : Makes L c c1 ⟨t, y⟩ b') :
    Makes L a (c1.addEdge x (.eps t)) ⟨s, y⟩ (b && b') := by
  have hf : Part c1 a.size c.size ⟨s, x⟩ b := h.part.congr fun u _ hu => hg.keeps u hu
  refine ⟨(h.toAdds.trans hg.toAdds).join (Nat.le_refl _) hf hg.part (Nat.le_refl _), ?_⟩
  rw [size_addEdge]
  exact hf.join hg.part (Nat.le_refl _)

/-- A new entry before a part. -/
theorem before (h : Makes L a c f b) :
    Makes L a (Arena.addEdge (c.push {}) c.size (.eps f.entry)) ⟨c.size, f.exit⟩ b := by
  have hsize : Array.size (Array.push c {}) = c.size + 1 := Array.size_push _
  have hle := h.size_le
  have hentry := h.part.entry
  have hexit := h.part.exit
  have hlt : c.size < (c.push {}).size := by omega
  have hpart : Part (c.push {}) a.size c.size f b := h.part.congr fun u _ _ => stateIn_newState
  have hnone : stateIn (c.push {}) c.size = {} := by
    rw [stateIn_newState, stateIn_of_le (Nat.le_refl _)]
  have hadds := h.toAdds.newState.addEps (s := c.size) (t := f.entry) (by omega) (by omega)
    (by simp [hnone]) fun _ => hpart.parted (Or.inr (Nat.le_refl _))
  refine hadds.makes (by simp only [size_addEdge]; omega) (by simp only [size_addEdge]; omega) ?_
    fun hb => ?_
  · rw [stateIn_addEdge hlt, if_neg (by simp only; omega)]
    exact hpart.fresh
  · obtain ⟨S, hsealed, hS', hS⟩ := hpart.blocked hb
    have hold : Sealed (Arena.addEdge (c.push {}) c.size (.eps f.entry)) S :=
      hsealed.addEdge hlt fun _ => hS'
    refine ⟨fun u => u = c.size ∨ S u, fun u v hu huv => ?_, Or.inl rfl, fun u hu => ?_⟩
    · rcases (freeEdge_addEdge hlt).1 huv with huv' | ⟨_, _, rfl⟩
      · rcases hu with rfl | hu
        · exact absurd huv' (not_freeEdge hnone)
        · exact Or.inr (hold u v hu huv)
      · exact Or.inr hS'
    · rw [size_addEdge]
      rcases hu with rfl | hu
      · simp only
        omega
      · have := hS u hu
        simp only
        omega

/-- The first state behind a part becomes its exit, when what was added since leads there. -/
theorem past (h : Makes L a c ⟨s, x⟩ b) (h' : Adds L a c') (hsize : c.size < c'.size)
    (hkeeps : ∀ t < c.size, t ≠ x → stateIn c' t = stateIn c t) (hfresh : stateIn c' c.size = {}) :
    Makes L a c' ⟨s, c.size⟩ b := by
  have hle := h.size_le
  have hentry := h.part.entry
  simp only at hentry
  refine h'.makes (by simp only; omega) (by simp only; omega) hfresh fun hb => ?_
  obtain ⟨S, hsealed, hS', hS⟩ := h.part.blocked hb
  refine ⟨S, hsealed.congr fun t ht => hkeeps t (hS t ht).2.1 (hS t ht).2.2, hS', fun t ht => ?_⟩
  have := hS t ht
  simp only at this ⊢
  omega

end Makes

end Parts

end ByteRegex.Nfa
