-- The nodes of a pattern add parts to an automaton: leaves, parts in a row, parts
-- side by side, and parts that are passed again and again. A part that must
-- consume a byte has no free way through it.
import ByteRegex.Proofs.Nfa.FreeEdges

namespace ByteRegex.Nfa

variable {L : Prop} {a a' c c' : Arena} {limit : Nat} {f : Fragment}

/-! ## Leaves -/

/-- What each step of a loop keeps holds behind the loop. -/
theorem forM_ok {α : Type} {l : List α} {g : α → Build PUnit} {I : Arena → Prop} {u : PUnit}
    (hstep : ∀ r ∈ l, ∀ b b' u, I b → g r b = .ok (u, b') → I b') (hI : I c)
    (h : l.forM g c = .ok (u, c')) : I c' := by
  induction l generalizing c with
  | nil =>
    obtain ⟨_, rfl⟩ := Build.pure_ok h
    exact hI
  | cons r l ih =>
    obtain ⟨_, c1, h1, h⟩ := Build.bind_ok h
    exact ih (fun r' hr' => hstep r' (List.mem_cons_of_mem r hr'))
      (hstep r List.mem_cons_self _ _ _ hI h1) h

theorem newState_lt {s : Nat} (h : newState limit a = .ok (s, a')) : a.size < limit := by
  unfold newState at h
  split at h
  · cases h
  · omega

theorem newState_makes {s : Nat} (h : newState limit a = .ok (s, a')) :
    Makes L a a' ⟨s, s⟩ true := by
  obtain ⟨rfl, rfl⟩ := newState_ok h
  have hlt : a.size < (a.push {}).size := size_lt_push a
  refine (Adds.refl a).newState.makes ⟨Nat.le_refl _, hlt⟩ ⟨Nat.le_refl _, hlt⟩ ?_ nofun
  rw [stateIn_newState, stateIn_of_le (Nat.le_refl _)]

/-- Two new states, and nothing but edges that consume a byte between the newer ones. The second of
them is fresh. -/
structure Bush (L : Prop) (a c : Arena) : Prop extends Adds L a c where
  two : a.size + 2 ≤ c.size
  fresh : stateIn c (a.size + 1) = {}
  bytes : ∀ t, a.size ≤ t → ∀ e ∈ (stateIn c t).edges.toList, e.isByte = true

namespace Bush

variable {exit s t : Nat}

theorem start {entry : Nat} {a1 : Arena} (h1 : newState limit a = .ok (entry, a1))
    (h2 : newState limit a1 = .ok (exit, a')) :
    entry = a.size ∧ exit = a.size + 1 ∧ Bush L a a' := by
  obtain ⟨rfl, rfl⟩ := newState_ok h1
  obtain ⟨rfl, rfl⟩ := newState_ok h2
  have hsize : Array.size (Array.push a {}) = a.size + 1 := Array.size_push _
  have hstate : ∀ t, stateIn (Array.push (Array.push a {}) {}) t = stateIn a t :=
    fun t => stateIn_newState.trans stateIn_newState
  refine ⟨rfl, hsize, (Adds.refl a).newState.newState, ?_, ?_, fun t ht e he => ?_⟩
  · rw [Array.size_push]
    omega
  · rw [hstate, stateIn_of_le (Nat.le_succ _)]
  · rw [hstate, stateIn_of_le ht] at he
    simp at he

theorem addEdge {lo hi : UInt8} (h : Bush L a c) (hs : a.size ≤ s ∧ s < c.size)
    (hne : s ≠ a.size + 1) (ht : a.size ≤ t ∧ t < c.size) :
    Bush L a (c.addEdge s (.bytes lo hi t)) := by
  refine ⟨h.addBytes hs ht (h.bytes s hs.1), ?_, ?_, fun u hu e he => ?_⟩
  · rw [size_addEdge]
    exact h.two
  · rw [stateIn_addEdge hs.2, if_neg hne.symm]
    exact h.fresh
  · rcases (mem_edges_addEdge hs.2).1 he with he | ⟨_, rfl⟩
    · exact h.bytes u hu e he
    · rfl

theorem newState (h : Bush L a c) : Bush L a (c.push {}) := by
  refine ⟨h.toAdds.newState, ?_, ?_, fun t ht e he => ?_⟩
  · exact Nat.le_trans h.two (Nat.le_of_lt (size_lt_push c))
  · rw [stateIn_newState]
    exact h.fresh
  · rw [stateIn_newState] at he
    exact h.bytes t ht e he

/-- The state behind a range is there already, or it is a new one. -/
theorem child {r : Utf8.ByteRange} (h : Bush L a c) (hs : a.size ≤ s ∧ s < c.size)
    (hne : s ≠ a.size + 1) (hrun : Nfa.child limit s r (a.size + 1) c = .ok (t, c')) :
    Bush L a c' ∧ (a.size ≤ t ∧ t < c'.size) ∧ t ≠ a.size + 1 := by
  unfold Nfa.child at hrun
  split at hrun
  · rename_i t' hchild
    simp only [Except.ok.injEq, Prod.mk.injEq] at hrun
    obtain ⟨rfl, rfl⟩ := hrun
    obtain ⟨e, he, rfl⟩ := Option.map_eq_some_iff.1 hchild
    have hmem := Array.mem_toList_iff.2 (Array.mem_of_find?_eq_some he)
    refine ⟨h, h.inside s hs.1 e hmem, ?_⟩
    have hcond := Array.find?_some he
    split at hcond
    · simp only [Bool.and_eq_true, bne_iff_ne] at hcond
      exact hcond.2
    · cases hcond
  · obtain ⟨t', c1, h1, hrun⟩ := Build.bind_ok hrun
    obtain ⟨_, c2, h2, hrun⟩ := Build.bind_ok hrun
    obtain ⟨rfl, rfl⟩ := Build.pure_ok hrun
    obtain ⟨rfl, rfl⟩ := newState_ok h1
    obtain rfl := addEdge_ok h2
    have hsize : Array.size (Array.push c {}) = c.size + 1 := Array.size_push _
    have htwo := h.two
    refine ⟨h.newState.addEdge (by omega) hne (by omega), ?_, by omega⟩
    rw [size_addEdge]
    omega

theorem addSequence {rs : List Utf8.ByteRange} {u : Unit} (h : Bush L a c)
    (hs : a.size ≤ s ∧ s < c.size) (hne : s ≠ a.size + 1)
    (hrun : Nfa.addSequence limit (a.size + 1) s rs c = .ok (u, c')) : Bush L a c' := by
  induction rs generalizing s c with
  | nil =>
    obtain ⟨_, rfl⟩ := Build.pure_ok hrun
    exact h
  | cons r rs ih =>
    cases rs with
    | nil =>
      obtain rfl := addEdge_ok hrun
      have htwo := h.two
      exact h.addEdge hs hne (by omega)
    | cons r' rs =>
      obtain ⟨t, c1, h1, hrun⟩ := Build.bind_ok hrun
      obtain ⟨h1, ht, hne'⟩ := h.child hs hne h1
      exact ih h1 ht hne' hrun

/-- All ways out of the first state consume a byte. -/
theorem makes (h : Bush L a c) : Makes L a c ⟨a.size, a.size + 1⟩ false := by
  have htwo := h.two
  refine h.toAdds.makes (by simp only; omega) (by simp only; omega) h.fresh fun _ => ?_
  refine ⟨(· = a.size), ?_, rfl, ?_⟩
  · rintro _ t rfl ⟨e, he, hbyte, _⟩
    rw [h.bytes _ (Nat.le_refl _) e he] at hbyte
    cases hbyte
  · rintro t rfl
    simp only
    omega

end Bush

theorem charsFragment_makes {alpha : Alphabet} {set : Except Error CodePointSet}
    (h : charsFragment limit alpha set a = .ok (f, a')) : Makes L a a' f false := by
  obtain ⟨entry, a1, h1, h⟩ := Build.bind_ok h
  obtain ⟨exit, a2, h2, h⟩ := Build.bind_ok h
  obtain ⟨s, a3, h3, h⟩ := Build.bind_ok h
  obtain ⟨_, a4, h4, h⟩ := Build.bind_ok h
  obtain ⟨rfl, rfl⟩ := Build.pure_ok h
  obtain ⟨_, rfl⟩ := Build.lift_ok h3
  obtain ⟨rfl, rfl, hbush⟩ := Bush.start (L := L) h1 h2
  refine Bush.makes (forM_ok (fun i _ b b' _ hb hi => ?_) hbush h4)
  refine forM_ok (fun rs _ b b' _ hb hrs => ?_) hb hi
  have htwo := hb.two
  exact hb.addSequence (by omega) (by omega) hrs

theorem bytesFragment_makes {set : Except Error ByteSet}
    (h : bytesFragment limit set a = .ok (f, a')) : Makes L a a' f false := by
  obtain ⟨entry, a1, h1, h⟩ := Build.bind_ok h
  obtain ⟨exit, a2, h2, h⟩ := Build.bind_ok h
  obtain ⟨s, a3, h3, h⟩ := Build.bind_ok h
  obtain ⟨_, a4, h4, h⟩ := Build.bind_ok h
  obtain ⟨rfl, rfl⟩ := Build.pure_ok h
  obtain ⟨_, rfl⟩ := Build.lift_ok h3
  obtain ⟨rfl, rfl, hbush⟩ := Bush.start (L := L) h1 h2
  refine Bush.makes (forM_ok (fun r _ b b' _ hb hr => ?_) hbush h4)
  have htwo := hb.two
  obtain rfl := addEdge_ok hr
  exact hb.addEdge (by omega) (by omega) (by omega)

theorem lookFragment_makes {k : Look} (h : edgeFragment limit (.look k) a = .ok (f, a')) :
    Makes L a a' f true := by
  obtain ⟨entry, a1, h1, h⟩ := Build.bind_ok h
  obtain ⟨exit, a2, h2, h⟩ := Build.bind_ok h
  obtain ⟨_, a3, h3, h⟩ := Build.bind_ok h
  obtain ⟨rfl, rfl⟩ := Build.pure_ok h
  obtain ⟨rfl, rfl, hsize, hentry, hexit, _⟩ := newState_two_ok (R := Eq) h1 h2
  obtain ⟨_, rfl⟩ := newState_ok h1
  obtain ⟨_, rfl⟩ := newState_ok h2
  obtain rfl := addEdge_ok h3
  have hadds := (Adds.refl (L := L) a).newState.newState.addEdge
    (s := a.size) (e := .look k (a.size + 1)) (by omega) (by simp only [Edge.target]; omega)
    (by rw [hentry]; exact Or.inr (Or.inr ⟨k, a.size + 1, rfl⟩))
    fun _ _ => Parted.fresh hexit (by simp only [Edge.target]; omega)
  refine hadds.makes (by simp only [size_addEdge]; omega) (by simp only [size_addEdge]; omega) ?_
    fun h => Bool.noConfusion h
  rw [stateIn_addEdge (by omega), if_neg (by simp only; omega)]
  exact hexit

/-! ## Sequences and alternations -/

/-- The parts of patterns stand side by side from `lo` on below `hi`. -/
inductive Parts (c : Arena) : Nat → List Pattern → List Fragment → Nat → Prop
  | nil {lo : Nat} : Parts c lo [] [] lo
  | cons {lo mid hi : Nat} {p : Pattern} {ps : List Pattern} {f : Fragment} {fs : List Fragment} :
      Part c lo mid f p.nullable → Parts c mid ps fs hi → Parts c lo (p :: ps) (f :: fs) hi

namespace Parts

variable {lo hi : Nat} {ps : List Pattern} {fs : List Fragment}

theorem le (h : Parts c lo ps fs hi) : lo ≤ hi := by
  induction h with
  | nil => exact Nat.le_refl _
  | cons hf _ ih =>
    have := hf.entry
    omega

theorem congr (h : Parts c lo ps fs hi)
    (ha : ∀ t, lo ≤ t → t < hi → stateIn c' t = stateIn c t) : Parts c' lo ps fs hi := by
  induction h with
  | nil => exact .nil
  | cons hf hrest ih =>
    have hle := hrest.le
    have hentry := hf.entry
    exact .cons (hf.congr fun t h1 h2 => ha t h1 (by omega)) (ih fun t h1 h2 => ha t (by omega) h2)

theorem within (h : Parts c lo ps fs hi) : ∀ f ∈ fs, (lo ≤ f.entry ∧ f.entry < hi) ∧
    (lo ≤ f.exit ∧ f.exit < hi) ∧ stateIn c f.exit = {} := by
  induction h with
  | nil => nofun
  | cons hf hrest ih =>
    have hle := hrest.le
    have hentry := hf.entry
    have hexit := hf.exit
    intro g hg
    rcases List.mem_cons.1 hg with rfl | hg
    · exact ⟨by omega, by omega, hf.fresh⟩
    · obtain ⟨h1, h2, h3⟩ := ih g hg
      exact ⟨by omega, by omega, h3⟩

/-- If all patterns consume, one set keeps all entries from all exits. -/
theorem blocked (h : Parts c lo ps fs hi) (hps : ∀ p ∈ ps, p.nullable = false) :
    ∃ S, Sealed c S ∧ (∀ f ∈ fs, S f.entry ∧ ¬ S f.exit) ∧ ∀ t, S t → lo ≤ t ∧ t < hi := by
  induction h with
  | nil => exact ⟨fun _ => False, nofun, nofun, nofun⟩
  | @cons lo mid hi p ps f fs hf hrest ih =>
    have hle := hrest.le
    have hentry := hf.entry
    have hexit := hf.exit
    obtain ⟨S, hS, hfS, hSlt⟩ := hf.blocked (hps p List.mem_cons_self)
    obtain ⟨T, hT, hfT, hTlt⟩ := ih fun q hq => hps q (List.mem_cons_of_mem p hq)
    refine ⟨fun t => S t ∨ T t, hS.or hT, fun g hg => ?_, fun t ht => ?_⟩
    · rcases List.mem_cons.1 hg with rfl | hg
      · refine ⟨Or.inl hfS, ?_⟩
        rintro (hx | hx)
        · exact (hSlt _ hx).2.2 rfl
        · have := hTlt _ hx
          omega
      · refine ⟨Or.inr (hfT g hg).1, ?_⟩
        rintro (hx | hx)
        · have := hSlt _ hx
          have := hrest.within g hg
          omega
        · exact (hfT g hg).2 hx
    · rcases ht with ht | ht
      · have := hSlt t ht
        omega
      · have := hTlt t ht
        omega

end Parts

/-- The parts behind a part become one with it. -/
theorem link_adds {lo mid hi s : Nat} {b : Bool} {ps : List Pattern} {fs : List Fragment} {u : Unit}
    (h : Adds L a c) (hlo : a.size ≤ lo) (hf : Part c lo mid ⟨s, f.exit⟩ b)
    (hrest : Parts c mid ps fs hi) (hhi : hi ≤ c.size) (hrun : link (f :: fs) c = .ok (u, c')) :
    Adds L a c' ∧ c'.size = c.size ∧
      Part c' lo hi ⟨s, ((f :: fs).getLast (by simp)).exit⟩ (b && Pattern.allNullable ps) := by
  induction fs generalizing c f mid b ps with
  | nil =>
    obtain ⟨_, rfl⟩ := Build.pure_ok (r := u) (x := ()) hrun
    cases hrest
    rw [Pattern.allNullable, Bool.and_true]
    exact ⟨h, rfl, hf⟩
  | cons g fs ih =>
    obtain ⟨_, c1, h1, hrun⟩ := Build.bind_ok hrun
    obtain rfl := addEdge_ok h1
    cases hrest with
    | @cons _ mid' _ p ps _ _ hg hrest =>
      have hle := hrest.le
      have hx := hf.exit
      have hge := hg.entry
      simp only at hx
      have hadds := h.join hlo hf hg (by omega)
      have hpart := hf.join hg (by omega)
      have hrest' : Parts (c.addEdge f.exit (.eps g.entry)) mid' ps fs hi :=
        hrest.congr fun t h1 _ => by
        rw [stateIn_addEdge (by omega), if_neg (by omega)]
      obtain ⟨hadds, hsize, hpart⟩ := ih hadds hpart hrest' (by rwa [size_addEdge]) hrun
      refine ⟨hadds, hsize.trans size_addEdge, ?_⟩
      rw [Pattern.allNullable, ← Bool.and_assoc]
      exact hpart

theorem seqFragment_makes {ps : List Pattern} {fs : List Fragment} (h : Adds L a c)
    (hparts : Parts c a.size ps fs c.size) (hrun : seqFragment limit fs c = .ok (f, c')) :
    Makes L a c' f (Pattern.allNullable ps) := by
  generalize hhi : c.size = hi at hparts
  cases hparts with
  | nil =>
    obtain ⟨s, c1, h1, hrun⟩ := Build.bind_ok hrun
    obtain ⟨rfl, rfl⟩ := Build.pure_ok hrun
    have hnew := newState_makes (L := L) h1
    have hentry := hnew.part.entry
    have hle := h.size_le
    exact (h.trans hnew.toAdds).makes ⟨Nat.le_trans hle hentry.1, hentry.2⟩
      ⟨Nat.le_trans hle hentry.1, hentry.2⟩ hnew.part.fresh nofun
  | cons hf hrest =>
    obtain ⟨_, c1, h1, hrun⟩ := Build.bind_ok hrun
    obtain ⟨rfl, rfl⟩ := Build.pure_ok hrun
    obtain ⟨hadds, hsize, hpart⟩ :=
      link_adds h (Nat.le_refl _) hf hrest (Nat.le_of_eq hhi.symm) h1
    refine ⟨hadds, ?_⟩
    rwa [hsize, hhi]

/-- The ways into the parts of an alternation and out of them are being added. The entry is the
state `k`, and the exit the next one. -/
structure Fans (L : Prop) (a : Arena) (k : Nat) (fs : List Fragment) (c : Arena) : Prop
    extends Adds L a c where
  size_eq : c.size = k + 2
  fresh : stateIn c (k + 1) = {}
  ways : ∀ e ∈ (stateIn c k).edges.toList, e.isEps = true ∧ ∃ f ∈ fs, e.target = f.entry
  exits : ∀ f ∈ fs, ∀ e ∈ (stateIn c f.exit).edges.toList, e.isEps = true
  unentered : ∀ t, a.size ≤ t → ¬ FreeEdge c t k

section Fans

variable {k : Nat} {fs : List Fragment} {u : PUnit}
  (hfs : ∀ f ∈ fs, (a.size ≤ f.entry ∧ f.entry < k) ∧ (a.size ≤ f.exit ∧ f.exit < k))

include hfs

theorem Fans.step (h : Fans L a k fs c) (hf : f ∈ fs)
    (hrun : (do addEps k f.entry; addEps f.exit (k + 1)) c = .ok (u, c')) :
    Fans L a k fs c' := by
  obtain ⟨_, c1, h1, hrun⟩ := Build.bind_ok hrun
  obtain rfl := addEdge_ok h1
  obtain rfl := addEdge_ok hrun
  have hsize := h.size_eq
  have hle := hfs f hf
  have hk : k < c.size := by omega
  have hx : f.exit < (c.addEdge k (.eps f.entry)).size := by
    rw [size_addEdge]
    omega
  -- nothing leads to the entry of the alternation
  have hapart : Parted c f.entry k :=
    ⟨fun t => a.size ≤ t ∧ t ≠ k, by
      rintro s t ⟨hs, _⟩ hst
      obtain ⟨e, he, _, rfl⟩ := hst
      exact ⟨(h.inside s hs e he).1, fun heq => h.unentered s hs ⟨e, he, by assumption, heq⟩⟩,
      by omega, by omega⟩
  have hfresh1 : stateIn (c.addEdge k (.eps f.entry)) (k + 1) = {} := by
    rw [stateIn_addEdge hk, if_neg (by omega), h.fresh]
  have hadds := (h.toAdds.addEps (by omega) (by omega) (fun e he => (h.ways e he).1)
    fun _ => hapart).addEps (s := f.exit) (t := k + 1) (by rw [size_addEdge]; omega)
    (by rw [size_addEdge]; omega) (by
      rw [stateIn_addEdge hk, if_neg (by omega)]
      exact h.exits f hf) fun _ => Parted.fresh hfresh1 (by omega)
  refine ⟨hadds, ?_, ?_, fun e he => ?_, fun g hg e he => ?_, fun t ht htk => ?_⟩
  · rw [size_addEdge, size_addEdge, hsize]
  · rw [stateIn_addEdge hx, if_neg (by omega), hfresh1]
  · rcases (mem_edges_addEdge hx).1 he with he | ⟨heq, _⟩
    · rcases (mem_edges_addEdge hk).1 he with he | ⟨_, rfl⟩
      · exact h.ways e he
      · exact ⟨rfl, f, hf, rfl⟩
    · omega
  · have hle' := hfs g hg
    rcases (mem_edges_addEdge hx).1 he with he | ⟨_, rfl⟩
    · rcases (mem_edges_addEdge hk).1 he with he | ⟨heq, _⟩
      · exact h.exits g hg e he
      · omega
    · rfl
  · rcases (freeEdge_addEdge hx).1 htk with htk | ⟨_, _, heq⟩
    · rcases (freeEdge_addEdge hk).1 htk with htk | ⟨_, _, heq⟩
      · exact h.unentered t ht htk
      · simp only [Edge.target] at heq
        omega
    · simp only [Edge.target] at heq
      omega

/-- Two new states, before the ways are added. -/
theorem Fans.start {entry exit : Nat} {c1 : Arena} (h : Adds L a c) (hk : k = c.size)
    (hfresh : ∀ f ∈ fs, stateIn c f.exit = {}) (h1 : newState limit c = .ok (entry, c1))
    (h2 : newState limit c1 = .ok (exit, c')) :
    entry = k ∧ exit = k + 1 ∧ Fans L a k fs c' := by
  subst hk
  obtain ⟨rfl, rfl, hbush⟩ := Bush.start (L := L) h1 h2
  obtain ⟨_, _, hsize, hentry, hexit, _⟩ := newState_two_ok (R := Eq) h1 h2
  refine ⟨rfl, rfl, h.trans hbush.toAdds, hsize, hexit, ?_, fun f hf => ?_, fun t ht htk => ?_⟩
  · simp [hentry]
  · rw [hbush.keeps _ (hfs f hf).2.2, hfresh f hf]
    simp
  · obtain ⟨e, he, hbyte, heq⟩ := htk
    by_cases hlt : t < c.size
    · rw [hbush.keeps t hlt] at he
      have := h.inside t ht e he
      omega
    · rw [hbush.bytes t (by omega) e he] at hbyte
      cases hbyte

/-- A set that keeps all entries from all exits is sealed when the ways have been added. -/
theorem sealed_of_ways {S : Nat → Prop} (hS : Sealed c S) (hsize : c.size = k + 2)
    (hk : ¬ S k) (hexit : ∀ f ∈ fs, ¬ S f.exit)
    (hrun : (fs.forM fun f => do addEps k f.entry; addEps f.exit (k + 1)) c = .ok (u, c')) :
    Sealed c' S := by
  refine (forM_ok (I := fun c => c.size = k + 2 ∧ Sealed c S) (fun f hf b b' _ hb hrun => ?_)
    ⟨hsize, hS⟩ hrun).2
  obtain ⟨_, b1, h1, hrun⟩ := Build.bind_ok hrun
  obtain rfl := addEdge_ok h1
  obtain rfl := addEdge_ok hrun
  have hle := hfs f hf
  refine ⟨by rw [size_addEdge, size_addEdge, hb.1], ?_⟩
  refine (hb.2.addEdge (by omega) fun h => absurd h hk).addEdge ?_ fun h => absurd h (hexit f hf)
  rw [size_addEdge]
  omega

end Fans

theorem altFragment_makes {ps : List Pattern} {fs : List Fragment} (h : Adds L a c)
    (hparts : Parts c a.size ps fs c.size) (hrun : altFragment limit fs c = .ok (f, c')) :
    Makes L a c' f (Pattern.anyNullable ps) := by
  obtain ⟨entry, c1, h1, hrun⟩ := Build.bind_ok hrun
  obtain ⟨exit, c2, h2, hrun⟩ := Build.bind_ok hrun
  obtain ⟨_, c3, h3, hrun⟩ := Build.bind_ok hrun
  obtain ⟨rfl, rfl⟩ := Build.pure_ok hrun
  have hle := h.size_le
  have hfs := fun g hg => And.intro (hparts.within g hg).1 (hparts.within g hg).2.1
  obtain ⟨rfl, rfl, hstart⟩ :=
    Fans.start hfs h rfl (fun g hg => (hparts.within g hg).2.2) h1 h2
  have hfans : Fans L a c.size fs c' :=
    forM_ok (fun g hg b b' _ hb hrun => hb.step hfs hg hrun) hstart h3
  have hsize := hfans.size_eq
  refine hfans.makes (by simp only; omega) (by simp only; omega) hfans.fresh fun hnone => ?_
  rw [Pattern.anyNullable_eq_any, List.any_eq_false] at hnone
  obtain ⟨S, hS, hways, hlt⟩ := hparts.blocked fun p hp => by simpa using hnone p hp
  have hback : ¬ S c.size := fun hk => Nat.lt_irrefl _ (hlt _ hk).2
  have hbefore : Sealed c2 S := hS.congr fun t ht => by
    obtain ⟨_, _, _, _, _, hnew⟩ := newState_two_ok (R := Eq) h1 h2
    exact hnew.keeps t (hlt t ht).2
  have hafter : Sealed c' S :=
    sealed_of_ways hfs hbefore hstart.size_eq hback (fun g hg => (hways g hg).2) h3
  refine ⟨fun t => t = c.size ∨ S t, ?_, Or.inl rfl, fun t ht => ?_⟩
  · rintro s t (rfl | hs) hst
    · obtain ⟨e, he, _, rfl⟩ := hst
      obtain ⟨_, g, hg, hto⟩ := hfans.ways e he
      exact Or.inr (hto ▸ (hways g hg).1)
    · exact Or.inr (hafter s t hs hst)
  · rcases ht with rfl | ht
    · simp only
      omega
    · have := hlt t ht
      simp only
      omega

/-! ## Repeats -/

/-- Behind a part stand the entry of a repeat that need not pass it, and the state where the repeat
stops. The entry leads to the part and to that state. -/
structure Forks (L : Prop) (a c : Arena) (first : Fragment) (c' : Arena) : Prop
    extends Adds L a c' where
  size_eq : c'.size = c.size + 2
  before : ∀ t < c.size, stateIn c' t = stateIn c t
  stop : stateIn c' (c.size + 1) = {}
  ways : ∀ e ∈ (stateIn c' c.size).edges.toList, e.target = first.entry ∨ e.target = c.size + 1

theorem Forks.part {first : Fragment} {b : Bool} (h : Forks L a c first c')
    (hfirst : Makes L a c first b) : Part c' a.size c.size first b :=
  hfirst.part.congr fun t _ ht => h.before t ht

section Repeat

variable {copy : Build Fragment} {b : Bool} {greedy : Bool} {u : Unit}
  (hcopy : ∀ a g a', copy a = .ok (g, a') → Makes L a a' g b)

include hcopy

/-- Copies behind a part become one with it. The last of them is still a part by itself. -/
theorem chain_makes {k s : Nat} {last : Fragment} {lo mid : Nat}
    (h : Makes L a c ⟨s, f.exit⟩ b) (hf : Part c lo mid f b) (hlo : a.size ≤ lo)
    (hmid : mid ≤ c.size) (hrun : chain copy k f c = .ok (last, c')) :
    Makes L a c' ⟨s, last.exit⟩ b ∧
      ∃ lo mid, Part c' lo mid last b ∧ a.size ≤ lo ∧ mid ≤ c'.size := by
  induction k generalizing f c lo mid with
  | zero =>
    obtain ⟨rfl, rfl⟩ := Build.pure_ok hrun
    exact ⟨h, lo, mid, hf, hlo, hmid⟩
  | succ k ih =>
    obtain ⟨g, c1, h1, hrun⟩ := Build.bind_ok hrun
    obtain ⟨_, c2, h2, hrun⟩ := Build.bind_ok hrun
    obtain rfl := addEdge_ok h2
    have hg := hcopy _ _ _ h1
    have hle := h.size_le
    have hgle := hg.size_le
    have hx := h.part.exit
    simp only at hx
    have hjoin := h.join hg
    rw [Bool.and_self] at hjoin
    refine ih hjoin (hg.part.congr fun t ht _ => ?_) hle ?_ hrun
    · rw [stateIn_addEdge (by omega), if_neg (by omega)]
    · exact Nat.le_of_eq size_addEdge.symm

/-- Copies that may be left out lead from state to state, or stop. -/
theorem optionalCopies_adds {k stop cur last : Nat} (h : Adds L a c)
    (hcur : a.size ≤ cur ∧ cur < c.size) (hstop : a.size ≤ stop ∧ stop < c.size) (hne : cur ≠ stop)
    (hfresh : stateIn c cur = {}) (hfresh' : stateIn c stop = {})
    (hrun : optionalCopies greedy copy stop k cur c = .ok (last, c')) :
    Adds L a c' ∧ c.size ≤ c'.size ∧ (∀ t < c.size, t ≠ cur → stateIn c' t = stateIn c t) ∧
      last < c'.size ∧ (last = cur ∨ c.size ≤ last) ∧ stateIn c' last = {} := by
  induction k generalizing cur c with
  | zero =>
    obtain ⟨rfl, rfl⟩ := Build.pure_ok hrun
    exact ⟨h, Nat.le_refl _, fun _ _ _ => rfl, hcur.2, Or.inl rfl, hfresh⟩
  | succ k ih =>
    obtain ⟨g, c1, h1, hrun⟩ := Build.bind_ok hrun
    obtain ⟨_, c2, h2, hrun⟩ := Build.bind_ok hrun
    have hg := hcopy _ _ _ h1
    have hle := h.size_le
    have hgle := hg.size_le
    have hge := hg.part.entry
    have hgx := hg.part.exit
    have hcur1 : stateIn c1 cur = {} := (hg.keeps cur hcur.2).trans hfresh
    have hstop1 : stateIn c1 stop = {} := (hg.keeps stop hstop.2).trans hfresh'
    have hfill := addChoice_fills (R := Eq) (by omega) (by omega) (by omega) hcur1 h2
    have hsize := hfill.size_eq
    have hadds := (h.trans hg.toAdds).addChoice (by omega) hcur1 (by omega) (by omega)
      (fun _ => hg.part.parted (Or.inl hcur.2)) (fun _ => Parted.fresh hstop1 hne) h2
    obtain ⟨hadds, hle', hkeeps, hlast, hlast', hfresh⟩ :=
      ih hadds (by omega) (by omega) (by omega) ((hfill.keeps _ (by omega)).trans hg.part.fresh)
        ((hfill.keeps _ (Ne.symm hne)).trans hstop1) hrun
    refine ⟨hadds, by omega, fun t ht htc => ?_, hlast, Or.inr (by omega), hfresh⟩
    rw [hkeeps t (by omega) (by omega), hfill.keeps t htc, hg.keeps t ht]

/-- Copies that may be left out, and the way from the last one to where all of them stop. -/
theorem options_adds {k stop cur last : Nat} {c1 : Arena} (h : Adds L a c)
    (hcur : a.size ≤ cur ∧ cur < c.size) (hstop : a.size ≤ stop ∧ stop < c.size) (hne : cur ≠ stop)
    (hfresh : stateIn c cur = {}) (hfresh' : stateIn c stop = {})
    (hrun : optionalCopies greedy copy stop k cur c = .ok (last, c1))
    (hrun' : addEps last stop c1 = .ok (u, c')) :
    Adds L a c' ∧ c.size ≤ c'.size ∧ ∀ t < c.size, t ≠ cur → stateIn c' t = stateIn c t := by
  obtain ⟨hadds, hle, hkeeps, hlast, hlast', hfresh1⟩ :=
    optionalCopies_adds hcopy h hcur hstop hne hfresh hfresh' hrun
  obtain rfl := addEdge_ok hrun'
  have hstop1 : stateIn c1 stop = {} := (hkeeps stop hstop.2 (Ne.symm hne)).trans hfresh'
  refine ⟨hadds.addEps (by omega) (by omega) (by simp [hfresh1])
    fun _ => Parted.fresh hstop1 (by omega), by rwa [size_addEdge], fun t ht htc => ?_⟩
  rw [stateIn_addEdge hlast, if_neg (by omega), hkeeps t ht htc]

omit hcopy in
theorem Forks.start {entry stop : Nat} {first : Fragment} {c1 c2 : Arena}
    (hfirst : Makes L a c first b) (h1 : newState limit c = .ok (entry, c1))
    (h2 : newState limit c1 = .ok (stop, c2))
    (h3 : addChoice greedy entry first.entry stop c2 = .ok (u, c')) :
    entry = c.size ∧ stop = c.size + 1 ∧ Forks L a c first c' := by
  obtain ⟨_, _, hbush⟩ := Bush.start (L := L) h1 h2
  obtain ⟨rfl, rfl, hsize, hentry, hstop, _⟩ := newState_two_ok (R := Eq) h1 h2
  have hle := hfirst.size_le
  have hfe := hfirst.part.entry
  have hpart : Part c2 a.size c.size first b := hfirst.part.congr fun t _ ht => hbush.keeps t ht
  have hfill := addChoice_fills (R := Eq) (by omega) (by omega) (by omega) hentry h3
  refine ⟨rfl, rfl, ?_, ?_, fun t ht => ?_, ?_, fun e he => ?_⟩
  · exact (hfirst.toAdds.trans hbush.toAdds).addChoice (by omega) hentry (by omega) (by omega)
      (fun _ => hpart.parted (Or.inr (Nat.le_refl _)))
      (fun _ => Parted.fresh hstop (Nat.succ_ne_self _).symm) h3
  · rw [hfill.size_eq, hsize]
  · rw [hfill.keeps t (Nat.ne_of_lt ht), hbush.keeps t ht]
  · rw [hfill.keeps _ (by omega), hstop]
  · rw [hfill.fills, choice_eq] at he
    obtain ⟨t, ht, rfl⟩ := List.mem_map.1 he
    cases greedy <;> simpa [Edge.target, or_comm] using ht

omit hcopy in
/-- A body that leads back to where the repeat may go on or stop. -/
theorem repeat_star_makes {first : Fragment} (hfirst : Makes L a c first b)
    (hloop : L → b = false)
    (hrun : repeatFragment limit copy first 0 none greedy c = .ok (f, c')) :
    Makes L a c' f true := by
  obtain ⟨entry, c1, h1, hrun⟩ := Build.bind_ok hrun
  obtain ⟨stop, c2, h2, hrun⟩ := Build.bind_ok hrun
  obtain ⟨_, c3, h3, hrun⟩ := Build.bind_ok hrun
  obtain ⟨_, c4, h4, hrun⟩ := Build.bind_ok hrun
  obtain ⟨rfl, rfl⟩ := Build.pure_ok hrun
  obtain ⟨rfl, rfl, hfork⟩ := Forks.start hfirst h1 h2 h3
  have hsize := hfork.size_eq
  have hle := hfirst.size_le
  have hpart := hfork.part hfirst
  have hexit := hpart.exit
  -- from the entry of the repeat one gets into the body, but not through it
  have hback : L → Parted c3 c.size first.exit := by
    intro hl
    obtain ⟨S, hS, hin, hlt⟩ := hpart.blocked (hloop hl)
    refine ⟨fun t => (t = c.size ∨ t = c.size + 1) ∨ S t, ?_, Or.inl (Or.inl rfl), ?_⟩
    · rintro s t ((rfl | rfl) | hs) hst
      · obtain ⟨e, he, _, rfl⟩ := hst
        rcases hfork.ways e he with hto | hto
        · exact Or.inr (hto ▸ hin)
        · exact Or.inl (Or.inr hto)
      · exact absurd hst (not_freeEdge hfork.stop)
      · exact Or.inr (hS s t hs hst)
    · rintro ((hx | hx) | hx)
      · omega
      · omega
      · exact (hlt _ hx).2.2 rfl
  obtain rfl := addEdge_ok h4
  have hadds := hfork.addEps (s := first.exit) (t := c.size) (by omega) (by omega)
    (by simp [hpart.fresh]) hback
  refine hadds.makes (by simp only [size_addEdge]; omega) (by simp only [size_addEdge]; omega) ?_
    nofun
  rw [stateIn_addEdge (by omega), if_neg (by simp only; omega), hfork.stop]

/-- The copies that must be passed, behind a new entry. -/
theorem mustCopies_makes {m entry : Nat} {first last : Fragment} {c1 c2 : Arena}
    (hfirst : Makes L a c first b) (h1 : newState limit c = .ok (entry, c1))
    (h2 : addEps entry first.entry c1 = .ok (u, c2))
    (h3 : chain copy m first c2 = .ok (last, c')) :
    Makes L a c' ⟨entry, last.exit⟩ b ∧
      ∃ lo mid, Part c' lo mid last b ∧ a.size ≤ lo ∧ mid ≤ c'.size := by
  obtain ⟨rfl, rfl⟩ := newState_ok h1
  obtain rfl := addEdge_ok h2
  have hsize : Array.size (Array.push c {}) = c.size + 1 := Array.size_push _
  refine chain_makes hcopy hfirst.before
    (hfirst.part.congr fun t _ ht => ?_) (Nat.le_refl _) ?_ h3
  · rw [stateIn_addEdge (by omega), if_neg (by omega), stateIn_newState]
  · rw [size_addEdge]
    omega

theorem repeat_plus_makes {m : Nat} {first : Fragment} (hfirst : Makes L a c first b)
    (hloop : L → b = false)
    (hrun : repeatFragment limit copy first (m + 1) none greedy c = .ok (f, c')) :
    Makes L a c' f b := by
  obtain ⟨entry, c1, h1, hrun⟩ := Build.bind_ok hrun
  obtain ⟨_, c2, h2, hrun⟩ := Build.bind_ok hrun
  obtain ⟨last, c3, h3, hrun⟩ := Build.bind_ok hrun
  obtain ⟨stop, c4, h4, hrun⟩ := Build.bind_ok hrun
  obtain ⟨_, c5, h5, hrun⟩ := Build.bind_ok hrun
  obtain ⟨rfl, rfl⟩ := Build.pure_ok hrun
  obtain ⟨hmust, lo, mid, hlast, hlo, hmid⟩ := mustCopies_makes hcopy hfirst h1 h2 h3
  obtain ⟨rfl, rfl⟩ := newState_ok h4
  have hsize : Array.size (Array.push c3 {}) = c3.size + 1 := Array.size_push _
  have hle := hmust.size_le
  have hentry := hlast.entry
  have hexit := hlast.exit
  have hlast4 : Part (c3.push {}) lo mid last b := hlast.congr fun _ _ _ => stateIn_newState
  have hstop4 : stateIn (c3.push {}) c3.size = {} := by
    rw [stateIn_newState, stateIn_of_le (Nat.le_refl _)]
  have hfill := addChoice_fills (R := Eq) (by omega) (by omega) (by omega) hlast4.fresh h5
  have hsize5 := hfill.size_eq
  have hadds := hmust.toAdds.newState.addChoice (by omega) hlast4.fresh (by omega) (by omega)
    (fun hl => hlast4.parted_exit (hloop hl)) (fun _ => Parted.fresh hstop4 (by omega)) h5
  refine hmust.past hadds (by omega) (fun t ht hne => ?_) ?_
  · rw [hfill.keeps t hne, stateIn_newState]
  · rw [hfill.keeps _ (by omega), hstop4]

theorem repeat_options_makes {k : Nat} {first : Fragment} (hfirst : Makes L a c first b)
    (hrun : repeatFragment limit copy first 0 (some (k + 1)) greedy c = .ok (f, c')) :
    Makes L a c' f true := by
  obtain ⟨entry, c1, h1, hrun⟩ := Build.bind_ok hrun
  obtain ⟨stop, c2, h2, hrun⟩ := Build.bind_ok hrun
  obtain ⟨_, c3, h3, hrun⟩ := Build.bind_ok hrun
  obtain ⟨last, c4, h4, hrun⟩ := Build.bind_ok hrun
  obtain ⟨_, c5, h5, hrun⟩ := Build.bind_ok hrun
  obtain ⟨rfl, rfl⟩ := Build.pure_ok hrun
  obtain ⟨rfl, rfl, hfork⟩ := Forks.start hfirst h1 h2 h3
  have hsize := hfork.size_eq
  have hle := hfirst.size_le
  have hpart := hfork.part hfirst
  have hexit := hpart.exit
  obtain ⟨hadds, hle', hkeeps⟩ := options_adds hcopy hfork.toAdds (by omega) (by omega) (by omega)
    hpart.fresh hfork.stop h4 h5
  refine hadds.makes (by simp only; omega) (by simp only; omega) ?_ nofun
  rw [hkeeps _ (by simp only; omega) (by simp only; omega), hfork.stop]

theorem repeat_bounded_makes {m top : Nat} {first : Fragment} (hfirst : Makes L a c first b)
    (hrun : repeatFragment limit copy first (m + 1) (some top) greedy c = .ok (f, c')) :
    Makes L a c' f b := by
  obtain ⟨entry, c1, h1, hrun⟩ := Build.bind_ok hrun
  obtain ⟨_, c2, h2, hrun⟩ := Build.bind_ok hrun
  obtain ⟨last, c3, h3, hrun⟩ := Build.bind_ok hrun
  obtain ⟨hmust, _⟩ := mustCopies_makes hcopy hfirst h1 h2 h3
  split at hrun
  · obtain ⟨rfl, rfl⟩ := Build.pure_ok hrun
    exact hmust
  · obtain ⟨stop, c4, h4, hrun⟩ := Build.bind_ok hrun
    obtain ⟨cur, c5, h5, hrun⟩ := Build.bind_ok hrun
    obtain ⟨_, c6, h6, hrun⟩ := Build.bind_ok hrun
    obtain ⟨rfl, rfl⟩ := Build.pure_ok hrun
    obtain ⟨rfl, rfl⟩ := newState_ok h4
    have hsize : Array.size (Array.push c3 {}) = c3.size + 1 := Array.size_push _
    have hle := hmust.size_le
    have hexit := hmust.part.exit
    have hfresh := hmust.part.fresh
    simp only at hexit hfresh
    have hstop4 : stateIn (c3.push {}) c3.size = {} := by
      rw [stateIn_newState, stateIn_of_le (Nat.le_refl _)]
    obtain ⟨hadds, hle', hkeeps⟩ := options_adds hcopy hmust.toAdds.newState (by omega) (by omega)
      (by omega) (stateIn_newState.trans hfresh) hstop4 h5 h6
    refine hmust.past hadds (by omega) (fun t ht hne => ?_) ?_
    · rw [hkeeps t (by omega) hne, stateIn_newState]
    · rw [hkeeps _ (by omega) (by omega), hstop4]

/-- A repeat consumes if it must pass its body, and the body consumes. -/
theorem repeatFragment_makes {min : Nat} {max : Option Nat} {first : Fragment}
    (hfirst : Makes L a c first b) (hloop : max = none → L → b = false)
    (hrun : repeatFragment limit copy first min max greedy c = .ok (f, c')) :
    Makes L a c' f (min == 0 || b) := by
  match min, max with
  | 0, none => exact repeat_star_makes hfirst (hloop rfl) hrun
  | m + 1, none => exact repeat_plus_makes hcopy hfirst (hloop rfl) hrun
  | 0, some 0 =>
    obtain ⟨entry, c1, h1, hrun⟩ := Build.bind_ok hrun
    obtain ⟨rfl, rfl⟩ := Build.pure_ok hrun
    have hnew := newState_makes (L := L) h1
    have hle := hfirst.size_le
    have hentry := hnew.part.entry
    exact (hfirst.toAdds.trans hnew.toAdds).makes ⟨Nat.le_trans hle hentry.1, hentry.2⟩
      ⟨Nat.le_trans hle hentry.1, hentry.2⟩ hnew.part.fresh nofun
  | 0, some (k + 1) => exact repeat_options_makes hcopy hfirst hrun
  | m + 1, some top => exact repeat_bounded_makes hcopy hfirst hrun

/-- Each copy has a state at least. -/
theorem chain_size_le {k : Nat} {last : Fragment} (hrun : chain copy k f c = .ok (last, c')) :
    c.size + k ≤ c'.size := by
  induction k generalizing f c with
  | zero =>
    obtain ⟨_, rfl⟩ := Build.pure_ok hrun
    exact Nat.le_refl _
  | succ k ih =>
    obtain ⟨g, c1, h1, hrun⟩ := Build.bind_ok hrun
    obtain ⟨_, c2, h2, hrun⟩ := Build.bind_ok hrun
    obtain rfl := addEdge_ok h2
    have hentry := (hcopy _ _ _ h1).part.entry
    have hrest := ih hrun
    rw [size_addEdge] at hrest
    omega

/-- The passes that an unbounded repeat must make are no more than the states that there may be. -/
theorem repeat_min_le {min : Nat} {first : Fragment}
    (hrun : repeatFragment limit copy first min none greedy c = .ok (f, c')) : min ≤ limit := by
  cases min with
  | zero => exact Nat.zero_le _
  | succ m =>
    obtain ⟨entry, c1, h1, hrun⟩ := Build.bind_ok hrun
    obtain ⟨_, c2, h2, hrun⟩ := Build.bind_ok hrun
    obtain ⟨last, c3, h3, hrun⟩ := Build.bind_ok hrun
    obtain ⟨stop, c4, h4, _⟩ := Build.bind_ok hrun
    obtain ⟨rfl, rfl⟩ := newState_ok h1
    obtain rfl := addEdge_ok h2
    have hcopies := chain_size_le hcopy h3
    have hlast := newState_lt h4
    rw [size_addEdge, Array.size_push] at hcopies
    omega

end Repeat

end ByteRegex.Nfa
