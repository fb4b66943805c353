-- The construction builds the fragment of a pattern: the sequences of a class
-- node share a tree, and sequences, alternations and repeats join the
-- fragments of their parts.
import ByteRegex.Proofs.ByteSet
import ByteRegex.Proofs.Nfa.Trie
import ByteRegex.Proofs.Nfa.Visit

namespace ByteRegex.Nfa

open Utf8 (ByteRange)

variable {R : UInt8 → UInt8 → Prop} {a a' c c' : Arena}

/-! ## Fragments in a row -/

/-- The fragments of patterns stand side by side from `lo` on below `hi`. -/
inductive Row (a : Arena) : Nat → List Pattern → List Fragment → Nat → Prop
  | nil {lo : Nat} : Row a lo [] [] lo
  | cons {lo mid hi : Nat} {p : Pattern} {ps : List Pattern} {f : Fragment} {fs : List Fragment} :
      lo ≤ mid → Placed a lo mid f (fun n => Frag n p f.entry f.exit) → Row a mid ps fs hi →
      Row a lo (p :: ps) (f :: fs) hi

namespace Row

variable {lo hi : Nat} {ps : List Pattern} {fs : List Fragment}

theorem le (h : Row a lo ps fs hi) : lo ≤ hi := by
  induction h with
  | nil => exact Nat.le_refl _
  | cons hle _ _ ih => exact Nat.le_trans hle ih

theorem congr (h : Row a lo ps fs hi) (ha : ∀ t, lo ≤ t → t < hi → stateIn a' t = stateIn a t) :
    Row a' lo ps fs hi := by
  induction h with
  | nil => exact .nil
  | cons hle hf hrest ih =>
    exact .cons hle (hf.congr fun t h1 h2 => ha t h1 (Nat.lt_of_lt_of_le h2 hrest.le))
      (ih fun t h1 h2 => ha t (Nat.le_trans hle h1) h2)

end Row

/-! ## Sequences -/

theorem link_ok {p : Pattern} {ps : List Pattern} {f : Fragment} {fs : List Fragment}
    {lo hi : Nat} {u : Unit} (hrow : Row c lo (p :: ps) (f :: fs) hi) (hhi : hi ≤ c.size)
    (h : link (f :: fs) c = .ok (u, c')) :
    c'.size = c.size ∧ (∀ t, t < lo ∨ hi ≤ t → stateIn c' t = stateIn c t) ∧
      (AllTidy R c → AllTidy R c') ∧
      Placed c' lo hi ⟨f.entry, ((f :: fs).getLast (by simp)).exit⟩
        (fun n => SeqFrag n (p :: ps) f.entry ((f :: fs).getLast (by simp)).exit) := by
  induction fs generalizing p ps f lo c with
  | nil =>
    obtain ⟨_, rfl⟩ := Build.pure_ok (r := u) (x := ()) h
    cases hrow with
    | cons hle hf hrest =>
      cases hrest
      exact ⟨rfl, fun _ _ => rfl, id, hf⟩
  | cons g fs ih =>
    cases hrow with
    | @cons _ mid _ _ _ _ _ hle hf hrest =>
      cases hrest with
      | @cons _ mid' _ q ps _ _ hle' hg hrest =>
        have hmid := hrest.le
        have hfe := hf.entry
        have hfx := hf.exit
        have hge := hg.entry
        obtain ⟨_, c1, h1, h⟩ := Build.bind_ok h
        have hfill := addEps_fills (R := R) (by omega) (by omega) hf.fresh h1
        have hrow := (Row.cons hle' hg hrest).congr fun t h2 _ => hfill.keeps t (by omega)
        obtain ⟨hsize, hkeeps, htidy, hplaced⟩ := ih hrow (by rwa [hfill.size_eq]) h
        have hkeeps' : ∀ t, t < mid ∨ hi ≤ t → t ≠ f.exit → stateIn c' t = stateIn c t :=
          fun t ht hne => (hkeeps t ht).trans (hfill.keeps t hne)
        have hlast := hplaced.exit
        refine ⟨hsize.trans hfill.size_eq, fun t ht => hkeeps' t (by omega) (by omega),
          fun hc => htidy (hfill.tidy hc), ⟨hfe.1, by simp only; omega⟩,
          ⟨Nat.le_trans hle hlast.1, hlast.2⟩, hplaced.fresh, fun n hn => ?_⟩
        simp only [List.getLast_cons_cons] at hn hlast ⊢
        refine ⟨f.exit, g.entry, hf.holds n fun t ht => ?_, ?_, hplaced.holds n (hn.mono ?_)⟩
        · rw [← hkeeps' t (Or.inl ht.2.1) ht.2.2]
          exact hn t ⟨ht.1, by omega, by omega⟩
        · refine hn.wired ⟨hfx.1, by omega, by omega⟩ ?_
          rw [hkeeps f.exit (Or.inl hfx.2)]
          exact hfill.fills
        · intro t ht
          exact ⟨Nat.le_trans hle ht.1, ht.2.1, ht.2.2⟩

theorem seqFragment_built {limit : Nat} {ps : List Pattern} {fs : List Fragment} {f : Fragment}
    (hgrows : Grows R a c) (hrow : Row c a.size ps fs c.size)
    (h : seqFragment limit fs c = .ok (f, c')) :
    Built R a c' f (fun n => SeqFrag n ps f.entry f.exit) := by
  generalize hhi : c.size = hi at hrow
  cases hrow with
  | nil =>
    obtain ⟨s, a1, h1, h⟩ := Build.bind_ok h
    obtain ⟨rfl, rfl⟩ := Build.pure_ok h
    obtain ⟨hg, hp⟩ := newState_built (R := R) h1
    refine ⟨hgrows.trans hg, ?_, ?_, hp.fresh, fun n _ => rfl⟩
    · exact ⟨Nat.le_trans hgrows.size_le hp.entry.1, hp.entry.2⟩
    · exact ⟨Nat.le_trans hgrows.size_le hp.exit.1, hp.exit.2⟩
  | cons hle hf hrest =>
    obtain ⟨_, a1, h1, h⟩ := Build.bind_ok h
    obtain ⟨rfl, rfl⟩ := Build.pure_ok h
    obtain ⟨hsize, hkeeps, htidy, hplaced⟩ :=
      link_ok (R := R) (.cons hle hf hrest) (Nat.le_of_eq hhi.symm) h1
    refine ⟨⟨hsize ▸ hgrows.size_le, fun t ht => ?_, fun ha => htidy (hgrows.tidy ha)⟩, ?_⟩
    · exact (hkeeps t (Or.inl ht)).trans (hgrows.keeps t ht)
    · rwa [hsize, hhi]

/-! ## Alternations -/

/-- The ways into the parts of an alternation and out of them. -/
theorem altEdges_ok {ps : List Pattern} {fs : List Fragment} {lo hi entry exit : Nat} {u : PUnit}
    (hrow : Row c lo ps fs hi) (hentry : hi ≤ entry) (hentry' : entry < c.size)
    (hexit' : exit < c.size)
    (hfree : ∀ e ∈ (stateIn c entry).edges.toList, e.isByte = false)
    (h : (fs.forM fun f => do addEps entry f.entry; addEps f.exit exit) c = .ok (u, c')) :
    c'.size = c.size ∧
      (∀ t, t < lo ∨ (hi ≤ t ∧ t ≠ entry) → stateIn c' t = stateIn c t) ∧
      stateIn c' entry = { stateIn c entry with
        edges := (stateIn c entry).edges ++ (fs.map fun f => Edge.eps f.entry).toArray } ∧
      (AllTidy R c → AllTidy R c') ∧
      ∀ n, Like n c' (fun t => lo ≤ t ∧ t < hi) → AltFrag n ps (fs.map Fragment.entry) exit := by
  induction fs generalizing c ps lo with
  | nil =>
    cases hrow
    obtain ⟨_, rfl⟩ := Build.pure_ok h
    exact ⟨rfl, fun _ _ => rfl, by simp, id, fun n _ => trivial⟩
  | cons f fs ih =>
    cases hrow with
    | @cons _ mid _ p ps _ _ hle hf hrest =>
      have hmid := hrest.le
      have hfe := hf.entry
      have hfx := hf.exit
      obtain ⟨_, c1, h1, h⟩ := Build.bind_ok h
      obtain ⟨_, c2, h2, h1⟩ := Build.bind_ok h1
      obtain rfl := addEdge_ok h2
      have hfresh : stateIn (c.addEdge entry (.eps f.entry)) f.exit = {} := by
        rw [stateIn_addEdge hentry', if_neg (by omega), hf.fresh]
      have hfill := addEps_fills (R := R) (by rw [size_addEdge]; omega) (by rwa [size_addEdge])
        hfresh h1
      have hsize1 : c1.size = c.size := hfill.size_eq.trans size_addEdge
      have hstate : ∀ t, t ≠ entry → t ≠ f.exit → stateIn c1 t = stateIn c t := by
        intro t h1 h2
        rw [hfill.keeps t h2, stateIn_addEdge hentry', if_neg h1]
      have hway : stateIn c1 entry = { stateIn c entry with
          edges := (stateIn c entry).edges.push (.eps f.entry) } := by
        rw [hfill.keeps entry (by omega), stateIn_addEdge hentry', if_pos rfl]
      have hfree' : ∀ e ∈ (stateIn c1 entry).edges.toList, e.isByte = false := by
        intro e he
        rw [hway, Array.toList_push, List.mem_append, List.mem_singleton] at he
        rcases he with he | rfl
        · exact hfree e he
        · rfl
      obtain ⟨hsize, hkeeps, hent, htidy, hholds⟩ :=
        ih (hrest.congr fun t h1 h2 => hstate t (by omega) (by omega)) (by rwa [hsize1])
          (by rwa [hsize1]) hfree' h
      refine ⟨hsize.trans hsize1, fun t ht => ?_, ?_, fun hc => htidy (hfill.tidy ?_),
        fun n hn => ?_⟩
      · rw [hkeeps t (by omega)]
        exact hstate t (by omega) (by omega)
      · rw [hent, hway]
        simp
      · exact hc.addEdge hentry' (by simp only [Edge.target]; omega) Edge.even_eps hfree
      · refine ⟨⟨f.exit, hf.holds n fun t ht => ?_, ?_⟩, hholds n (hn.mono fun t ht => ⟨?_, ht.2⟩)⟩
        · rw [hn t ⟨ht.1, by omega⟩, hkeeps t (Or.inl ht.2.1)]
          exact hstate t (by omega) ht.2.2
        · refine hn.wired ⟨by omega, by omega⟩ ?_
          rw [hkeeps _ (Or.inl hfx.2)]
          exact hfill.fills
        · exact Nat.le_trans hle ht.1

theorem altFragment_built {limit : Nat} {ps : List Pattern} {fs : List Fragment} {f : Fragment}
    (hgrows : Grows R a c) (hrow : Row c a.size ps fs c.size)
    (h : altFragment limit fs c = .ok (f, c')) :
    Built R a c' f (fun n => ∃ entries, Wired n f.entry (entries.map .eps) ∧
      AltFrag n ps entries f.exit) := by
  have hle := hrow.le
  obtain ⟨entry, c1, h1, h⟩ := Build.bind_ok h
  obtain ⟨exit, c2, h2, h⟩ := Build.bind_ok h
  obtain ⟨_, c3, h3, h⟩ := Build.bind_ok h
  obtain ⟨rfl, rfl⟩ := Build.pure_ok h
  obtain ⟨rfl, rfl, hsize2, hentry, hexit, hnew⟩ := newState_two_ok (R := R) h1 h2
  obtain ⟨hsize, hkeeps, hent, htidy, hholds⟩ :=
    altEdges_ok (R := R) (hrow.congr fun t _ ht => hnew.keeps t ht) (Nat.le_refl _)
      (by omega) (by omega) (by simp [hentry]) h3
  rw [hsize2] at hsize
  have hx : stateIn c' (c.size + 1) = {} := by
    rw [hkeeps _ (Or.inr ⟨by omega, by omega⟩), hexit]
  refine ⟨⟨by omega, fun t ht => ?_, fun ha => htidy (hnew.tidy (hgrows.tidy ha))⟩, ?_, ?_, hx, ?_⟩
  · rw [hkeeps t (Or.inl ht), hnew.keeps t (by omega), hgrows.keeps t ht]
  · simp only
    omega
  · simp only
    omega
  · intro n hn
    refine ⟨fs.map Fragment.entry, hn.wired ⟨hle, by omega, by simp⟩ ?_, hholds n (hn.mono ?_)⟩
    · rw [hent, hentry]
      simp [Function.comp_def]
    · intro t ht
      simp only
      omega

/-! ## Repeats -/

/-- Copies of a body one behind the other, all but the last. -/
inductive Chained (n : Nfa) (F : Nat → Nat → Prop) : Nat → Fragment → Fragment → Prop
  | one {f : Fragment} : Chained n F 0 f f
  | more {k : Nat} {f g last : Fragment} :
      F f.entry f.exit → Wired n f.exit [.eps g.entry] → Chained n F k g last →
      Chained n F (k + 1) f last

/-- Copies of a body from a state on, each of which may be left out with those behind it. -/
inductive Optional (n : Nfa) (F : Nat → Nat → Prop) (greedy : Bool) (stop : Nat) :
    Nat → Nat → Nat → Prop
  | none {cur : Nat} : Optional n F greedy stop 0 cur cur
  | more {k cur last : Nat} {g : Fragment} :
      Wired n cur (choice greedy g.entry stop) → F g.entry g.exit →
      Optional n F greedy stop k g.exit last → Optional n F greedy stop (k + 1) cur last

theorem Chained.copies {n : Nfa} {F : Nat → Nat → Prop} {greedy : Bool} {k m stop : Nat}
    {max : Option Nat} {f last : Fragment} (h : Chained n F k f last)
    (hlast : ∀ s, Wired n s [.eps last.entry] → Copies n F greedy m max s stop) :
    ∀ s, Wired n s [.eps f.entry] → Copies n F greedy (m + k) (max.map (· + k)) s stop := by
  induction h with
  | one =>
    intro s hs
    have := hlast s hs
    simpa using this
  | @more k f g last hf hw _ ih =>
    intro s hs
    have hrest := ih hlast _ hw
    have := Copies.must hs hf hrest
    rw [Option.map_map] at this
    exact this

theorem Optional.copies {n : Nfa} {F : Nat → Nat → Prop} {greedy : Bool} {stop k cur last : Nat}
    (h : Optional n F greedy stop k cur last) (hw : Wired n last [.eps stop]) :
    Copies n F greedy 0 (some k) cur stop := by
  induction h with
  | none => exact .finish hw
  | more hc hF _ ih => exact .option hc hF (ih hw)

section Repeat

variable {F : Nfa → Nat → Nat → Prop} {copy : Build Fragment}
  (hcopy : ∀ a g a', copy a = .ok (g, a') → Built R a a' g fun n => F n g.entry g.exit)

include hcopy

theorem chain_ok {k lo mid : Nat} {f last : Fragment}
    (hf : Placed c lo mid f fun n => F n f.entry f.exit) (hmid : mid ≤ c.size)
    (h : chain copy k f c = .ok (last, c')) :
    c.size ≤ c'.size ∧ (∀ t < c.size, t ≠ f.exit → stateIn c' t = stateIn c t) ∧
      (AllTidy R c → AllTidy R c') ∧ last.entry < c'.size ∧ last.exit < c'.size ∧
      (last.exit = f.exit ∨ c.size ≤ last.exit) ∧ stateIn c' last.exit = {} ∧
      ∀ n, Like n c' (fun t => ((lo ≤ t ∧ t < mid) ∨ (c.size ≤ t ∧ t < c'.size)) ∧
        t ≠ last.exit) → Chained n (F n) k f last ∧ F n last.entry last.exit := by
  have hfe := hf.entry
  have hfx := hf.exit
  induction k generalizing f c lo mid with
  | zero =>
    obtain ⟨rfl, rfl⟩ := Build.pure_ok h
    refine ⟨Nat.le_refl _, fun _ _ _ => rfl, id, by omega, by omega, Or.inl rfl, hf.fresh,
      fun n hn => ⟨.one, hf.holds n (hn.mono fun t ht => ⟨Or.inl ⟨ht.1, ht.2.1⟩, ht.2.2⟩)⟩⟩
  | succ k ih =>
    obtain ⟨g, c1, h1, h⟩ := Build.bind_ok h
    obtain ⟨_, c2, h2, h⟩ := Build.bind_ok h
    obtain ⟨hgrows, hg⟩ := hcopy _ _ _ h1
    have hsize := hgrows.size_le
    have hge := hg.entry
    have hgx := hg.exit
    have hfill := addEps_fills (R := R) (by omega) (by omega)
      ((hgrows.keeps _ (by omega)).trans hf.fresh) h2
    obtain ⟨hle, hkeeps, htidy, he, hx, hlast, hfresh, hholds⟩ :=
      ih (hg.congr fun t h3 _ => hfill.keeps t (by omega)) (Nat.le_of_eq hfill.size_eq.symm) h
        hge hgx
    rw [hfill.size_eq] at hle hkeeps hlast
    have hkeeps' : ∀ t < c.size, t ≠ f.exit → stateIn c' t = stateIn c t := fun t h3 h4 => by
      rw [hkeeps t (by omega) (by omega), hfill.keeps t h4, hgrows.keeps t h3]
    refine ⟨by omega, hkeeps', fun hc => htidy (hfill.tidy (hgrows.tidy hc)), he, hx,
      Or.inr (by omega), hfresh, fun n hn => ?_⟩
    obtain ⟨hchain, hF⟩ := hholds n (hn.mono fun t ht => ⟨Or.inr (by have := hfill.size_eq; omega),
      ht.2⟩)
    refine ⟨.more (hf.holds n fun t ht => ?_) (hn.wired ⟨Or.inl hfx, by omega⟩ ?_) hchain, hF⟩
    · rw [hn t ⟨Or.inl ⟨ht.1, ht.2.1⟩, by omega⟩]
      exact hkeeps' t (by omega) ht.2.2
    · rw [hkeeps _ (by omega) (by omega)]
      exact hfill.fills

theorem optionalCopies_ok {greedy : Bool} {stop k cur last : Nat} (hcur : cur < c.size)
    (hstop : stop < c.size) (hfresh : stateIn c cur = {})
    (h : optionalCopies greedy copy stop k cur c = .ok (last, c')) :
    c.size ≤ c'.size ∧ (∀ t < c.size, t ≠ cur → stateIn c' t = stateIn c t) ∧
      (AllTidy R c → AllTidy R c') ∧ last < c'.size ∧ (last = cur ∨ c.size ≤ last) ∧
      stateIn c' last = {} ∧
      ∀ n, Like n c' (fun t => (t = cur ∨ (c.size ≤ t ∧ t < c'.size)) ∧ t ≠ last) →
        Optional n (F n) greedy stop k cur last := by
  induction k generalizing cur c with
  | zero =>
    obtain ⟨rfl, rfl⟩ := Build.pure_ok h
    exact ⟨Nat.le_refl _, fun _ _ _ => rfl, id, hcur, Or.inl rfl, hfresh, fun n _ => .none⟩
  | succ k ih =>
    obtain ⟨g, c1, h1, h⟩ := Build.bind_ok h
    obtain ⟨_, c2, h2, h⟩ := Build.bind_ok h
    obtain ⟨hgrows, hg⟩ := hcopy _ _ _ h1
    have hsize := hgrows.size_le
    have hge := hg.entry
    have hgx := hg.exit
    have hfill := addChoice_fills (R := R) (by omega) (by omega) (by omega)
      ((hgrows.keeps _ hcur).trans hfresh) h2
    have hsize2 := hfill.size_eq
    obtain ⟨hle, hkeeps, htidy, hx, hlast, hfresh', hholds⟩ :=
      ih (by omega) (by omega) ((hfill.keeps _ (by omega)).trans hg.fresh) h
    refine ⟨by omega, fun t h3 h4 => ?_, fun hc => htidy (hfill.tidy (hgrows.tidy hc)), hx,
      Or.inr (by omega), hfresh', fun n hn => ?_⟩
    · rw [hkeeps t (by omega) (by omega), hfill.keeps t h4, hgrows.keeps t h3]
    · refine .more (hn.wired ⟨Or.inl rfl, by omega⟩ ?_) (hg.holds n fun t ht => ?_)
        (hholds n (hn.mono fun t ht => ⟨Or.inr (by omega), ht.2⟩))
      · rw [hkeeps _ (by omega) (by omega)]
        exact hfill.fills
      · rw [hn t ⟨Or.inr (by omega), by omega⟩, hkeeps t (by omega) ht.2.2,
          hfill.keeps t (by omega)]

/-- The entry of a repeat and the copies that must be passed. -/
theorem mustCopies_ok {limit m entry : Nat} {first last : Fragment} {c1 c2 c3 : Arena} {u : Unit}
    (hfirst : Built R a c first fun n => F n first.entry first.exit)
    (h1 : newState limit c = .ok (entry, c1)) (h2 : addEps entry first.entry c1 = .ok (u, c2))
    (h3 : chain copy m first c2 = .ok (last, c3)) :
    Grows R a c3 ∧ a.size ≤ entry ∧ entry < c3.size ∧ last.entry < c3.size ∧
      last.exit < c3.size ∧ a.size ≤ last.exit ∧ entry ≠ last.exit ∧ stateIn c3 last.exit = {} ∧
      ∀ n, Like n c3 (fun t => a.size ≤ t ∧ t < c3.size ∧ t ≠ last.exit) →
        Wired n entry [.eps first.entry] ∧ Chained n (F n) m first last ∧
          F n last.entry last.exit := by
  obtain ⟨hgrows, hf⟩ := hfirst
  have hle := hgrows.size_le
  have hfe := hf.entry
  have hfx := hf.exit
  obtain ⟨rfl, rfl⟩ := newState_ok h1
  have hnew := Grows.newState (R := R) c
  have hsize1 : Array.size (Array.push c {}) = c.size + 1 := by simp
  have hfill := addEps_fills (R := R) (by omega) (by omega)
    (by rw [stateIn_push, if_pos rfl]) h2
  have hsize2 := hfill.size_eq.trans hsize1
  have hkeeps2 : ∀ t < c.size, stateIn c2 t = stateIn c t := fun t ht => by
    rw [hfill.keeps t (by omega), hnew.keeps t ht]
  obtain ⟨hle3, hkeeps, htidy, he, hx, hlast, hfresh, hholds⟩ :=
    chain_ok hcopy (hf.congr fun t _ ht => hkeeps2 t ht) (by omega) h3
  refine ⟨⟨by omega, fun t ht => ?_, fun ha => htidy (hfill.tidy (hnew.tidy (hgrows.tidy ha)))⟩,
    hle, by omega, he, hx, by omega, by omega, hfresh, fun n hn => ⟨?_, hholds n (hn.mono ?_)⟩⟩
  · rw [hkeeps t (by omega) (by omega), hkeeps2 t (by omega), hgrows.keeps t ht]
  · refine hn.wired ⟨hle, by omega, by omega⟩ ?_
    rw [hkeeps _ (by omega) (by omega)]
    exact hfill.fills
  · intro t ht
    exact ⟨by omega, by omega, ht.2⟩

omit hcopy in
theorem repeat_star_built {limit : Nat} {greedy : Bool} {first f : Fragment}
    (hfirst : Built R a c first fun n => F n first.entry first.exit)
    (h : repeatFragment limit copy first 0 none greedy c = .ok (f, c')) :
    Built R a c' f (fun n => Copies n (F n) greedy 0 none f.entry f.exit) := by
  obtain ⟨hgrows, hf⟩ := hfirst
  have hle := hgrows.size_le
  have hfe := hf.entry
  have hfx := hf.exit
  obtain ⟨entry, c1, h1, h⟩ := Build.bind_ok h
  obtain ⟨stop, c2, h2, h⟩ := Build.bind_ok h
  obtain ⟨_, c3, h3, h⟩ := Build.bind_ok h
  obtain ⟨_, c4, h4, h⟩ := Build.bind_ok h
  obtain ⟨rfl, rfl⟩ := Build.pure_ok h
  obtain ⟨rfl, rfl, hsize2, hentry, hexit, hnew⟩ := newState_two_ok (R := R) h1 h2
  have hfill := addChoice_fills (R := R) (by omega) (by omega) (by omega) hentry h3
  have hsize3 := hfill.size_eq
  have hfill' := addEps_fills (R := R) (by omega) (by omega)
    (by rw [hfill.keeps _ (by omega), hnew.keeps _ (by omega), hf.fresh]) h4
  have hsize4 := hfill'.size_eq
  have hkeeps : ∀ t < c.size, t ≠ first.exit → stateIn c' t = stateIn c t := fun t h5 h6 => by
    rw [hfill'.keeps t h6, hfill.keeps t (by omega), hnew.keeps t h5]
  refine ⟨⟨by omega, fun t ht => ?_, fun ha => ?_⟩, ⟨hle, by simp only; omega⟩,
    ⟨by simp only; omega, by simp only; omega⟩, ?_, fun n hn => ?_⟩
  · rw [hkeeps t (by omega) (by omega), hgrows.keeps t ht]
  · exact hfill'.tidy (hfill.tidy (hnew.tidy (hgrows.tidy ha)))
  · rw [hfill'.keeps _ (by simp only; omega), hfill.keeps _ (by simp), hexit]
  · simp only at hn
    have hentry := hn.wired ⟨hle, by omega, by omega⟩
      ((hfill'.keeps c.size (by omega)).trans hfill.fills)
    refine .star hentry (hf.holds n fun t ht => ?_)
      (hn.wired ⟨by omega, by omega, by omega⟩ hfill'.fills)
    rw [hn t ⟨ht.1, by omega, by omega⟩]
    exact hkeeps t ht.2.1 ht.2.2

theorem repeat_plus_built {limit m : Nat} {greedy : Bool} {first f : Fragment}
    (hfirst : Built R a c first fun n => F n first.entry first.exit)
    (h : repeatFragment limit copy first (m + 1) none greedy c = .ok (f, c')) :
    Built R a c' f (fun n => Copies n (F n) greedy (m + 1) none f.entry f.exit) := by
  obtain ⟨entry, c1, h1, h⟩ := Build.bind_ok h
  obtain ⟨_, c2, h2, h⟩ := Build.bind_ok h
  obtain ⟨last, c3, h3, h⟩ := Build.bind_ok h
  obtain ⟨stop, c4, h4, h⟩ := Build.bind_ok h
  obtain ⟨_, c5, h5, h⟩ := Build.bind_ok h
  obtain ⟨rfl, rfl⟩ := Build.pure_ok h
  obtain ⟨hgrows, he1, he2, hle, hlx, hlx', hne, hfresh, hholds⟩ :=
    mustCopies_ok hcopy hfirst h1 h2 h3
  obtain ⟨rfl, rfl⟩ := newState_ok h4
  have hnew := Grows.newState (R := R) c3
  have hsize4 : Array.size (Array.push c3 {}) = c3.size + 1 := by simp
  have hfill := addChoice_fills (R := R) (by omega) (by omega) (by omega)
    ((hnew.keeps _ hlx).trans hfresh) h5
  have hsize5 := hfill.size_eq
  have hsize3 := hgrows.size_le
  have hkeeps : ∀ t < c3.size, t ≠ last.exit → stateIn c' t = stateIn c3 t := fun t h6 h7 => by
    rw [hfill.keeps t h7, hnew.keeps t h6]
  refine ⟨⟨by omega, fun t ht => ?_, fun ha => ?_⟩, ⟨he1, by simp only; omega⟩,
    ⟨by simp only; omega, by simp only; omega⟩, ?_, fun n hn => ?_⟩
  · rw [hkeeps t (by omega) (by omega), hgrows.keeps t ht]
  · exact hfill.tidy (hnew.tidy (hgrows.tidy ha))
  · rw [hfill.keeps _ (by simp only; omega), stateIn_push, if_pos rfl]
  · simp only at hn
    obtain ⟨hw, hchain, hF⟩ := hholds n fun t ht =>
      (hn t ⟨ht.1, by omega, by omega⟩).trans (hkeeps t ht.2.1 ht.2.2)
    have hloop := hn.wired ⟨hlx', by omega, by omega⟩ hfill.fills
    have hlast : ∀ s, Wired n s [.eps last.entry] → Copies n (F n) greedy 1 none s c3.size :=
      fun s hs => .plus hs hF hloop
    have := hchain.copies hlast entry hw
    rwa [Nat.add_comm] at this

theorem repeat_options_built {limit k : Nat} {greedy : Bool} {first f : Fragment}
    (hfirst : Built R a c first fun n => F n first.entry first.exit)
    (h : repeatFragment limit copy first 0 (some (k + 1)) greedy c = .ok (f, c')) :
    Built R a c' f (fun n => Copies n (F n) greedy 0 (some (k + 1)) f.entry f.exit) := by
  obtain ⟨hgrows, hf⟩ := hfirst
  have hle := hgrows.size_le
  have hfe := hf.entry
  have hfx := hf.exit
  obtain ⟨entry, c1, h1, h⟩ := Build.bind_ok h
  obtain ⟨stop, c2, h2, h⟩ := Build.bind_ok h
  obtain ⟨_, c3, h3, h⟩ := Build.bind_ok h
  obtain ⟨last, c4, h4, h⟩ := Build.bind_ok h
  obtain ⟨_, c5, h5, h⟩ := Build.bind_ok h
  obtain ⟨rfl, rfl⟩ := Build.pure_ok h
  obtain ⟨rfl, rfl, hsize2, hentry, hexit, hnew⟩ := newState_two_ok (R := R) h1 h2
  have hfill := addChoice_fills (R := R) (by omega) (by omega) (by omega) hentry h3
  have hsize3 := hfill.size_eq
  obtain ⟨hle4, hkeeps4, htidy4, hlast, hlast', hfresh4, hholds⟩ :=
    optionalCopies_ok hcopy (by omega) (by omega)
      (by rw [hfill.keeps _ (by omega), hnew.keeps _ (by omega), hf.fresh]) h4
  have hfill' := addEps_fills (R := R) hlast (by omega) hfresh4 h5
  have hsize5 := hfill'.size_eq
  have hkeeps : ∀ t < c3.size, t ≠ first.exit → stateIn c' t = stateIn c3 t := fun t h6 h7 => by
    rw [hfill'.keeps t (by omega), hkeeps4 t h6 h7]
  have hkeeps3 : ∀ t < c.size, stateIn c3 t = stateIn c t := fun t h6 => by
    rw [hfill.keeps t (by omega), hnew.keeps t h6]
  refine ⟨⟨by omega, fun t ht => ?_, fun ha => ?_⟩, ⟨hle, by simp only; omega⟩,
    ⟨by simp only; omega, by simp only; omega⟩, ?_, fun n hn => ?_⟩
  · rw [hkeeps t (by omega) (by omega), hkeeps3 t (by omega), hgrows.keeps t ht]
  · exact hfill'.tidy (htidy4 (hfill.tidy (hnew.tidy (hgrows.tidy ha))))
  · rw [hkeeps _ (by simp only; omega) (by simp only; omega), hfill.keeps _ (by simp), hexit]
  · simp only at hn
    have hopt := hholds n fun t ht =>
      (hn t ⟨by omega, by omega, by omega⟩).trans (hfill'.keeps t ht.2)
    have hw := hn.wired ⟨by omega, by omega, by omega⟩ hfill'.fills
    have hentry := hn.wired ⟨hle, by omega, by omega⟩
      ((hkeeps c.size (by omega) (by omega)).trans hfill.fills)
    refine .option hentry (hf.holds n fun t ht => ?_) (hopt.copies hw)
    rw [hn t ⟨ht.1, by omega, by omega⟩, hkeeps t (by omega) ht.2.2]
    exact hkeeps3 t ht.2.1

theorem repeat_bounded_built {limit m top : Nat} {greedy : Bool} {first f : Fragment}
    (hfirst : Built R a c first fun n => F n first.entry first.exit) (hmax : m + 1 ≤ top)
    (h : repeatFragment limit copy first (m + 1) (some top) greedy c = .ok (f, c')) :
    Built R a c' f (fun n => Copies n (F n) greedy (m + 1) (some top) f.entry f.exit) := by
  obtain ⟨entry, c1, h1, h⟩ := Build.bind_ok h
  obtain ⟨_, c2, h2, h⟩ := Build.bind_ok h
  obtain ⟨last, c3, h3, h⟩ := Build.bind_ok h
  obtain ⟨hgrows, he1, he2, hle, hlx, hlx', hne, hfresh, hholds⟩ :=
    mustCopies_ok hcopy hfirst h1 h2 h3
  split at h
  · rename_i htop
    obtain ⟨rfl, rfl⟩ := Build.pure_ok h
    refine ⟨hgrows, ⟨he1, he2⟩, ⟨hlx', hlx⟩, hfresh, fun n hn => ?_⟩
    obtain ⟨hw, hchain, hF⟩ := hholds n hn
    have hlast : ∀ s, Wired n s [.eps last.entry] → Copies n (F n) greedy 1 (some 1) s last.exit :=
      fun s hs => .must hs hF .done
    have := hchain.copies hlast entry hw
    obtain rfl : top = m + 1 := by omega
    rwa [Option.map_some, Nat.add_comm 1 m] at this
  · rename_i htop
    obtain ⟨stop, c4, h4, h⟩ := Build.bind_ok h
    obtain ⟨cur, c5, h5, h⟩ := Build.bind_ok h
    obtain ⟨_, c6, h6, h⟩ := Build.bind_ok h
    obtain ⟨rfl, rfl⟩ := Build.pure_ok h
    obtain ⟨rfl, rfl⟩ := newState_ok h4
    have hnew := Grows.newState (R := R) c3
    have hsize4 : Array.size (Array.push c3 {}) = c3.size + 1 := by simp
    obtain ⟨hle5, hkeeps5, htidy5, hcur, hcur', hfresh5, hholds5⟩ :=
      optionalCopies_ok hcopy (by omega) (by omega) ((hnew.keeps _ hlx).trans hfresh) h5
    have hfill := addEps_fills (R := R) hcur (by omega) hfresh5 h6
    have hsize6 := hfill.size_eq
    have hsize3 := hgrows.size_le
    have hkeeps : ∀ t ≤ c3.size, t ≠ last.exit →
        stateIn c' t = stateIn (Array.push c3 {}) t := fun t h7 h8 => by
      rw [hfill.keeps t (by omega), hkeeps5 t (by omega) h8]
    refine ⟨⟨by omega, fun t ht => ?_, fun ha => ?_⟩, ⟨he1, by simp only; omega⟩,
      ⟨by simp only; omega, by simp only; omega⟩, ?_, fun n hn => ?_⟩
    · rw [hkeeps t (by omega) (by omega), hnew.keeps t (by omega), hgrows.keeps t ht]
    · exact hfill.tidy (htidy5 (hnew.tidy (hgrows.tidy ha)))
    · rw [hkeeps _ (Nat.le_refl _) (by omega), stateIn_push, if_pos rfl]
    · simp only at hn
      obtain ⟨hw, hchain, hF⟩ := hholds n fun t ht => by
        rw [hn t ⟨ht.1, by omega, by omega⟩, hkeeps t (by omega) ht.2.2, hnew.keeps t ht.2.1]
      have hopt := hholds5 n fun t ht =>
        (hn t ⟨by omega, by omega, by omega⟩).trans (hfill.keeps t ht.2)
      have hstop := hn.wired ⟨by omega, by omega, by omega⟩ hfill.fills
      have hrest := hopt.copies hstop
      have hlast : ∀ s, Wired n s [.eps last.entry] →
          Copies n (F n) greedy 1 (some (top - (m + 1) + 1)) s c3.size :=
        fun s hs => .must hs hF hrest
      have := hchain.copies hlast entry hw
      rwa [Option.map_some, Nat.add_comm 1 m,
        show top - (m + 1) + 1 + m = top by omega] at this

/-- The fragment of a repeat, from the first copy of its body and a way to make more. -/
theorem repeatFragment_built {limit min : Nat} {max : Option Nat} {greedy : Bool}
    {first f : Fragment} (hfirst : Built R a c first fun n => F n first.entry first.exit)
    (hmax : ∀ top, max = some top → min ≤ top)
    (h : repeatFragment limit copy first min max greedy c = .ok (f, c')) :
    Built R a c' f (fun n => Copies n (F n) greedy min max f.entry f.exit) := by
  match min, max with
  | 0, none => exact repeat_star_built hfirst h
  | m + 1, none => exact repeat_plus_built hcopy hfirst h
  | 0, some 0 =>
    obtain ⟨entry, c1, h1, h⟩ := Build.bind_ok h
    obtain ⟨rfl, rfl⟩ := Build.pure_ok h
    obtain ⟨hgrows, hp⟩ := newState_built (R := R) h1
    have hle := hfirst.size_le
    exact ⟨hfirst.toGrows.trans hgrows, ⟨Nat.le_trans hle hp.entry.1, hp.entry.2⟩,
      ⟨Nat.le_trans hle hp.exit.1, hp.exit.2⟩, hp.fresh, fun n _ => .done⟩
  | 0, some (k + 1) => exact repeat_options_built hcopy hfirst h
  | m + 1, some top => exact repeat_bounded_built hcopy hfirst (hmax top rfl) h

end Repeat

/-! ## Patterns -/

/-- A byte node with a single run of bytes becomes one edge. -/
theorem fragment_bytes {limit : Nat} {alpha : Alphabet} {loc : Location}
    {ranges : List (UInt8 × UInt8)} {s : ByteSet} {lo hi : UInt8}
    (hs : Pattern.byteSet? loc ranges = .ok s) (hruns : s.runs = [(lo, hi)]) :
    fragment limit alpha (.bytes loc ranges) = edgeFragment limit (.bytes lo hi) := by
  have hlift : (liftM (Except.ok s : Except Error ByteSet) : Build ByteSet) = pure s := rfl
  have hadd : ∀ source target,
      addByteSet source s target = addEdge source (.bytes lo hi target) := by
    intro source target
    rw [addByteSet, hruns]
    rfl
  rw [fragment, hs, bytesFragment, hlift, edgeFragment]
  simp only [pure_bind, hadd]

/-- What the construction asks of an alphabet for a node. Nothing that it uses tells bytes of one
class from one another, and the sequences for a class node are those of its members. -/
def NodeFits (R : UInt8 → UInt8 → Prop) (alpha : Alphabet) : Pattern → Prop
  | .chars _ ranges negated =>
    let seqs := (alpha.classesIn (Pattern.charSet ranges negated)).flatMap fun i =>
      alpha.sequences.getD i []
    (∀ rs ∈ seqs, rs ≠ [] ∧ ∀ r ∈ rs, ∀ t, (Edge.bytes r.lo r.hi t).Even R) ∧
      ∀ bs, (∃ rs ∈ seqs, Utf8.admits rs bs = true) ↔
        ∃ c, Utf8.IsScalar c ∧ Matcher.charAllowed ranges negated c = true ∧ bs = Utf8.encode c
  | .bytes _ ranges =>
    ∀ b b', R b b' → (Pattern.byteSet ranges).test b = (Pattern.byteSet ranges).test b'
  | .wordEdge _ _ => WordsApart R
  | _ => True

theorem fragments_built {limit : Nat} {alpha : Alphabet} {ps : List Pattern}
    (hps : ∀ p ∈ ps, ∀ a f a', fragment limit alpha p a = .ok (f, a') →
      Built R a a' f fun n => Frag n p f.entry f.exit)
    {fs : List Fragment} (h : fragments limit alpha ps a = .ok (fs, a')) :
    Grows R a a' ∧ Row a' a.size ps fs a'.size := by
  induction ps generalizing a fs with
  | nil =>
    obtain ⟨rfl, rfl⟩ := Build.pure_ok h
    exact ⟨Grows.refl _, .nil⟩
  | cons p ps ih =>
    obtain ⟨f, a1, h1, h⟩ := Build.bind_ok h
    obtain ⟨fs, a2, h2, h⟩ := Build.bind_ok h
    obtain ⟨rfl, rfl⟩ := Build.pure_ok h
    have hf := hps p (by simp) _ _ _ h1
    obtain ⟨hgrows, hrow⟩ := ih (fun q hq => hps q (by simp [hq])) h2
    exact ⟨hf.toGrows.trans hgrows, .cons hf.size_le (hf.placed_of_grows hgrows) hrow⟩

/-- A state with an edge for each run of a set is tidy, if the set does not tell bytes of one class
from one another. -/
theorem Tidy.runs {s : ByteSet} {t bound : Nat} (hs : ∀ b b', R b b' → s.test b = s.test b')
    (ht : t < bound) :
    Tidy R bound ⟨(s.runs.map fun r => Edge.bytes r.1 r.2 t).toArray, none⟩ := by
  have hbyte : ∀ e ∈ s.runs.map (fun r => Edge.bytes r.1 r.2 t), e.isByte = true := by
    intro e he
    obtain ⟨r, _, rfl⟩ := List.mem_map.1 he
    rfl
  have htargets : ∀ b, State.byteTargets
      ⟨(s.runs.map fun r => Edge.bytes r.1 r.2 t).toArray, none⟩ b =
        if s.test b then [t] else [] := by
    intro b
    rw [← s.filterMap_runs b, State.byteTargets]
    simp only [List.filterMap_map]
    rfl
  refine ⟨rfl, fun e he => ?_, fun b b' hb => ?_, fun e he hw => ?_,
    fun e he e' he' => (hbyte e he).trans (hbyte e' he').symm⟩
  · obtain ⟨r, _, rfl⟩ := List.mem_map.1 he
    exact ht
  · rw [htargets, htargets, hs b b' hb]
  · obtain ⟨r, _, rfl⟩ := List.mem_map.1 he
    cases hw

/-- One edge for each run of a set leads to the exit. -/
theorem bytesFragment_built {limit : Nat} {set : Except Error ByteSet} {s : ByteSet} {f : Fragment}
    (hset : set = .ok s) (hs : ∀ b b', R b b' → s.test b = s.test b')
    (h : bytesFragment limit set a = .ok (f, a')) :
    Built R a a' f (fun n => Wired n f.entry (s.runs.map fun r => .bytes r.1 r.2 f.exit)) := by
  obtain ⟨entry, a1, h1, h⟩ := Build.bind_ok h
  obtain ⟨exit, a2, h2, h⟩ := Build.bind_ok h
  obtain ⟨s', a3, h3, h⟩ := Build.bind_ok h
  obtain ⟨_, a4, h4, h⟩ := Build.bind_ok h
  obtain ⟨rfl, rfl⟩ := Build.pure_ok h
  obtain ⟨hs', rfl⟩ := Build.lift_ok h3
  obtain rfl := Except.ok.inj (hset.symm.trans hs')
  obtain ⟨rfl, rfl, hsize2, hentry, hexit, hnew⟩ := newState_two_ok (R := R) h1 h2
  obtain ⟨hsize, hstate⟩ := forM_addEdge_ok h4 (by omega)
  have hwired : stateIn a' a.size =
      ⟨(s.runs.map fun r => Edge.bytes r.1 r.2 (a.size + 1)).toArray, none⟩ := by
    rw [hstate, if_pos rfl, hentry]
    simp
  have hkeeps : ∀ t, t ≠ a.size → stateIn a' t = stateIn a3 t :=
    fun t ht => by rw [hstate, if_neg ht]
  refine ⟨⟨by omega, fun t ht => ?_, fun ha t ht => ?_⟩, ⟨Nat.le_refl _, by simp only; omega⟩,
    ⟨Nat.le_succ _, by simp only; omega⟩, ?_, fun n hn => ?_⟩
  · rw [hkeeps t (by omega), hnew.keeps t ht]
  · by_cases heq : t = a.size
    · rw [heq, hwired]
      exact Tidy.runs hs (by omega)
    · rw [hkeeps t heq, hsize]
      exact hnew.tidy ha t (by omega)
  · rw [hkeeps _ (by simp), hexit]
  · exact hn.wired ⟨Nat.le_refl _, by omega, by simp⟩ hwired

/-- The construction builds the fragment of a pattern. -/
theorem fragment_built {limit : Nat} {alpha : Alphabet} {p : Pattern} {f : Fragment}
    (hfit : p.AllNodes (NodeFits R alpha)) (hr : p.Ranged)
    (h : fragment limit alpha p a = .ok (f, a')) :
    Built R a a' f fun n => Frag n p f.entry f.exit := by
  induction p using Pattern.induction generalizing a f a' with
  | chars loc ranges negated =>
    have hset : Pattern.charSet? loc ranges negated = .ok (Pattern.charSet ranges negated) := by
      rw [Pattern.charSet?, show Pattern.charRangeFault? ranges = none from hr.self]
    obtain ⟨heven, hseqs⟩ := hfit.self
    obtain ⟨hgrows, hp⟩ := charsFragment_built (R := R) hset heven h
    exact ⟨hgrows, hp.mono fun n hn => ⟨_, hn, hseqs⟩⟩
  | bytes loc ranges =>
    have hset : Pattern.byteSet? loc ranges = .ok (Pattern.byteSet ranges) := by
      rw [Pattern.byteSet?, show Pattern.byteRangeFault? ranges = none from hr.self]
    obtain ⟨hgrows, hp⟩ := bytesFragment_built (R := R) hset hfit.self h
    refine ⟨hgrows, hp.mono fun n hn => ⟨_, hn, fun b => ?_⟩⟩
    rw [ByteSet.exists_mem_runs, Pattern.test_byteSet]
  | seq loc parts ih =>
    obtain ⟨fs, a1, h1, h⟩ := Build.bind_ok h
    have hfits := (Pattern.allNodes_seq.1 hfit).2
    have hranged := (Pattern.allNodes_seq.1 hr).2
    obtain ⟨hgrows, hrow⟩ := fragments_built (R := R)
      (fun p hp a f a' h => ih p hp (hfits p hp) (hranged p hp) h) h1
    exact seqFragment_built hgrows hrow h
  | alt loc parts ih =>
    obtain ⟨fs, a1, h1, h⟩ := Build.bind_ok h
    have hfits := (Pattern.allNodes_alt.1 hfit).2
    have hranged := (Pattern.allNodes_alt.1 hr).2
    obtain ⟨hgrows, hrow⟩ := fragments_built (R := R)
      (fun p hp a f a' h => ih p hp (hfits p hp) (hranged p hp) h) h1
    exact altFragment_built hgrows hrow h
  | rep loc body min max greedy ih =>
    obtain ⟨first, a1, h1, h⟩ := Build.bind_ok h
    have hfit := (Pattern.allNodes_rep.1 hfit).2
    obtain ⟨hself, hbody⟩ := Pattern.allNodes_rep.1 hr
    refine repeatFragment_built (F := fun n => Frag n body)
      (fun a g a' hg => ih hfit hbody hg) (ih hfit hbody h1) ?_ h
    rintro top rfl
    by_contra hlt
    simp [Pattern.rangeFault?, Nat.lt_of_not_le hlt] at hself
  | anchor loc atEnd =>
    refine edgeFragment_built (fun _ => Edge.even_look fun hw => ?_) (fun _ => rfl) h
    cases atEnd <;> cases hw
  | wordEdge loc negated =>
    exact edgeFragment_built (fun _ => Edge.even_look fun _ => hfit.self) (fun _ => rfl) h
  | empty loc =>
    obtain ⟨s, a1, h1, h⟩ := Build.bind_ok h
    obtain ⟨rfl, rfl⟩ := Build.pure_ok h
    obtain ⟨hgrows, hp⟩ := newState_built (R := R) h1
    exact ⟨hgrows, hp.mono fun n _ => rfl⟩
  | backref loc group => cases h
  | around loc body behind negated => cases h

end ByteRegex.Nfa
