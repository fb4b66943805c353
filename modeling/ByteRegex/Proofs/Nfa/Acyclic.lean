-- The form of the automaton of a pattern. Each node adds a part with a fresh
-- exit, each state has edges of one kind, and if the body of every unbounded
-- repeat consumes at least a byte, no way from a state back to itself is free.
import ByteRegex.Proofs.Nfa.Language
import ByteRegex.Proofs.Nfa.Parts

namespace ByteRegex.Nfa

variable {L : Prop} {a a' : Arena} {limit : Nat} {f : Fragment}

/-! ## Patterns -/

theorem fragments_adds {alpha : Alphabet} {ps : List Pattern} {fs : List Fragment}
    (hps : ∀ p ∈ ps, ∀ a f a', fragment limit alpha p a = .ok (f, a') →
      Makes L a a' f p.nullable)
    (h : fragments limit alpha ps a = .ok (fs, a')) :
    Adds L a a' ∧ Parts a' a.size ps fs a'.size := by
  induction ps generalizing a fs with
  | nil =>
    obtain ⟨rfl, rfl⟩ := Build.pure_ok h
    exact ⟨Adds.refl _, .nil⟩
  | cons p ps ih =>
    obtain ⟨f, a1, h1, h⟩ := Build.bind_ok h
    obtain ⟨fs, a2, h2, h⟩ := Build.bind_ok h
    obtain ⟨rfl, rfl⟩ := Build.pure_ok h
    have hf := hps p List.mem_cons_self _ _ _ h1
    obtain ⟨hadds, hparts⟩ := ih (fun q hq => hps q (List.mem_cons_of_mem p hq)) h2
    exact ⟨hf.toAdds.trans hadds, .cons (hf.part.congr fun t _ ht => hadds.keeps t ht) hparts⟩

/-- Each node adds a part of its own. -/
theorem fragment_makes {alpha : Alphabet} {p : Pattern} (hloops : L → p.LoopsConsume)
    (h : fragment limit alpha p a = .ok (f, a')) : Makes L a a' f p.nullable := by
  induction p using Pattern.induction generalizing a f a' with
  | chars loc ranges negated => exact charsFragment_makes h
  | bytes loc ranges => exact bytesFragment_makes h
  | seq loc parts ih =>
    obtain ⟨fs, a1, h1, h⟩ := Build.bind_ok h
    obtain ⟨hadds, hparts⟩ := fragments_adds (fun q hq a f a' h =>
      ih q hq (fun hl => (Pattern.allNodes_seq.1 (hloops hl)).2 q hq) h) h1
    exact seqFragment_makes hadds hparts h
  | alt loc parts ih =>
    obtain ⟨fs, a1, h1, h⟩ := Build.bind_ok h
    obtain ⟨hadds, hparts⟩ := fragments_adds (fun q hq a f a' h =>
      ih q hq (fun hl => (Pattern.allNodes_alt.1 (hloops hl)).2 q hq) h) h1
    exact altFragment_makes hadds hparts h
  | rep loc body min max greedy ih =>
    obtain ⟨first, a1, h1, h⟩ := Build.bind_ok h
    have hbody : L → body.LoopsConsume := fun hl => (Pattern.allNodes_rep.1 (hloops hl)).2
    refine repeatFragment_makes (fun a g a' hg => ih hbody hg) (ih hbody h1) ?_ h
    rintro rfl hl
    exact (Pattern.allNodes_rep.1 (hloops hl)).1
  | anchor loc atEnd => exact lookFragment_makes h
  | wordEdge loc negated => exact lookFragment_makes h
  | empty loc =>
    obtain ⟨s, a1, h1, h⟩ := Build.bind_ok h
    obtain ⟨rfl, rfl⟩ := Build.pure_ok h
    exact newState_makes h1
  | backref loc group => cases h
  | around loc body behind negated => cases h

theorem fragments_length {alpha : Alphabet} {ps : List Pattern} {fs : List Fragment}
    (h : fragments limit alpha ps a = .ok (fs, a')) : fs.length = ps.length := by
  induction ps generalizing a fs with
  | nil =>
    obtain ⟨rfl, rfl⟩ := Build.pure_ok h
    rfl
  | cons p ps ih =>
    obtain ⟨f, a1, h1, h⟩ := Build.bind_ok h
    obtain ⟨fs, a2, h2, h⟩ := Build.bind_ok h
    obtain ⟨rfl, rfl⟩ := Build.pure_ok h
    rw [List.length_cons, List.length_cons, ih h2]

/-- The parts of a list have been built one after another. -/
theorem fragments_each {alpha : Alphabet} {ps : List Pattern} {fs : List Fragment}
    (h : fragments limit alpha ps a = .ok (fs, a')) :
    ∀ p ∈ ps, ∃ b f b', fragment limit alpha p b = .ok (f, b') := by
  induction ps generalizing a fs a' with
  | nil => nofun
  | cons p ps ih =>
    obtain ⟨f, a1, h1, h⟩ := Build.bind_ok h
    obtain ⟨fs, a2, h2, h⟩ := Build.bind_ok h
    intro q hq
    rcases List.mem_cons.1 hq with rfl | hq
    · exact ⟨a, f, a1, h1⟩
    · exact ih h2 q hq

/-- A repeat without a maximum must make at most so many passes. -/
def MinWithin (limit : Nat) : Pattern → Prop
  | .rep _ _ min none _ => min ≤ limit
  | _ => True

/-- Where a pattern has an automaton, no unbounded repeat must make more passes than the automaton
may have states. -/
theorem fragment_within {alpha : Alphabet} {p : Pattern}
    (h : fragment limit alpha p a = .ok (f, a')) : p.AllNodes (MinWithin limit) := by
  induction p using Pattern.induction generalizing a f a' with
  | seq loc parts ih =>
    obtain ⟨fs, a1, h1, _⟩ := Build.bind_ok h
    refine Pattern.allNodes_seq.2 ⟨trivial, fun q hq => ?_⟩
    obtain ⟨b, g, b', hb⟩ := fragments_each h1 q hq
    exact ih q hq hb
  | alt loc parts ih =>
    obtain ⟨fs, a1, h1, _⟩ := Build.bind_ok h
    refine Pattern.allNodes_alt.2 ⟨trivial, fun q hq => ?_⟩
    obtain ⟨b, g, b', hb⟩ := fragments_each h1 q hq
    exact ih q hq hb
  | rep loc body min max greedy ih =>
    obtain ⟨first, a1, h1, h⟩ := Build.bind_ok h
    refine Pattern.allNodes_rep.2 ⟨?_, ih h1⟩
    cases max with
    | none => exact repeat_min_le (L := False) (fun a g a' hg => fragment_makes nofun hg) h
    | some m => trivial
  | backref loc group => cases h
  | around loc body behind negated => cases h
  | _ =>
    intro n hn
    obtain rfl := List.mem_singleton.1 hn
    trivial

/-! ## The whole automaton -/

namespace Encloses

variable {n : Nfa}

/-- Where the edges of a state lead. -/
theorem edge_cases (h : Encloses a f n) (hs : Sound L a) {t : Nat} {e : Edge}
    (he : e ∈ (n.state t).edges.toList) :
    (e ∈ (stateIn a t).edges.toList ∧ e.target < a.size) ∨ (t = f.exit ∧ e = .eps a.size) ∨
      (t = a.size + 1 ∧ (e = .eps f.entry ∨ e = .eps (a.size + 2))) ∨
      (t = a.size + 2 ∧ e = .bytes 0x00 0xff (a.size + 1)) := by
  obtain ⟨_, hold⟩ | rfl | rfl | rfl | rfl | hnone := h.cases t
  · rw [hold] at he
    exact Or.inl ⟨he, hs.target t e he⟩
  · rw [h.exit] at he
    exact Or.inr (Or.inl ⟨rfl, by simpa using he⟩)
  · rw [h.goal] at he
    simp at he
  · rw [h.floating] at he
    exact Or.inr (Or.inr (Or.inl ⟨rfl, by simpa using he⟩))
  · rw [h.skip] at he
    exact Or.inr (Or.inr (Or.inr ⟨rfl, by simpa using he⟩))
  · rw [hnone] at he
    simp at he

theorem target_lt (h : Encloses a f n) (hs : Sound L a) (hentry : f.entry < a.size) {t : Nat}
    {e : Edge} (he : e ∈ (n.state t).edges.toList) : e.target < n.size := by
  rw [h.size_eq]
  obtain ⟨_, hlt⟩ | ⟨_, rfl⟩ | ⟨_, rfl | rfl⟩ | ⟨_, rfl⟩ := h.edge_cases hs he <;>
    (simp only [Edge.target] at *; omega)

theorem uniform (h : Encloses a f n) (hs : Sound L a) (t : Nat) : (n.state t).Uniform := by
  obtain ⟨_, hold⟩ | rfl | rfl | rfl | rfl | hnone := h.cases t
  · rw [hold]
    exact hs.uniform t
  · rw [h.exit]
    exact Or.inl (by simp [Edge.isEps])
  · rw [h.goal]
    exact Or.inl (by simp)
  · rw [h.floating]
    exact Or.inl (by simp [Edge.isEps])
  · rw [h.skip]
    exact Or.inr (Or.inl (by simp [Edge.isByte]))
  · rw [hnone]
    exact State.Uniform.empty

theorem eq_goal (h : Encloses a f n) (hs : Sound L a) {t : Nat} (ht : n.Accepting t) :
    t = a.size := by
  have hwired : ∀ {u es}, Wired n u es → t ≠ u := fun hw heq => hw.not_accepting (heq ▸ ht)
  obtain ⟨_, hold⟩ | rfl | rfl | rfl | rfl | hnone := h.cases t
  · rw [Accepting, hold, hs.accept] at ht
    cases ht
  · exact absurd rfl (hwired h.exit)
  · rfl
  · exact absurd rfl (hwired h.floating)
  · exact absurd rfl (hwired h.skip)
  · rw [Accepting, hnone] at ht
    cases ht

/-- Nothing leads to the floating start but the state behind it that skips a byte, and nothing
leads there but that start. -/
theorem into_start (h : Encloses a f n) (hs : Sound L a) (hentry : f.entry < a.size) {t : Nat}
    {e : Edge} (he : e ∈ (n.state t).edges.toList) :
    (e.target = a.size + 1 → t = a.size + 2) ∧ (e.target = a.size + 2 → t = a.size + 1) := by
  obtain ⟨_, hlt⟩ | ⟨_, rfl⟩ | ⟨_, rfl | rfl⟩ | ⟨_, rfl⟩ := h.edge_cases hs he <;>
    (simp only [Edge.target] at *; omega)

/-- The way on from the exit leads to a state without edges, and no free edge leads to the floating
start: neither closes a circle. -/
theorem acyclic (h : Encloses a f n) (hs : Sound L a) (hl : L) (hentry : f.entry < a.size)
    (hexit : f.exit < a.size) : Acyclic n.states := by
  -- the edges that do not start from the floating start
  let r : Nat → Nat → Prop := fun s t => FreeEdge n.states s t ∧ s ≠ a.size + 1
  have hr : ∀ t, ¬ Relation.TransGen r t t := by
    refine acyclic_of_sealed (S := (· = a.size)) ?_ (fun s t hst => ?_) (hs.acyclic hl)
    · rintro s t rfl ⟨⟨e, he, _, _⟩, _⟩
      rw [show stateIn n.states a.size = ⟨#[], some 0⟩ from h.goal] at he
      simp at he
    · obtain ⟨⟨e, he, hbyte, rfl⟩, hne⟩ := hst
      obtain ⟨he, _⟩ | ⟨rfl, rfl⟩ | ⟨rfl, _⟩ | ⟨_, rfl⟩ := h.edge_cases hs he
      · exact Or.inl ⟨e, he, hbyte, rfl⟩
      · exact Or.inr ⟨Nat.ne_of_lt hexit, rfl⟩
      · exact absurd rfl hne
      · cases hbyte
  have hinto : ∀ s t, FreeEdge n.states s t → t ≠ a.size + 1 := by
    rintro s _ ⟨e, he, hbyte, rfl⟩ hto
    obtain rfl := (h.into_start hs hentry he).1 hto
    rw [show stateIn n.states (a.size + 2) = _ from h.skip, List.mem_singleton] at he
    rw [he] at hbyte
    cases hbyte
  refine acyclic_of_sealed (S := (· ≠ a.size + 1)) (fun s t _ hst => hinto s t hst)
    (fun s t hst => ?_) hr
  by_cases hs : s = a.size + 1
  · exact Or.inr ⟨fun hne => hne hs, hinto s t hst⟩
  · exact Or.inl ⟨hst, hs⟩

end Encloses

/-- A walk over a pattern puts one fragment on the stack and keeps what is below. The fragment is
made of states that the walk has added, and its exit has no edges yet. A walk over a list puts as
many fragments there as it has patterns. In the automaton all edges lead to states that there are,
each state has edges of one kind, one state accepts, and only the state that skips a byte leads back
to the floating start. If the body of every unbounded repeat consumes at least a byte, no state can
get back to itself without consuming one. -/
theorem ofPattern_form (p : Pattern) (alpha : Alphabet) (limit : Nat) :
    (∀ (q : Pattern) (stack stack' : List Fragment) (a a' : Arena),
      visit limit alpha q stack a = .ok (((), stack'), a') → ∃ f, stack' = f :: stack ∧
        (a.size ≤ f.entry ∧ f.entry < a'.size) ∧ (a.size ≤ f.exit ∧ f.exit < a'.size) ∧
        (stateIn a' f.exit).edges = #[]) ∧
    (∀ (qs : List Pattern) (stack stack' : List Fragment) (a a' : Arena),
      visitAll limit alpha qs stack a = .ok (((), stack'), a') →
      ∃ fs, stack' = fs ++ stack ∧ fs.length = qs.length) ∧
    ∀ n, ofPattern p alpha limit = .ok n →
      (∀ t, ∀ e ∈ (n.state t).edges.toList, e.target < n.size) ∧
      (∀ t, (n.state t).Uniform) ∧
      (∃ goal, n.state goal = ⟨#[], some 0⟩ ∧ ∀ t, n.Accepting t → t = goal) ∧
      (∃ skip, n.state n.floating = ⟨#[.eps n.anchored, .eps skip], none⟩ ∧
        n.state skip = ⟨#[.bytes 0x00 0xff n.floating], none⟩ ∧
        ∀ t, ∀ e ∈ (n.state t).edges.toList,
          (e.target = n.floating → t = skip) ∧ (e.target = skip → t = n.floating)) ∧
      (p.LoopsConsume → Acyclic n.states) := by
  refine ⟨fun q stack stack' a a' h => ?_, fun qs stack stack' a a' h => ?_, fun n h => ?_⟩
  · obtain ⟨f, rfl, hf⟩ := visit_ok h
    have hpart := (fragment_makes (L := False) nofun hf).part
    exact ⟨f, rfl, hpart.entry, hpart.exit, by rw [hpart.fresh]⟩
  · obtain ⟨fs, rfl, hfs⟩ := visitAll_ok h
    exact ⟨fs.reverse, rfl, by rw [List.length_reverse, fragments_length hfs]⟩
  · obtain ⟨f, a, hfragment, hclose⟩ := ofPattern_ok h
    have hmakes := fragment_makes (L := p.LoopsConsume) id hfragment
    have hpart := hmakes.part
    have hsound := hmakes.sound Sound.empty
    have hn : Encloses a f n := close_ok hpart.entry.2 hpart.exit.2 hpart.fresh hclose
    refine ⟨fun t e he => hn.target_lt hsound hpart.entry.2 he, hn.uniform hsound,
      ⟨a.size, hn.goal, fun t ht => hn.eq_goal hsound ht⟩, ⟨a.size + 2, ?_, ?_, fun t e he => ?_⟩,
      fun hl => hn.acyclic hsound hl hpart.entry.2 hpart.exit.2⟩
    · rw [hn.floating_eq, hn.anchored_eq]
      exact hn.floating
    · rw [hn.floating_eq]
      exact hn.skip
    · rw [hn.floating_eq]
      exact hn.into_start hsound hpart.entry.2 he

/-- The pattern `((a|\b)a)*`. -/
def lettersAtEdges : Pattern :=
  .rep none (.seq none [.alt none [letter, .wordEdge none false], letter]) 0 none true

theorem ofPattern_form_lettersAtEdges :
    ∃ n, ofPattern lettersAtEdges (Alphabet.build lettersAtEdges) 100 = .ok n ∧
      lettersAtEdges.LoopsConsume ∧ Acyclic n.states := by
  obtain ⟨n, hn⟩ : ∃ n, ofPattern lettersAtEdges (Alphabet.build lettersAtEdges) 100 = .ok n := by
    simp only [ofPattern_eq, lettersAtEdges, fragment, fragments, fragment_letter]
    exact ⟨_, rfl⟩
  have hloops : lettersAtEdges.LoopsConsume := by
    intro q hq
    simp only [lettersAtEdges, letter, Pattern.nodes, Pattern.nodesOfList, List.append_nil,
      List.cons_append, List.nil_append, List.mem_cons, List.not_mem_nil, or_false] at hq
    rcases hq with rfl | rfl | rfl | rfl | rfl | rfl
    · rfl
    all_goals trivial
  obtain ⟨_, _, hacyclic⟩ := ((ofPattern_form _ _ _).2.2 n hn).2.2
  exact ⟨n, hn, hloops, hacyclic hloops⟩

end ByteRegex.Nfa
