-- The comparison of the searches with the matcher finds no difference, whatever
-- numbers make the patterns and the texts.
import ByteRegex.Proofs.Coverage
import ByteRegex.Proofs.Outcome
import ByteRegex.Proofs.Sample.PatternText
import ByteRegex.Sample.Comparison

namespace ByteRegex

open Sample (earliest sooner)

variable {p : Pattern} {limit : Nat} {n : Nfa} {d : Database} {data : Bytes} {start : Nat}

/-! ## The best match -/

/-- Of the matches that start from a place on, `best` has the first end, and the least start that
goes with it. -/
def Earliest (start : Nat) (seen : List Span) : Option Span → Prop
  | none => ∀ m ∈ seen, m.start < start
  | some b => b ∈ seen ∧ start ≤ b.start ∧
    ∀ m ∈ seen, start ≤ m.start → b.stop < m.stop ∨ b.stop = m.stop ∧ b.start ≤ m.start

namespace Earliest

variable {seen : List Span} {best best' : Option Span}

theorem keep {b m : Span} (h : Earliest start seen (some b))
    (hm : start ≤ m.start → b.stop < m.stop ∨ b.stop = m.stop ∧ b.start ≤ m.start) :
    Earliest start (seen ++ [m]) (some b) := by
  obtain ⟨hmem, hb, hleast⟩ := h
  refine ⟨List.mem_append_left _ hmem, hb, ?_⟩
  exact List.forall_mem_append.2 ⟨hleast, List.forall_mem_singleton.2 hm⟩

theorem replace {m : Span} (hm : start ≤ m.start)
    (hseen : ∀ m' ∈ seen, start ≤ m'.start →
      m.stop < m'.stop ∨ m.stop = m'.stop ∧ m.start ≤ m'.start) :
    Earliest start (seen ++ [m]) (some m) := by
  refine ⟨List.mem_append_right _ (List.mem_singleton_self m), hm, ?_⟩
  exact List.forall_mem_append.2
    ⟨hseen, List.forall_mem_singleton.2 fun _ => Or.inr ⟨rfl, Nat.le_refl _⟩⟩

theorem sooner (h : Earliest start seen best) (m : Span) :
    Earliest start (seen ++ [m]) (sooner start best m) := by
  unfold Sample.sooner
  split
  · rename_i hbefore
    cases best with
    | none => exact List.forall_mem_append.2 ⟨h, List.forall_mem_singleton.2 hbefore⟩
    | some b => exact h.keep fun hm => absurd hbefore (Nat.not_lt_of_le hm)
  · rename_i hnot
    have hm := Nat.le_of_not_lt hnot
    cases best with
    | none => exact replace hm fun m' hm' hle => absurd (h m' hm') (Nat.not_lt_of_le hle)
    | some b =>
      dsimp only
      split
      · refine replace hm fun m' hm' hle => ?_
        have hleast := h.2.2 m' hm' hle
        omega
      · exact h.keep fun _ => by omega

theorem foldl (h : Earliest start seen best) (rest : List Span) :
    Earliest start (seen ++ rest) (rest.foldl (Sample.sooner start) best) := by
  induction rest generalizing seen best with
  | nil => rwa [List.append_nil]
  | cons m rest ih =>
    rw [List.append_cons]
    exact ih (h.sooner m)

theorem unique (h : Earliest start seen best) (h' : Earliest start seen best') : best = best' := by
  cases best with
  | none =>
    cases best' with
    | none => rfl
    | some b' => exact absurd (h b' h'.1) (Nat.not_lt_of_le h'.2.1)
  | some b =>
    cases best' with
    | none => exact absurd (h' b h.1) (Nat.not_lt_of_le h.2.1)
    | some b' =>
      have hle := h.2.2 b' h'.1 h'.2.1
      have hle' := h'.2.2 b h.1 h.2.1
      obtain ⟨s, e⟩ := b
      obtain ⟨s', e'⟩ := b'
      simp only at hle hle'
      simp only [Option.some.injEq, Span.mk.injEq]
      omega

theorem isSome_iff (h : Earliest start seen best) :
    best.isSome = true ↔ ∃ m ∈ seen, start ≤ m.start := by
  cases best with
  | none =>
    refine iff_of_false (by simp) ?_
    rintro ⟨m, hm, hle⟩
    exact absurd (h m hm) (Nat.not_lt_of_le hle)
  | some b => exact iff_of_true rfl ⟨b, h.1, h.2.1⟩

end Earliest

theorem earliest_spec (start : Nat) (all : List Span) :
    Earliest start all (earliest start all) := by
  have hempty : Earliest start [] none := nofun
  exact hempty.foldl all

/-! ## What the searches find -/

namespace Compiled

variable {M : List Span} {best : Option Span}

section

variable (h : Compiled p limit n d)
  (hM : ∀ m : Span, m ∈ M ↔ m.start ≤ data.size ∧ Matches data p m.start m.stop)

include hM

theorem isSome_iff_matches (hbest : Earliest start M best) :
    best.isSome = true ↔ ∃ s, start ≤ s ∧ s ≤ data.size ∧ ∃ e, Matches data p s e := by
  rw [hbest.isSome_iff]
  constructor
  · rintro ⟨m, hm, hle⟩
    obtain ⟨hsize, hmatch⟩ := (hM m).1 hm
    exact ⟨m.start, hle, hsize, m.stop, hmatch⟩
  · rintro ⟨s, hle, hsize, e, hmatch⟩
    exact ⟨⟨s, e⟩, (hM _).2 ⟨hsize, hmatch⟩, hle⟩

include h

theorem isMatch_eq (hbest : Earliest 0 M best) : d.isMatch data = best.isSome := by
  rw [Bool.eq_iff_iff, h.isMatch_iff, isSome_iff_matches hM hbest]
  simp

theorem isSome_find (hd : d.longest = true) (hbest : Earliest start M best)
    (hstart : start ≤ data.size) : (d.find data start).isSome = best.isSome := by
  rw [Bool.eq_iff_iff, isSome_iff_matches hM hbest]
  rcases h.find_longest hd hstart with ⟨hfind, hnone⟩ | ⟨s, e, hfind, h1, h2, _, hm, _⟩
  · rw [hfind]
    refine iff_of_false (by simp) ?_
    rintro ⟨s, hle, hsize, e, hmatch⟩
    exact hnone s hle hsize e hmatch
  · rw [hfind]
    exact iff_of_true rfl ⟨s, h1, h2, e, hm⟩

theorem shortestMatch_eq (hbest : Earliest start M best) (hstart : start ≤ data.size) :
    d.shortestMatch data start = best.map Span.stop := by
  have hsome := isSome_iff_matches hM hbest
  rw [Database.shortestMatch, if_neg (Nat.not_lt_of_le hstart)]
  rcases h.scanForward_shortest hstart with ⟨hscan, hnone⟩ | ⟨s, e, hscan, h1, h2, hm, hleast⟩
  · rw [hscan]
    cases best with
    | none => rfl
    | some b =>
      obtain ⟨s, h1, h2, e, he⟩ := hsome.1 rfl
      exact absurd he (hnone s h1 h2 e)
  · rw [hscan]
    cases best with
    | none => cases hsome.2 ⟨s, h1, h2, e, hm⟩
    | some b =>
      obtain ⟨hb, hle, hfirst⟩ := hbest
      obtain ⟨hsize, hmatch⟩ := (hM b).1 hb
      have hbe := hfirst ⟨s, e⟩ ((hM _).2 ⟨h2, hm⟩) h1
      have heb := hleast b.start b.stop hle hsize hmatch
      simp only at hbe
      rw [Option.map_some, show e = b.stop by omega]

theorem find_earliest (hd : d.longest = false) (hstart : start ≤ data.size) :
    Earliest start M (d.find data start) := by
  rcases h.find_shortest hd hstart with ⟨hfind, hnone⟩ | ⟨s, e, hfind, h1, h2, hm, hleast, hstarts⟩
  · rw [hfind]
    intro m hm
    obtain ⟨hsize, hmatch⟩ := (hM m).1 hm
    exact Nat.lt_of_not_le fun hle => hnone m.start hle hsize m.stop hmatch
  · rw [hfind]
    refine ⟨(hM _).2 ⟨h2, hm⟩, h1, fun m hm' hle => ?_⟩
    obtain ⟨hsize, hmatch⟩ := (hM m).1 hm'
    rcases Nat.lt_or_eq_of_le (hleast m.start m.stop hle hsize hmatch) with hlt | heq
    · exact Or.inl hlt
    · exact Or.inr ⟨heq, hstarts m.start hle (by rwa [show e = m.stop from heq])⟩

end

end Compiled

/-! ## Rows -/

namespace Sample

variable {longest shortest : Database}

/-- The databases of a pattern, one for each kind of end. -/
structure Compares (p : Pattern) (longest shortest : Database) : Prop where
  longest_ok : compile p {} = .ok longest
  shortest_ok : compile p { longest := false } = .ok shortest
  loops : p.LoopsConsume

/-- The row is about a place of its text, and all searches agree there. -/
def Row.Sound (p : Pattern) (r : Row) : Prop := r.start ≤ r.text.size ∧ r.passes p = true

theorem Compares.sound (h : Compares p longest shortest) {text : Bytes}
    (hstart : start ≤ text.size) :
    Row.Sound p
      { text := text
        start := start
        isMatch := longest.isMatch text
        isMatchShortest := shortest.isMatch text
        longest := longest.find text start
        shortest := shortest.find text start
        firstEnd := shortest.shortestMatch text start
        matcher := Matcher.leftmostFirst text p start } := by
  obtain ⟨hlongest, n, hc⟩ := compile_ok h.longest_ok
  obtain ⟨hshortest, n', hc'⟩ := compile_ok h.shortest_ok
  refine ⟨hstart, ?_⟩
  unfold Row.passes
  split
  · rename_i all found hall hfound
    have hM := Matcher.mem_allMatches hc.ranged hall
    have hbest := earliest_spec start all
    have hfind := hc.find_of_loopsConsume hlongest h.loops hstart hfound
    have hsome := hc.isSome_find hM hlongest hbest hstart
    have hends := hc'.shortestMatch_eq hM hbest hstart
    have hfirst := (hc'.find_earliest hM hshortest hstart).unique hbest
    have hmatch : start ≠ 0 ∨ longest.isMatch text = (earliest start all).isSome ∧
        shortest.isMatch text = (earliest start all).isSome := by
      rcases Nat.eq_zero_or_pos start with rfl | hpos
      · exact Or.inr ⟨hc.isMatch_eq hM hbest, hc'.isMatch_eq hM hbest⟩
      · exact Or.inl (Nat.ne_of_gt hpos)
    rw [hfind] at hsome
    simp only [hfind, hsome, hends, hfirst, beq_self_eq_true, Bool.true_and, Bool.and_true]
    simpa using hmatch
  · rfl

theorem Compares.compareOn (h : Compares p longest shortest) (text : Bytes) (draws : Draws) :
    Row.Sound p (compareOn p longest shortest text draws).1 := by
  unfold Sample.compareOn
  split
  · have hstart : 0 ≤ text.size := Nat.zero_le _
    exact h.sound hstart
  · have hstart := (Draws.between_bounds (Nat.zero_le text.size) draws).2
    exact h.sound hstart

theorem Compares.compareAll (h : Compares p longest shortest) (texts : List Bytes)
    (draws : Draws) : ∀ r ∈ (compareAll p longest shortest texts draws).1, Row.Sound p r := by
  induction texts generalizing draws with
  | nil => nofun
  | cons text texts ih =>
    exact List.forall_mem_cons.2 ⟨h.compareOn text draws, ih _⟩

/-! ## The law -/

/-- A pattern that passes both checks, and repeats only what consumes something, has both databases,
or some limit is too low for it. -/
theorem compileBoth_cases {text : Bytes} (hparse : Pattern.parse text.toList = .ok p)
    (hp : p.Meaningful) :
    (∃ what limit, compileBoth text = .error (.stateLimit what limit)) ∨
      ∃ longest shortest, compileBoth text = .ok (p, longest, shortest) ∧
        Compares p longest shortest := by
  have hs : p.Supported := fun n hn => (hp n hn).1
  have hr : p.Ranged := fun n hn => (hp n hn).2.1
  have hloops : p.LoopsConsume := by
    intro n hn
    have hrepeat := (hp n hn).2.2
    split
    · exact hrepeat
    · trivial
  rw [compileBoth, hparse]
  rcases compile_cases hs hr {} {} with ⟨longest, hl⟩ | ⟨what, limit, hl⟩
  swap
  · exact Or.inl ⟨what, limit, by simp only [hl]⟩
  rcases compile_cases hs hr { longest := false } {} with ⟨shortest, hs⟩ | ⟨what, limit, hs⟩
  swap
  · exact Or.inl ⟨what, limit, by simp only [hl, hs]⟩
  exact Or.inr ⟨longest, shortest, by simp only [hl, hs], hl, hs, hloops⟩

/-- A comparison never fails. Whatever is drawn, a random pattern can be read, and is compiled
unless some limit is too low for it. Then on every text that is made for it all searches agree with
the matcher. -/
theorem comparison_sound (st : Settings) (depth : Nat) :
    Always (comparison st depth) fun result =>
      (∃ what limit, result = .error (.stateLimit what limit)) ∨
        ∃ c p, result = .ok c ∧ Pattern.parse c.pattern.toList = .ok p ∧
          ∀ r ∈ c.rows, r.Sound p := by
  refine Always.bind (always_patternText depth) fun text ⟨flag, hreads⟩ => ?_
  obtain ⟨p, hparse, hp⟩ := hreads.parse
  rcases compileBoth_cases hparse hp with ⟨what, limit, he⟩ | ⟨longest, shortest, hok, hboth⟩
  · simp only [he]
    exact Always.pure (Or.inl ⟨what, limit, rfl⟩)
  · simp only [hok]
    refine Always.roll fun made => ?_
    have hrows : Always (Piece.draw (compareAll p longest shortest (made.texts.toList ++ [#[]])))
        fun rows => ∀ r ∈ rows, r.Sound p := Always.draw fun draws => hboth.compareAll _ draws
    refine Always.bind hrows fun rows hrows => ?_
    exact Always.pure (Or.inr ⟨_, p, rfl, hparse, hrows⟩)

end Sample

end ByteRegex
