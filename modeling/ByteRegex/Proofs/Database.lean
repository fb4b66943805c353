-- What the searches of a database find. The forward table gives the first end
-- or the end of the trail, and the reverse table the least start for it.
import ByteRegex.Proofs.Compile
import ByteRegex.Proofs.Dfa.Preference
import ByteRegex.Proofs.Matcher
import ByteRegex.Proofs.Table.Scan

namespace ByteRegex

open Nfa (Trail)

variable {p : Pattern} {limit : Nat} {n : Nfa} {d : Database} {data : Bytes} {start : Nat}

/-! ## Scans -/

namespace Compiled

/-- The shortest scan finds the first end of a match that starts at `start` or later. -/
theorem scanForward_shortest (h : Compiled p limit n d) (hstart : start ≤ data.size) :
    (d.forward.scanForward data start true = none ∧
        ∀ s, start ≤ s → s ≤ data.size → ∀ e, ¬ Matches data p s e) ∨
      ∃ s e, d.forward.scanForward data start true = some e ∧ start ≤ s ∧ s ≤ data.size ∧
        Matches data p s e ∧
          ∀ s' e', start ≤ s' → s' ≤ data.size → Matches data p s' e' → e ≤ e' := by
  obtain ⟨out, goal, skipping, hclosed⟩ := h.closed
  obtain ⟨k, hbelow, hquiet⟩ := h.forward.quiet
  have hscan := Table.scanForward_shortest hbelow hquiet hstart
  have haccepts := hscan.congr fun j hj hj' => h.forward.accepts hj hj'
  have hreaches := (Dfa.Subset.leftmost_accepts haccepts).congr
    (Q := fun e => ∃ s, start ≤ s ∧ s ≤ data.size ∧ Matches data p s e) fun j hj hj' => by
      simp only [List.mem_singleton, exists_eq_left]
      exact hclosed.reaches_floating hstart
  cases hend : d.forward.scanForward data start true with
  | none =>
    rw [hend] at hreaches
    refine Or.inl ⟨rfl, fun s h1 h2 e he => ?_⟩
    exact hreaches e (Nat.le_trans h1 he.le) (he.le_size h2) ⟨s, h1, h2, he⟩
  | some e =>
    rw [hend] at hreaches
    obtain ⟨_, _, ⟨s, h1, h2, hm⟩, h3⟩ := hreaches
    refine Or.inr ⟨s, e, rfl, h1, h2, hm, fun s' e' h1' h2' hm' => ?_⟩
    by_contra hlt
    exact h3 e' (Nat.le_trans h1' hm'.le) (Nat.lt_of_not_le hlt) ⟨s', h1', h2', hm'⟩

/-- The other scan finds the end of the trail from the leftmost place where a match starts. -/
theorem scanForward_longest (h : Compiled p limit n d) (hstart : start ≤ data.size) :
    (d.forward.scanForward data start false = none ∧
        ∀ s, start ≤ s → s ≤ data.size → ∀ e, ¬ Matches data p s e) ∨
      ∃ s e, d.forward.scanForward data start false = some e ∧ start ≤ s ∧ s ≤ data.size ∧
        (∀ j, start ≤ j → j < s → ∀ e', ¬ Matches data p j e') ∧ Matches data p s e ∧
          Trail n data (n.anchored, s) e := by
  obtain ⟨out, goal, skipping, hclosed⟩ := h.closed
  obtain ⟨k, hbelow, hquiet⟩ := h.forward.quiet
  have hscan := Table.scanForward_longest hbelow hquiet hstart
  have haccepts := hscan.congr fun j hj hj' => h.forward.accepts hj hj'
  by_cases hfertile : Nfa.Fertile n data start n.floating
  · have hseeds : [n.floating] = [] ++ n.floating :: [] := rfl
    obtain ⟨e, htrail, hlast⟩ := Dfa.Subset.rightmost_trail
      (c := Dfa.Subset.ofNfa n (Alphabet.build p) .leftmostFirst) rfl hseeds
      (fun x hx => absurd hx List.not_mem_nil) hfertile hstart
    obtain ⟨s, h1, h2, h3, h4⟩ := hclosed.trail_floating hstart htrail
    exact Or.inr
      ⟨s, e, haccepts.unique hlast, h1, h2, h3, hclosed.reaches_anchored.1 h4.reaches, h4⟩
  · have hnone : Rightmost ((Dfa.Subset.ofNfa n (Alphabet.build p) .leftmostFirst).Accepts data
        start [n.floating]) start data.size none := fun j hj hj' =>
      Dfa.Subset.not_accepts (fun s hs => List.mem_singleton.1 hs ▸ hfertile) hj hj'
    refine Or.inl ⟨haccepts.unique hnone, fun s h1 h2 e he => hfertile ⟨e, ?_⟩⟩
    exact (hclosed.reaches_floating hstart).2 ⟨s, h1, h2, he⟩

/-- The reverse scan finds the least start of a match with a known end. -/
theorem scanReverse (h : Compiled p limit n d) {lo hi : Nat} (hlo : lo ≤ hi)
    (hhi : hi ≤ data.size) :
    Leftmost (fun s => Matches data p s hi) lo hi (d.reverse.scanReverse data lo hi) := by
  obtain ⟨out, goal, skipping, hclosed⟩ := h.closed
  obtain ⟨k, hbelow, hquiet⟩ := h.reverse.quiet
  have hsize : data.reverse.size = data.size := Array.size_reverse
  refine (Table.scanReverse_spec hbelow hquiet hlo hhi).congr fun j hj hj' => ?_
  rw [h.reverse.accepts (by omega) (by omega),
    Dfa.Subset.accepts_iff_of_all rfl (by omega) (by omega)]
  simp only [List.mem_singleton, exists_eq_left]
  rw [show (Dfa.Subset.ofNfa n.reverse (Alphabet.build p) .all).nfa = n.reverse from rfl,
    hclosed.reaches_reverse (by omega), Nat.sub_sub_self hhi, Nat.sub_sub_self (by omega)]
  exact ⟨fun hm => hm.2, fun hm => ⟨by omega, hm⟩⟩

/-- The reverse scan does not fail where a match ends. -/
theorem exists_start (h : Compiled p limit n d) {s e : Nat} (hs : start ≤ s) (he : e ≤ data.size)
    (hm : Matches data p s e) :
    ∃ s', d.reverse.scanReverse data start e = some s' ∧ start ≤ s' ∧ Matches data p s' e ∧
      ∀ j, start ≤ j → Matches data p j e → s' ≤ j := by
  have hback := h.scanReverse (Nat.le_trans hs hm.le) he
  cases hscan : d.reverse.scanReverse data start e with
  | none =>
    rw [hscan] at hback
    exact absurd hm (hback s hs hm.le)
  | some s' =>
    rw [hscan] at hback
    obtain ⟨h1, _, h2, h3⟩ := hback
    exact ⟨s', rfl, h1, h2, fun j hj hj' => Nat.le_of_not_lt fun hlt => h3 j hj hlt hj'⟩

/-! ## Finds -/

/-- A search for the first end finds it, with the least start that goes with it. -/
theorem find_shortest (h : Compiled p limit n d) (hd : d.longest = false)
    (hstart : start ≤ data.size) :
    (d.find data start = none ∧ ∀ s, start ≤ s → s ≤ data.size → ∀ e, ¬ Matches data p s e) ∨
      ∃ s e, d.find data start = some ⟨s, e⟩ ∧ start ≤ s ∧ s ≤ data.size ∧ Matches data p s e ∧
        (∀ s' e', start ≤ s' → s' ≤ data.size → Matches data p s' e' → e ≤ e') ∧
          ∀ s', start ≤ s' → Matches data p s' e → s ≤ s' := by
  rw [Database.find, if_neg (Nat.not_lt_of_le hstart), hd, Bool.not_false]
  rcases h.scanForward_shortest hstart with ⟨hscan, hnone⟩ | ⟨s, e, hscan, h1, h2, hm, h3⟩
  · rw [hscan]
    exact Or.inl ⟨rfl, hnone⟩
  · obtain ⟨s', hback, h5, h6, h7⟩ := h.exists_start h1 (hm.le_size h2) hm
    rw [hscan]
    exact Or.inr ⟨s', e, by simp only [hback], h5, Nat.le_trans h6.le (hm.le_size h2), h6, h3, h7⟩

/-- A search for the preferred end finds the end of the trail from the leftmost place where a match
starts. -/
theorem find_longest (h : Compiled p limit n d) (hd : d.longest = true)
    (hstart : start ≤ data.size) :
    (d.find data start = none ∧ ∀ s, start ≤ s → s ≤ data.size → ∀ e, ¬ Matches data p s e) ∨
      ∃ s e, d.find data start = some ⟨s, e⟩ ∧ start ≤ s ∧ s ≤ data.size ∧
        (∀ j, start ≤ j → j < s → ∀ e', ¬ Matches data p j e') ∧ Matches data p s e ∧
          Trail n data (n.anchored, s) e := by
  rw [Database.find, if_neg (Nat.not_lt_of_le hstart), hd, Bool.not_true]
  rcases h.scanForward_longest hstart with ⟨hscan, hnone⟩ | ⟨s, e, hscan, h1, h2, h3, hm, h4⟩
  · rw [hscan]
    exact Or.inl ⟨rfl, hnone⟩
  · rw [hscan]
    obtain ⟨s', hback, h5, h6, h7⟩ := h.exists_start h1 (hm.le_size h2) hm
    -- no match starts before `s`
    obtain rfl : s' = s := by
      rcases Nat.lt_or_eq_of_le (h7 s h1 hm) with hlt | heq
      · exact absurd h6 (h3 s' h5 hlt e)
      · exact heq
    exact Or.inr ⟨s', e, by simp only [hback], h1, h2, h3, hm, h4⟩

/-- A search over the tree and a search of the database find matches with the same start, and the
database finds the end of the trail from there. -/
theorem find_leftmostFirst (h : Compiled p limit n d) (hd : d.longest = true)
    (hstart : start ≤ data.size) {r : Option Span}
    (hr : Matcher.leftmostFirst data p start = some r) :
    (r = none ∧ d.find data start = none) ∨
      ∃ (m : Span) (e : Nat), r = some m ∧ d.find data start = some ⟨m.start, e⟩ ∧
        Trail n data (n.anchored, m.start) e ∧ ∃ k k',
          Matcher.search data p m.start Matcher.takeEnd k none = some (true, k', some m.stop) := by
  have hmatches : ∀ m : Span, (∃ k k', Matcher.search data p m.start Matcher.takeEnd k none =
      some (true, k', some m.stop)) → Matches data p m.start m.stop := by
    rintro m ⟨k, k', hs⟩
    rcases Matcher.search_takeEnd h.ranged hs with ⟨hb, _⟩ | ⟨j, _, hj, hm⟩
    · cases hb
    · rwa [Option.some.inj hj]
  rcases Matcher.leftmostFirst_spec h.ranged hstart hr with ⟨rfl, hnone⟩ | ⟨m, rfl, h1, h2, h3, hs⟩
  · refine Or.inl ⟨rfl, ?_⟩
    rcases h.find_longest hd hstart with ⟨hfind, _⟩ | ⟨s, e, _, h4, h5, _, hm, _⟩
    · exact hfind
    · exact absurd hm (hnone s h4 h5 e)
  · rcases h.find_longest hd hstart with ⟨_, hnone⟩ | ⟨s, e, hfind, h4, h5, h6, hm, htrail⟩
    · exact absurd (hmatches m hs) (hnone m.start h1 h2 m.stop)
    · obtain rfl : s = m.start := by
        rcases Nat.lt_trichotomy s m.start with hlt | heq | hlt
        · exact absurd hm (h3 s h4 hlt e)
        · exact heq
        · exact absurd (hmatches m hs) (h6 m.start h1 hlt m.stop)
      exact Or.inr ⟨m, e, rfl, hfind, htrail, hs⟩

/-- Where no pass through an unbounded repeat can be empty, both searches find the same match. -/
theorem find_of_loopsConsume (h : Compiled p limit n d) (hd : d.longest = true)
    (hloops : p.LoopsConsume) (hstart : start ≤ data.size) {r : Option Span}
    (hr : Matcher.leftmostFirst data p start = some r) : d.find data start = r := by
  rcases h.find_leftmostFirst hd hstart hr with
    ⟨rfl, hfind⟩ | ⟨m, e, rfl, hfind, htrail, k, k', hs⟩
  · exact hfind
  · obtain ⟨out, goal, skipping, hclosed⟩ := h.closed
    have hfirst := (hclosed.first_anchored hloops hs).trail hclosed.pure
    rw [hfind, htrail.unique hfirst]

end Compiled

/-! ## What is promised of the searches -/

variable {options : Options} {tuning : Tuning} {M : List Span}

/-- `e` is the least end of the matches of the list that start at `start` or later. -/
def FirstEnd (M : List Span) (start e : Nat) : Prop :=
  (∃ m ∈ M, start ≤ m.start ∧ m.stop = e) ∧ ∀ m ∈ M, start ≤ m.start → e ≤ m.stop

theorem firstEnd_of_matches (hM : ∀ m : Span, m ∈ M ↔ m.start ≤ data.size ∧
    Matches data p m.start m.stop) {s e : Nat} (h1 : start ≤ s) (h2 : s ≤ data.size)
    (he : Matches data p s e)
    (hleast : ∀ s' e', start ≤ s' → s' ≤ data.size → Matches data p s' e' → e ≤ e') :
    FirstEnd M start e := by
  refine ⟨⟨⟨s, e⟩, (hM _).2 ⟨h2, he⟩, h1, rfl⟩, fun m hm hs => ?_⟩
  obtain ⟨hm1, hm2⟩ := (hM m).1 hm
  exact hleast m.start m.stop hs hm1 hm2

/-- The searches of a database agree with the list of all matches. -/
theorem searches_agree (h : compile p options tuning = .ok d)
    (hM : Matcher.allMatches data p = some M) :
    (d.isMatch data = true ↔ M ≠ []) ∧
      ∀ start ≤ data.size,
        (d.shortestMatch data start = none ↔ ¬ ∃ m ∈ M, start ≤ m.start) ∧
        (∀ e, d.shortestMatch data start = some e → FirstEnd M start e) ∧
        (d.find data start = none ↔ ¬ ∃ m ∈ M, start ≤ m.start) ∧
        ∀ m, d.find data start = some m →
          m ∈ M ∧ start ≤ m.start ∧
          (options.longest = false → FirstEnd M start m.stop ∧
            ∀ m' ∈ M, start ≤ m'.start → m'.stop = m.stop → m.start ≤ m'.start) ∧
          (options.longest = true → ∀ m' ∈ M, start ≤ m'.start → m.start ≤ m'.start) := by
  obtain ⟨hlongest, n, hc⟩ := compile_ok h
  have hmem := Matcher.mem_allMatches hc.ranged hM
  have hno : ∀ {start}, (∀ s, start ≤ s → s ≤ data.size → ∀ e, ¬ Matches data p s e) →
      ¬ ∃ m ∈ M, start ≤ m.start := by
    rintro start hnone ⟨m, hm, hs⟩
    exact hnone m.start hs ((hmem m).1 hm).1 m.stop ((hmem m).1 hm).2
  have hyes : ∀ {start s e}, start ≤ s → s ≤ data.size → Matches data p s e →
      ∃ m ∈ M, start ≤ m.start := fun {start s e} h1 h2 he => ⟨⟨s, e⟩, (hmem _).2 ⟨h2, he⟩, h1⟩
  refine ⟨?_, fun start hstart => ⟨?_, fun e he => ?_, ?_, fun m hm => ?_⟩⟩
  · rw [Database.isMatch]
    rcases hc.scanForward_shortest (Nat.zero_le _) with
      ⟨hscan, hnone⟩ | ⟨s, e, hscan, h1, h2, he, _⟩
    · rw [hscan]
      refine iff_of_false (by decide) fun hne => ?_
      obtain ⟨m, hm⟩ := List.exists_mem_of_ne_nil M hne
      exact hno hnone ⟨m, hm, Nat.zero_le _⟩
    · rw [hscan]
      obtain ⟨m, hm, _⟩ := hyes h1 h2 he
      exact iff_of_true rfl (List.ne_nil_of_mem hm)
  · rw [Database.shortestMatch, if_neg (Nat.not_lt_of_le hstart)]
    rcases hc.scanForward_shortest hstart with ⟨hscan, hnone⟩ | ⟨s, e, hscan, h1, h2, he, _⟩
    · exact iff_of_true hscan (hno hnone)
    · exact iff_of_false (by rw [hscan]; simp) (not_not_intro (hyes h1 h2 he))
  · rw [Database.shortestMatch, if_neg (Nat.not_lt_of_le hstart)] at he
    rcases hc.scanForward_shortest hstart with ⟨hscan, _⟩ | ⟨s, e', hscan, h1, h2, hm, hleast⟩
    · rw [hscan] at he
      cases he
    · obtain rfl : e' = e := Option.some.inj (hscan.symm.trans he)
      exact firstEnd_of_matches hmem h1 h2 hm hleast
  · cases hl : options.longest with
    | false =>
      rcases hc.find_shortest (hlongest.trans hl) hstart with
        ⟨hfind, hnone⟩ | ⟨s, e, hfind, h1, h2, he, _⟩
      · exact iff_of_true hfind (hno hnone)
      · exact iff_of_false (by rw [hfind]; simp) (not_not_intro (hyes h1 h2 he))
    | true =>
      rcases hc.find_longest (hlongest.trans hl) hstart with
        ⟨hfind, hnone⟩ | ⟨s, e, hfind, h1, h2, _, he, _⟩
      · exact iff_of_true hfind (hno hnone)
      · exact iff_of_false (by rw [hfind]; simp) (not_not_intro (hyes h1 h2 he))
  · cases hl : options.longest with
    | false =>
      rcases hc.find_shortest (hlongest.trans hl) hstart with
        ⟨hfind, _⟩ | ⟨s, e, hfind, h1, h2, he, hleast, hstarts⟩
      · rw [hfind] at hm
        cases hm
      · obtain rfl := Option.some.inj (hfind.symm.trans hm)
        refine ⟨(hmem _).2 ⟨h2, he⟩, h1, fun _ => ⟨firstEnd_of_matches hmem h1 h2 he hleast, ?_⟩,
          nofun⟩
        rintro m' hm' h3 rfl
        exact hstarts m'.start h3 ((hmem m').1 hm').2
    | true =>
      rcases hc.find_longest (hlongest.trans hl) hstart with
        ⟨hfind, _⟩ | ⟨s, e, hfind, h1, h2, hleast, he, _⟩
      · rw [hfind] at hm
        cases hm
      · obtain rfl := Option.some.inj (hfind.symm.trans hm)
        refine ⟨(hmem _).2 ⟨h2, he⟩, h1, nofun, fun _ m' hm' h3 => ?_⟩
        by_contra hlt
        exact hleast m'.start h3 (Nat.lt_of_not_le hlt) m'.stop ((hmem m').1 hm').2

theorem searches_agree_letters : ∃ d M, compile letters = .ok d ∧
    Matcher.allMatches #[98, 97] letters = some M ∧ (d.isMatch #[98, 97] = true ↔ M ≠ []) ∧
      ∀ start ≤ 2, ∀ m, d.find #[98, 97] start = some m → m ∈ M ∧ start ≤ m.start ∧
        ∀ m' ∈ M, start ≤ m'.start → m.start ≤ m'.start := by
  obtain ⟨d, hd⟩ := exists_compile_letters
  obtain ⟨M, hM⟩ : ∃ M, Matcher.allMatches #[98, 97] letters = some M := ⟨_, rfl⟩
  obtain ⟨hmatch, hsearch⟩ := searches_agree hd hM
  refine ⟨d, M, hd, hM, hmatch, fun start hstart m hm => ?_⟩
  obtain ⟨_, _, _, hfind⟩ := hsearch start hstart
  obtain ⟨h1, h2, _, h3⟩ := hfind m hm
  exact ⟨h1, h2, h3 rfl⟩

/-- The reverse scan is exact, and never fails where a forward scan has found an end. -/
theorem scanReverse_exact (h : compile p options tuning = .ok d) :
    (∀ lo hi, lo ≤ hi → hi ≤ data.size →
      (d.reverse.scanReverse data lo hi = none ↔
        ∀ s, lo ≤ s → s ≤ hi → ¬ Matches data p s hi) ∧
      ∀ s, d.reverse.scanReverse data lo hi = some s →
        lo ≤ s ∧ s ≤ hi ∧ Matches data p s hi ∧ ∀ s', lo ≤ s' → s' < s → ¬ Matches data p s' hi) ∧
    (∀ M, Matcher.allMatches data p = some M →
      ∀ m : Span, m ∈ M ↔ m.start ≤ data.size ∧ Matches data p m.start m.stop) ∧
    ∀ start ≤ data.size, ∀ shortest e, d.forward.scanForward data start shortest = some e →
      ∃ s, d.reverse.scanReverse data start e = some s := by
  obtain ⟨_, n, hc⟩ := compile_ok h
  refine ⟨fun lo hi hlo hhi => ?_, fun M hM => Matcher.mem_allMatches hc.ranged hM,
    fun start hstart shortest e he => ?_⟩
  · have hscan := hc.scanReverse hlo hhi
    cases hback : d.reverse.scanReverse data lo hi with
    | none =>
      rw [hback] at hscan
      exact ⟨iff_of_true rfl hscan, fun s hs => by cases hs⟩
    | some s =>
      rw [hback] at hscan
      refine ⟨iff_of_false (by simp) fun hno => hno s hscan.1 hscan.2.1 hscan.2.2.1, ?_⟩
      rintro _ ⟨⟩
      exact hscan
  · cases shortest with
    | true =>
      rcases hc.scanForward_shortest hstart with ⟨hscan, _⟩ | ⟨s, e', hscan, h1, h2, hm, _⟩
      · rw [hscan] at he
        cases he
      · obtain rfl := Option.some.inj (hscan.symm.trans he)
        obtain ⟨s', hback, _⟩ := hc.exists_start h1 (hm.le_size h2) hm
        exact ⟨s', hback⟩
    | false =>
      rcases hc.scanForward_longest hstart with ⟨hscan, _⟩ | ⟨s, e', hscan, h1, h2, _, hm, _⟩
      · rw [hscan] at he
        cases he
      · obtain rfl := Option.some.inj (hscan.symm.trans he)
        obtain ⟨s', hback, _⟩ := hc.exists_start h1 (hm.le_size h2) hm
        exact ⟨s', hback⟩

theorem scanReverse_exact_letters : ∃ d, compile letters = .ok d ∧
    (∀ s, d.reverse.scanReverse #[98, 97] 0 2 = some s → Matches #[98, 97] letters s 2) ∧
      ∀ e, d.forward.scanForward #[98, 97] 0 false = some e →
        ∃ s, d.reverse.scanReverse #[98, 97] 0 e = some s := by
  obtain ⟨d, hd⟩ := exists_compile_letters
  obtain ⟨hscan, _, hforward⟩ := scanReverse_exact hd
  refine ⟨d, hd, fun s hs => ?_, hforward 0 (by decide) false⟩
  obtain ⟨_, _, hm, _⟩ := (hscan 0 2 (by decide) (by decide)).2 s hs
  exact hm

/-- Where no pass through an unbounded repeat can be empty, a search of the database finds what a
search over the tree finds. -/
theorem find_eq_leftmostFirst (h : compile p options tuning = .ok d)
    (hlongest : options.longest = true) (hloops : p.LoopsConsume) (hstart : start ≤ data.size)
    {r : Option Span} (hr : Matcher.leftmostFirst data p start = some r) :
    d.find data start = r := by
  obtain ⟨hl, n, hc⟩ := compile_ok h
  exact hc.find_of_loopsConsume (hl.trans hlongest) hloops hstart hr

theorem find_eq_leftmostFirst_letters : ∃ d, compile letters = .ok d ∧ letters.LoopsConsume ∧
    Matcher.leftmostFirst #[98, 97, 97] letters 1 = some (some ⟨1, 3⟩) ∧
      d.find #[98, 97, 97] 1 = some ⟨1, 3⟩ := by
  obtain ⟨d, hd⟩ := exists_compile_letters
  have hloops : letters.LoopsConsume := by
    intro n hn
    rw [show letters.nodes = [letters, letter] from rfl] at hn
    rcases List.mem_pair.1 hn with rfl | rfl
    · rfl
    · trivial
  exact ⟨d, hd, hloops, rfl, find_eq_leftmostFirst hd rfl hloops (by decide) rfl⟩

/-- A search of the database finds a match just where a search over the tree does, from the same
start on. The ends are the same just if the trail from there leads to the end of the match that
the search over the tree finds. -/
theorem find_eq_leftmostFirst_iff (h : compile p options tuning = .ok d)
    (hlongest : options.longest = true) (hstart : start ≤ data.size) {r : Option Span}
    (hr : Matcher.leftmostFirst data p start = some r) :
    (d.find data start).map Span.start = r.map Span.start ∧
      ∃ n, Nfa.ofPattern p (Alphabet.build p) tuning.maxNfaStates = .ok n ∧
        (d.find data start = r ↔ ∀ m, r = some m → Trail n data (n.anchored, m.start) m.stop) := by
  obtain ⟨hl, n, hc⟩ := compile_ok h
  rcases hc.find_leftmostFirst (hl.trans hlongest) hstart hr with ⟨rfl, hfind⟩ |
    ⟨m, e, rfl, hfind, htrail, _⟩
  · exact ⟨by rw [hfind], n, hc.built, iff_of_true hfind fun m hm => by cases hm⟩
  · refine ⟨by rw [hfind]; rfl, n, hc.built, fun heq => ?_, fun htrail' => ?_⟩
    · rintro _ ⟨⟩
      have hstop : e = m.stop := congrArg Span.stop (Option.some.inj (hfind.symm.trans heq))
      exact hstop ▸ htrail
    · rw [hfind, htrail.unique (htrail' m rfl)]

theorem find_nestedLetters_iff : ∃ d n, compile nestedLetters = .ok d ∧
    Matcher.leftmostFirst #[97, 97] nestedLetters 0 = some (some ⟨0, 2⟩) ∧
      Nfa.ofPattern nestedLetters (Alphabet.build nestedLetters) 500000 = .ok n ∧
        (d.find #[97, 97] 0).map Span.start = some 0 ∧
          (d.find #[97, 97] 0 = some ⟨0, 2⟩ ↔ Trail n #[97, 97] (n.anchored, 0) 2) := by
  obtain ⟨d, hd⟩ := exists_compile_nestedLetters
  have hr : Matcher.leftmostFirst #[97, 97] nestedLetters 0 = some (some ⟨0, 2⟩) := rfl
  obtain ⟨hsame, n, hn, hspan⟩ := find_eq_leftmostFirst_iff hd rfl (Nat.zero_le _) hr
  refine ⟨d, n, hd, hr, hn, hsame, hspan.trans ⟨fun htrail => htrail _ rfl, ?_⟩⟩
  rintro htrail _ ⟨⟩
  exact htrail

/-- After one letter the inner repeat is left before it may go on, and the outer one is left as
well, for a closure does not come back to the inner repeat. -/
theorem rightmost_nestedLetters : Rightmost ((Dfa.Subset.ofNfa nestedLettersNfa
    (Alphabet.build nestedLetters) .leftmostFirst).Accepts #[97, 97] 0 [4]) 0 2 (some 1) := by
  generalize hc : Dfa.Subset.ofNfa nestedLettersNfa (Alphabet.build nestedLetters)
    .leftmostFirst = c
  have hkind : c.kind = .leftmostFirst := by rw [← hc]; rfl
  have hfirst : c.resolve #[97, 97] 0 [4] = [0, 6] := by
    subst hc
    exact Dfa.Subset.resolve_eq hkind (l := [0, 6])
      (Dfa.Subset.closure_of_trace 20 (by decide +kernel))
      (Dfa.Subset.closure_of_trace 20 (by decide +kernel))
  have hsecond : c.resolve #[97, 97] 1 [1] = [6] := by
    subst hc
    exact Dfa.Subset.resolve_eq hkind (l := [6])
      (Dfa.Subset.closure_of_trace 20 (by decide +kernel))
      (Dfa.Subset.closure_of_trace 20 (by decide +kernel))
  have hthird : c.resolve #[97, 97] 2 [] = [] :=
    Dfa.Subset.resolve_eq hkind (Dfa.Subset.closure_nil _) (Dfa.Subset.closure_nil _)
  have hone : c.seedsAfter #[97, 97] 0 [4] 1 = [1] := by
    rw [Dfa.Subset.seedsAfter, Dfa.Subset.advance, Dfa.Subset.seedsAfter, hfirst]
    subst hc
    rfl
  have htwo : c.seedsAfter #[97, 97] 0 [4] 2 = [] := by
    rw [Dfa.Subset.seedsAfter, Dfa.Subset.advance, hone, hsecond]
    subst hc
    rfl
  refine ⟨by decide, by decide, ⟨6, ?_, ?_⟩, fun j hj hj' => ?_⟩
  · rw [hone, hsecond]
    exact List.mem_singleton_self 6
  · subst hc
    rfl
  · obtain rfl : j = 2 := by omega
    rintro ⟨t, ht, _⟩
    rw [htwo, hthird] at ht
    cases ht

/-- In `(a*?)*` each pass takes one more letter, but the automaton finds only the first one. -/
theorem find_nestedLetters_ne : ∃ d, compile nestedLetters = .ok d ∧
    Matcher.leftmostFirst #[97, 97] nestedLetters 0 = some (some ⟨0, 2⟩) ∧
      d.find #[97, 97] 0 = some ⟨0, 1⟩ := by
  obtain ⟨d, hd⟩ := exists_compile_nestedLetters
  have hr : Matcher.leftmostFirst #[97, 97] nestedLetters 0 = some (some ⟨0, 2⟩) := rfl
  refine ⟨d, hd, hr, ?_⟩
  obtain ⟨hl, n, hc⟩ := compile_ok hd
  obtain rfl : n = nestedLettersNfa :=
    Except.ok.inj (hc.built.symm.trans (ofPattern_nestedLetters _))
  rcases hc.find_leftmostFirst hl (Nat.zero_le _) hr with ⟨hnone, _⟩ |
    ⟨m, e, hm, hfind, htrail, _⟩
  · cases hnone
  · obtain rfl := Option.some.inj hm
    have hseeds : [4] = [] ++ 4 :: [] := rfl
    obtain ⟨e', htrail', hlast⟩ := Dfa.Subset.rightmost_trail
      (c := Dfa.Subset.ofNfa nestedLettersNfa (Alphabet.build nestedLetters) .leftmostFirst) rfl
      hseeds (fun x hx => absurd hx List.not_mem_nil) ⟨e, htrail.reaches⟩ (Nat.zero_le _)
    obtain rfl : e = e' := htrail.unique htrail'
    obtain rfl : e = 1 := Option.some.inj (hlast.unique rightmost_nestedLetters)
    exact hfind

end ByteRegex
