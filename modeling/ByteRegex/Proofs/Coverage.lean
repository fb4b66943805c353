-- A scan for preferred ends loses nothing: every place where a match starts
-- lies in a match that is handed over, or just behind it.
import ByteRegex.Proofs.Database
import ByteRegex.Proofs.Scan

namespace ByteRegex

open Database (Orderly Turns Runs)

variable {p : Pattern} {limit : Nat} {n : Nfa} {d : Database} {data : Bytes} {σ : Type}
  {receive : Span → σ → σ × Bool} {c c' : Scanning σ} {m : Span} {pos q : Nat}

theorem le_stop_of_lt_resume (h : q < Database.resume m) : q ≤ m.stop := by
  unfold Database.resume at h
  split at h
  · exact Nat.le_of_lt_succ h
  · exact Nat.le_of_lt h

/-! ## One search -/

namespace Compiled

/-- Where a search fails, no match starts at its place or later. -/
theorem not_matches_of_find (h : Compiled p limit n d) (hd : d.longest = true)
    (hfind : d.find data pos = none) :
    ∀ s, pos ≤ s → s ≤ data.size → ∀ e, ¬ Matches data p s e := by
  intro s hs hsize e he
  rcases h.find_longest hd (Nat.le_trans hs hsize) with ⟨_, hnone⟩ | ⟨s', e', hsome, _⟩
  · exact hnone s hs hsize e he
  · rw [hfind] at hsome
    cases hsome

/-- A search gives a match, and none starts between its place and there. -/
theorem matches_of_find (h : Compiled p limit n d) (hd : d.longest = true)
    (hfind : d.find data pos = some m) :
    Matches data p m.start m.stop ∧ ∀ s, pos ≤ s → s < m.start → ∀ e, ¬ Matches data p s e := by
  obtain ⟨h1, h2, h3⟩ := Database.find_bounds hfind
  rcases h.find_longest hd (Nat.le_trans h1 (Nat.le_trans h2 h3)) with
    ⟨hnone, _⟩ | ⟨s, e, hsome, _, _, hleast, hm, _⟩
  · rw [hfind] at hnone
    cases hnone
  · obtain rfl := Option.some.inj (hfind.symm.trans hsome)
    exact ⟨hm, hleast⟩

theorem isMatch_iff (h : Compiled p limit n d) :
    d.isMatch data = true ↔ ∃ s ≤ data.size, ∃ e, Matches data p s e := by
  rw [Database.isMatch]
  rcases h.scanForward_shortest (Nat.zero_le _) with ⟨hscan, hnone⟩ | ⟨s, e, hscan, _, hs, he, _⟩
  · rw [hscan]
    refine iff_of_false Bool.false_ne_true ?_
    rintro ⟨s, hs, e, he⟩
    exact hnone s (Nat.zero_le s) hs e he
  · rw [hscan]
    exact iff_of_true rfl ⟨s, hs, e, he⟩

end Compiled

/-! ## What the turns keep -/

/-- What was handed over are matches, and they cover all places so far where one starts. The first
of them is the match that a search from the start of the text finds. -/
structure Covers (p : Pattern) (d : Database) (data : Bytes) (c : Scanning σ) : Prop where
  sound : ∀ m ∈ c.spans, Matches data p m.start m.stop
  covered : ∀ q < c.pos, ∀ e, Matches data p q e → ∃ m ∈ c.spans, m.start ≤ q ∧ q ≤ m.stop
  first : ∀ m, c.spans.head? = some m → d.find data 0 = some m
  begun : c.spans = [] → c.pos = 0
  ended : c.result = some true → d.find data c.pos = none

namespace Covers

theorem start (s : σ) : Covers p d data ({ receiver := s } : Scanning σ) where
  sound m hm := by cases hm
  covered q hq := absurd hq (Nat.not_lt_zero q)
  first m hm := by cases hm
  begun _ := rfl
  ended h := by cases h

/-- All places up to the end of a new match are covered, if the match itself is. -/
theorem covered_to_stop (h : Covers p d data c) (hc : Compiled p limit n d) (hd : d.longest = true)
    (hfind : d.find data c.pos = some m) {l : List Span} (hl : c.spans ⊆ l)
    (hm : ∀ q, m.start ≤ q → q ≤ m.stop → ∃ m' ∈ l, m'.start ≤ q ∧ q ≤ m'.stop) :
    ∀ q ≤ m.stop, ∀ e, Matches data p q e → ∃ m' ∈ l, m'.start ≤ q ∧ q ≤ m'.stop := by
  intro q hq e he
  by_cases hold : q < c.pos
  · obtain ⟨m', hm', hcover⟩ := h.covered q hold e he
    exact ⟨m', hl hm', hcover⟩
  · have hstart : m.start ≤ q := Nat.le_of_not_lt fun hlt =>
      (hc.matches_of_find hd hfind).2 q (Nat.le_of_not_lt hold) hlt e he
    exact hm q hstart hq

/-- A match that is handed over keeps what was handed over sound, and its first match where it
is. -/
theorem spans_append (h : Covers p d data c) (hc : Compiled p limit n d) (hd : d.longest = true)
    (hfind : d.find data c.pos = some m) :
    (∀ m' ∈ c.spans ++ [m], Matches data p m'.start m'.stop) ∧
      ∀ m', (c.spans ++ [m]).head? = some m' → d.find data 0 = some m' := by
  refine ⟨fun m' hm' => ?_, fun m' hm' => ?_⟩
  · rcases List.mem_append.1 hm' with hm' | hm'
    · exact h.sound m' hm'
    · rw [List.mem_singleton.1 hm']
      exact (hc.matches_of_find hd hfind).1
  · cases hspans : c.spans with
    | nil =>
      rw [hspans] at hm'
      rw [← Option.some.inj hm', ← hfind, h.begun hspans]
    | cons m0 rest =>
      refine h.first m' ?_
      rw [hspans] at hm' ⊢
      exact hm'

theorem turn (h : Covers p d data c) (horderly : Orderly data receive c)
    (hc : Compiled p limit n d) (hd : d.longest = true) (hturn : Turns d data receive c c') :
    Covers p d data c' := by
  obtain ⟨hnone, rfl⟩ := hturn
  rcases Database.turn_cases d data receive c with
    ⟨hfind, heq⟩ | ⟨m, hfind, ⟨hempty, hlast, heq⟩ | ⟨_, s, ⟨_, heq⟩ | ⟨_, heq⟩⟩⟩
  · rw [heq]
    exact ⟨h.sound, h.covered, h.first, h.begun, fun _ => hfind⟩
  · rw [heq]
    -- the match before ends where the empty one stands
    have hback := horderly.last hnone
    rw [hlast] at hback
    obtain ⟨l, hl, hstop⟩ := Option.map_eq_some_iff.1 hback.symm
    have hmem : l ∈ c.spans := List.mem_of_getLast? hl
    have hle := (horderly.within l hmem).1
    have hsame : m.start = m.stop := eq_of_beq hempty
    refine ⟨h.sound, fun q hq => ?_, h.first, fun hnil => ?_, fun hend => ?_⟩
    · exact h.covered_to_stop hc hd hfind (List.Subset.refl _)
        (fun q h1 h2 => ⟨l, hmem, by omega, by omega⟩) q (Nat.le_of_lt_succ hq)
    · exact absurd hmem (hnil ▸ List.not_mem_nil)
    · exact absurd hend (by rw [show (c.pass m).result = none from hnone]; nofun)
  · rw [heq]
    obtain ⟨hsound, hfirst⟩ := h.spans_append hc hd hfind
    rw [← c.spans_refuse m s] at hsound hfirst
    refine ⟨hsound, fun q hq e he => ?_, hfirst, fun hnil => ?_, nofun⟩
    · obtain ⟨m', hm', hcover⟩ := h.covered q hq e he
      exact ⟨m', by rw [Scanning.spans_refuse]; exact List.mem_append_left _ hm', hcover⟩
    · rw [Scanning.spans_refuse] at hnil
      exact absurd hnil (List.append_ne_nil_of_right_ne_nil _ (List.cons_ne_nil m []))
  · rw [heq]
    obtain ⟨hsound, hfirst⟩ := h.spans_append hc hd hfind
    refine ⟨?_, fun q hq => ?_, ?_, fun hnil => ?_, fun hend => ?_⟩
    · rwa [Scanning.spans_accept]
    · rw [Scanning.spans_accept]
      exact h.covered_to_stop hc hd hfind (List.subset_append_left _ _)
        (fun q h1 h2 => ⟨m, List.mem_append_right _ (List.mem_singleton_self m), h1, h2⟩) q
        (le_stop_of_lt_resume hq)
    · rwa [Scanning.spans_accept]
    · rw [Scanning.spans_accept] at hnil
      exact absurd hnil (List.append_ne_nil_of_right_ne_nil _ (List.cons_ne_nil m []))
    · exact absurd hend (by rw [show (c.accept m s).result = none from hnone]; nofun)

theorem runs (h : Covers p d data c) (horderly : Orderly data receive c)
    (hc : Compiled p limit n d) (hd : d.longest = true) (hruns : Runs d data receive c c') :
    Covers p d data c' := by
  induction hruns with
  | refl => exact h
  | tail hruns hturn ih => exact ih.turn (horderly.runs hruns) hc hd hturn

end Covers

/-! ## The law -/

variable {options : Options} {tuning : Tuning}

/-- A scan for preferred ends hands over matches only, and every place where a match starts lies in
one of them or just behind it. It finds something just if the pattern matches, and first what a
search from the start of the text finds. -/
theorem scan_covers (h : compile p options tuning = .ok d) (hlongest : options.longest = true)
    (data : Bytes) :
    (∀ M, Matcher.allMatches data p = some M →
      ∀ m : Span, m ∈ M ↔ m.start ≤ data.size ∧ Matches data p m.start m.stop) ∧
    (∀ m ∈ d.scan data, m.start ≤ data.size ∧ Matches data p m.start m.stop) ∧
    (∀ q ≤ data.size, ∀ e, Matches data p q e → ∃ m ∈ d.scan data, m.start ≤ q ∧ q ≤ m.stop) ∧
    (d.scan data ≠ [] ↔ d.isMatch data = true) ∧ (d.scan data).head? = d.find data 0 := by
  obtain ⟨hl, n, hc⟩ := compile_ok h
  have hd : d.longest = true := hl.trans hlongest
  let receive : Span → Unit → Unit × Bool := fun _ u => (u, false)
  obtain ⟨c, complete, hruns, hresult, _, _, hall⟩ := Database.runs_scan d data receive ()
  have horderly : Orderly data receive c := (Orderly.start ()).runs hruns
  have hcovers : Covers p d data c := (Covers.start ()).runs (Orderly.start ()) hc hd hruns
  obtain rfl : complete = true := horderly.complete hresult fun _ _ => rfl
  have hended := hc.not_matches_of_find hd (hcovers.ended hresult)
  rw [← hall rfl]
  have hcovered : ∀ q ≤ data.size, ∀ e, Matches data p q e →
      ∃ m ∈ c.spans, m.start ≤ q ∧ q ≤ m.stop := fun q hq e he =>
    hcovers.covered q (Nat.lt_of_not_le fun hle => hended q hle hq e he) e he
  have hsound : ∀ m ∈ c.spans, m.start ≤ data.size ∧ Matches data p m.start m.stop := fun m hm =>
    ⟨Nat.le_trans (horderly.within m hm).1 (horderly.within m hm).2, hcovers.sound m hm⟩
  refine ⟨fun M hM => Matcher.mem_allMatches hc.ranged hM, hsound, hcovered, ?_, ?_⟩
  · rw [hc.isMatch_iff]
    constructor
    · intro hne
      obtain ⟨m, hm⟩ := List.exists_mem_of_ne_nil _ hne
      obtain ⟨hs, he⟩ := hsound m hm
      exact ⟨m.start, hs, m.stop, he⟩
    · rintro ⟨q, hq, e, he⟩
      obtain ⟨m, hm, _⟩ := hcovered q hq e he
      exact List.ne_nil_of_mem hm
  · cases hspans : c.spans with
    | nil =>
      have hzero := hcovers.ended hresult
      rw [hcovers.begun hspans] at hzero
      exact hzero.symm
    | cons m rest => exact (hcovers.first m (by rw [hspans]; rfl)).symm

/-- The pattern `a*` on the text `ba` matches at each of its three places. -/
theorem scan_covers_letters : ∃ d, compile letters = .ok d ∧
    ∀ q ≤ 2, ∃ m ∈ d.scan #[98, 97], m.start ≤ q ∧ q ≤ m.stop := by
  obtain ⟨d, hd⟩ := exists_compile_letters
  obtain ⟨_, _, hcovered, _⟩ := scan_covers hd rfl #[98, 97]
  refine ⟨d, hd, fun q hq => hcovered q hq q ?_⟩
  exact ⟨0, Nat.le_refl 0, nofun, rfl⟩

end ByteRegex
