-- The settings that choose between minimised and raw automata, and between narrow and wide
-- tables, decide only how a database is stored. Under the same limits two compilations fail
-- with the same error, or give databases that answer every search in the same way.
import ByteRegex.Proofs.Files
import ByteRegex.Proofs.Table.Scan

namespace ByteRegex

open Alphabet (build)

/-! ## Two tables -/

/-- No scan can tell the two tables apart. -/
structure Table.Alike (t t' : Table) : Prop where
  reading : t.reading = t'.reading
  agree : ∃ k, t.reading.Below k ∧ t.machine.Quiet k 0 ∧ Machine.Agree k t.machine t'.machine

namespace Table.Alike

variable {t t' : Table} {data : Bytes}

theorem scanForward (h : t.Alike t') {start : Nat} (hstart : start ≤ data.size)
    (shortest : Bool) : t.scanForward data start shortest = t'.scanForward data start shortest := by
  obtain ⟨k, hbelow, hquiet, hagree⟩ := h.agree
  have hquiet' := hagree.dead.quiet hquiet
  have hbelow' : t'.reading.Below k := h.reading ▸ hbelow
  have hstops := hagree.forwardStops hbelow data start
  cases shortest with
  | true =>
    rw [scanForward_eq_head? hbelow hquiet hstart, scanForward_eq_head? hbelow' hquiet' hstart,
      hstops, h.reading]
  | false =>
    rw [scanForward_eq_getLast? hbelow hquiet hstart,
      scanForward_eq_getLast? hbelow' hquiet' hstart, hstops, h.reading]

theorem scanReverse (h : t.Alike t') {lo hi : Nat} (hlo : lo ≤ hi) (hhi : hi ≤ data.size) :
    t.scanReverse data lo hi = t'.scanReverse data lo hi := by
  obtain ⟨k, hbelow, hquiet, hagree⟩ := h.agree
  have hquiet' := hagree.dead.quiet hquiet
  have hbelow' : t'.reading.Below k := h.reading ▸ hbelow
  rw [scanReverse_eq_getLast? hbelow hquiet hlo hhi,
    scanReverse_eq_getLast? hbelow' hquiet' hlo hhi, hagree.reverseStops hbelow, h.reading]

end Table.Alike

/-! ## Two databases -/

namespace Database

/-- The tables of both directions are alike, and so is the choice of the end of a match. -/
structure Alike (d d' : Database) : Prop where
  forward : d.forward.Alike d'.forward
  reverse : d.reverse.Alike d'.reverse
  longest : d.longest = d'.longest

/-- Every search gives the same, also one whose matches are handed to a receiver that may stop
it. -/
structure SameAnswers (d d' : Database) : Prop where
  isMatch : ∀ data, d.isMatch data = d'.isMatch data
  shortestMatch : ∀ data start, d.shortestMatch data start = d'.shortestMatch data start
  find : ∀ data start, d.find data start = d'.find data start
  scan : ∀ data, d.scan data = d'.scan data
  scanInto : ∀ data {σ : Type} (receive : Span → σ → σ × Bool) (s : σ),
    d.scanInto data receive s = d'.scanInto data receive s

namespace Alike

variable {d d' : Database}

theorem shortestMatch (h : d.Alike d') (data : Bytes) (start : Nat) :
    d.shortestMatch data start = d'.shortestMatch data start := by
  unfold Database.shortestMatch
  split
  · rfl
  · exact h.forward.scanForward (by omega) true

theorem find (h : d.Alike d') (data : Bytes) (start : Nat) :
    d.find data start = d'.find data start := by
  unfold Database.find
  split
  · rfl
  · rename_i hstart
    have hle : start ≤ data.size := Nat.le_of_not_lt hstart
    rw [h.longest, h.forward.scanForward hle]
    cases hend : d'.forward.scanForward data start !d'.longest with
    | none => rfl
    | some stop =>
      obtain ⟨hlo, hhi⟩ := Table.scanForward_bounds hle hend
      simp only [h.reverse.scanReverse hlo hhi]

theorem scanFrom (h : d.Alike d') (data : Bytes) (fuel pos : Nat) (lastStop : Option Nat) :
    d.scanFrom data fuel pos lastStop = d'.scanFrom data fuel pos lastStop := by
  induction fuel generalizing pos lastStop with
  | zero => rfl
  | succ fuel ih =>
    unfold Database.scanFrom
    rw [h.find]
    cases d'.find data pos with
    | none => rfl
    | some m => simp only [ih]

theorem sameAnswers (h : d.Alike d') : d.SameAnswers d' := by
  have hscan : ∀ data, d.scan data = d'.scan data := by
    intro data
    unfold Database.scan
    exact h.scanFrom data _ _ _
  refine ⟨?_, h.shortestMatch, h.find, hscan, ?_⟩
  · intro data
    unfold Database.isMatch
    rw [h.forward.scanForward (Nat.zero_le _)]
  · intro data σ receive s
    unfold Database.scanInto
    rw [hscan]

end Alike

end Database

/-! ## Two runs -/

section Runs

variable {α β γ δ : Type} {R : α → β → Prop} {S : γ → δ → Prop}

/-- The same error, or related values. -/
def SameOutcome (R : α → β → Prop) (x : Except Error α) (y : Except Error β) : Prop :=
  (∃ e, x = .error e ∧ y = .error e) ∨ ∃ a b, x = .ok a ∧ y = .ok b ∧ R a b

namespace Compile

/-- Two compilations have the same outcome, whatever has been listed before. -/
def Alike (R : α → β → Prop) (x : Compile α) (y : Compile β) : Prop :=
  ∀ s s', SameOutcome R (x.run s).1 (y.run s').1

theorem Alike.bind {x : Compile α} {y : Compile β} {f : α → Compile γ} {g : β → Compile δ}
    (hx : Alike R x y) (hf : ∀ a b, R a b → Alike S (f a) (g b)) :
    Alike S (x >>= f) (y >>= g) := by
  intro s s'
  have houtcome := hx s s'
  rw [bind_run, bind_run]
  rcases hr : x.run s with ⟨r, s1⟩
  rcases hr' : y.run s' with ⟨r', s1'⟩
  rw [hr, hr'] at houtcome
  rcases houtcome with ⟨e, rfl, rfl⟩ | ⟨a, b, rfl, rfl, hab⟩
  · exact Or.inl ⟨e, rfl, rfl⟩
  · exact hf a b hab s1 s1'

theorem Alike.pure {a : α} {b : β} (h : R a b) : Alike R (pure a) (pure b) :=
  fun _ _ => Or.inr ⟨a, b, rfl, rfl, h⟩

theorem Alike.lift_ok {x : Except Error α} {y : Except Error β} {a : α} {b : β} (hx : x = .ok a)
    (hy : y = .ok b) (h : R a b) : Alike R (liftM x : Compile α) (liftM y) := by
  subst hx hy
  exact Alike.pure h

/-- A step that does not depend on the settings. -/
theorem Alike.lift (x : Except Error α) :
    Alike (fun a b => a = b ∧ x = .ok a) (liftM x : Compile α) (liftM x) := by
  cases x with
  | error e => exact fun _ _ => Or.inl ⟨e, rfl, rfl⟩
  | ok a => exact Alike.pure ⟨rfl, rfl⟩

/-! ## Listings -/

variable {dest : Destination} {t t' : Tuning} {name : String}

/-- Listings cannot make a difference: all files open, or the same listings are asked for. -/
def SameListings (dest : Destination) (t t' : Tuning) : Prop :=
  (∀ name, dest.fault name = none) ∨ t.listings = t'.listings

/-- Two steps that list are alike, if they open the files of the same kind of listings. -/
theorem Alike.of_gives {x y : Compile Unit} (files : ListingFlags → List String)
    (hx : x.Gives (dest.openAll (files t.listings)))
    (hy : y.Gives (dest.openAll (files t'.listings))) (h : SameListings dest t t') :
    Alike (· = ·) x y := by
  have hsame : dest.openAll (files t.listings) = dest.openAll (files t'.listings) := by
    rcases h with hopen | hflags
    · have hopens : ∀ names, dest.Opens names := fun _ name _ => hopen name
      rw [(hopens _).openAll, (hopens _).openAll]
    · rw [hflags]
  intro s s'
  rw [hx, hy, ← hsame]
  cases dest.openAll (files t.listings) with
  | error e => exact Or.inl ⟨e, rfl, rfl⟩
  | ok a => exact Or.inr ⟨a, a, rfl, rfl, rfl⟩

theorem listNfa_alike (h : SameListings dest t t') (n : Nfa) :
    Alike (· = ·) (listNfa dest t name n) (listNfa dest t' name n) :=
  Alike.of_gives (·.nfaFiles name) (listNfa_gives n) (listNfa_gives n) h

theorem listDfa_alike (h : SameListings dest t t') (d d' : Dfa) :
    Alike (· = ·) (listDfa dest t name d) (listDfa dest t' name d') :=
  Alike.of_gives (·.dfaFiles name) (listDfa_gives d) (listDfa_gives d') h

theorem listDatabase_alike (h : SameListings dest t t') (d d' : Database) :
    Alike (· = ·) (listDatabase dest t d) (listDatabase dest t' d') :=
  Alike.of_gives (·.databaseFiles) (listDatabase_gives d) (listDatabase_gives d') h

end Compile

end Runs

/-! ## The steps of a compilation -/

/-- The same limits on the sizes of automata. -/
structure Tuning.SameLimits (t t' : Tuning) : Prop where
  nfaStates : t.maxNfaStates = t'.maxNfaStates
  dfaStates : t.maxDfaStates = t'.maxDfaStates
  transitions : t.maxTransitions = t'.maxTransitions

theorem Tuning.SameLimits.stateLimit {t t' : Tuning} (h : t.SameLimits t') (classes : Nat) :
    t.stateLimit classes = t'.stateLimit classes := by
  unfold Tuning.stateLimit
  rw [h.dfaStates, h.transitions]

section Steps

variable {dest : Destination} {p : Pattern} {n : Nfa} {direction : Direction} {longest : Bool}
  {t t' : Tuning}

/-- Two tables of one automaton are alike, with or without minimisation and of either width. -/
theorem alike_of_encode {kind : Dfa.MatchKind} {limit : Nat} {d : Dfa} {table table' : Table}
    {narrow narrow' : Bool} (hn : Nfa.Neat (build p).Same n)
    (hd : Dfa.ofNfa n (build p) direction kind limit = .ok d)
    (h : (t.minimized d).encode narrow = .ok table)
    (h' : (t'.minimized d).encode narrow' = .ok table') : table.Alike table' := by
  obtain ⟨hagree, hreading⟩ := encode_minimized_agree hn hd h
  obtain ⟨hagree', hreading'⟩ := encode_minimized_agree hn hd h'
  obtain ⟨_, _, hdead, hsize, _⟩ := Dfa.ofNfa_agree (fits_of_neat hn kind) hd
  have hquiet : d.machine.Quiet (build p).size 0 := hsize ▸ hdead.quiet
  refine ⟨hreading.trans hreading'.symm, (build p).size, ?_, hagree.dead.quiet hquiet,
    hagree.symm.trans hagree'⟩
  rw [hreading]
  exact Dfa.reading_below (formed_build p) n kind

theorem compileTable_alike (hn : Nfa.Neat (build p).Same n) (hlimits : t.SameLimits t')
    (hlistings : Compile.SameListings dest t t') :
    Compile.Alike Table.Alike (compileTable dest t n (build p) direction)
      (compileTable dest t' n (build p) direction) := by
  unfold compileTable
  rw [hlimits.stateLimit]
  apply Compile.Alike.bind (Compile.Alike.lift _)
  rintro d _ ⟨rfl, hd⟩
  apply Compile.Alike.bind (Compile.listDfa_alike hlistings _ _)
  intro _ _ _
  apply Compile.Alike.bind (Compile.listDfa_alike hlistings _ _)
  intro _ _ _
  have hlimit := t'.stateLimit_le (build p).size
  obtain ⟨table, htable⟩ : ∃ table, (t.minimized d).encode t.narrowTable = .ok table :=
    exists_encode_minimized hn hd hlimit
  obtain ⟨table', htable'⟩ : ∃ table', (t'.minimized d).encode t'.narrowTable = .ok table' :=
    exists_encode_minimized hn hd hlimit
  exact Compile.Alike.lift_ok htable htable' (alike_of_encode hn hd htable htable')

theorem compileListing_alike (hlimits : t.SameLimits t')
    (hlistings : Compile.SameListings dest t t') :
    Compile.Alike Database.Alike (compileListing dest p longest t)
      (compileListing dest p longest t') := by
  unfold compileListing
  rw [hlimits.nfaStates]
  apply Compile.Alike.bind (Compile.Alike.lift _)
  intro _ _ _
  apply Compile.Alike.bind (Compile.Alike.lift _)
  rintro alpha _ ⟨rfl, halpha⟩
  obtain ⟨rfl, hranged⟩ := Alphabet.ofPattern_ok halpha
  apply Compile.Alike.bind (Compile.Alike.lift _)
  rintro n _ ⟨rfl, hn⟩
  obtain ⟨hneat, hback⟩ := neat_of_ofPattern hranged hn
  apply Compile.Alike.bind (Compile.listNfa_alike hlistings _)
  intro _ _ _
  apply Compile.Alike.bind (Compile.listNfa_alike hlistings _)
  intro _ _ _
  apply Compile.Alike.bind (compileTable_alike hneat hlimits hlistings)
  intro forward forward' hforward
  apply Compile.Alike.bind (compileTable_alike hback hlimits hlistings)
  intro reverse reverse' hreverse
  apply Compile.Alike.bind (Compile.listDatabase_alike hlistings _ _)
  intro _ _ _
  exact Compile.Alike.pure ⟨hforward, hreverse, rfl⟩

end Steps

/-! ## The law -/

/-- Under the same limits, and where no listing makes a difference, two compilations of a pattern
fail with the same error, or give databases with the same answers. Either may minimise or not, and
allow narrow tables or not. -/
theorem sameAnswers_of_sameLimits {p : Pattern} {t t' : Tuning} {dest : Destination}
    (hlimits : t.SameLimits t') (hlistings : Compile.SameListings dest t t') (longest : Bool) :
    (∃ e, (compileWithListings dest p longest t).1 = .error e ∧
      (compileWithListings dest p longest t').1 = .error e) ∨
      ∃ d d', (compileWithListings dest p longest t).1 = .ok d ∧
        (compileWithListings dest p longest t').1 = .ok d' ∧ d.SameAnswers d' := by
  have houtcome : SameOutcome Database.Alike (compileWithListings dest p longest t).1
      (compileWithListings dest p longest t').1 := compileListing_alike hlimits hlistings #[] #[]
  rcases houtcome with herror | ⟨d, d', hd, hd', halike⟩
  · exact Or.inl herror
  · exact Or.inr ⟨d, d', hd, hd', halike.sameAnswers⟩

/-- The default settings against raw automata in wide tables. -/
theorem sameAnswers_of_sameLimits_letters : ∃ d d', compile letters = .ok d ∧
    compile letters {} { minimize := false, narrowTable := false } = .ok d' ∧
      d.SameAnswers d' := by
  obtain ⟨d, hd⟩ := exists_compile_letters
  have hrun : (compileWithListings {} letters true {}).1 = .ok d := hd
  have hlimits : Tuning.SameLimits {} { minimize := false, narrowTable := false } :=
    ⟨rfl, rfl, rfl⟩
  rcases sameAnswers_of_sameLimits (p := letters) hlimits (Or.inr rfl) true with
    ⟨e, he, _⟩ | ⟨e, e', he, he', hsame⟩
  · rw [hrun] at he
    cases he
  · exact ⟨e, e', he, he', hsame⟩

end ByteRegex
