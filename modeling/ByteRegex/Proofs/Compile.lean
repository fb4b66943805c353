-- What a compilation leaves behind: two tables that accept where the threads
-- of the automaton of the pattern do, and where those of its reverse do.
import ByteRegex.Compile
import ByteRegex.Proofs.Alphabet
import ByteRegex.Proofs.Dfa.Exact
import ByteRegex.Proofs.Dfa.Minimize
import ByteRegex.Proofs.Nfa.Language
import ByteRegex.Proofs.Table.Valid

namespace ByteRegex

open Alphabet (build Same)

/-! ## Tables -/

/-- A scan over the table accepts just where the threads of a construction do, and it can stop at
the dead state. -/
structure Table.Follows (t : Table) (c : Dfa.Subset) : Prop where
  quiet : ∃ k, t.reading.Below k ∧ t.machine.Quiet k 0
  accepts : ∀ {data : Bytes} {start i : Nat}, start ≤ i → i ≤ data.size →
    (t.machine.AcceptsAt t.reading data start i ↔ c.Accepts data start [c.nfa.floating] i)

namespace Dfa

/-- Minimised or not, an automaton accepts behind the same words. -/
theorem minimized_agree {d : Dfa} (tuning : Tuning) (hd : d.Closed) (hdead : d.Dead) :
    Machine.Agree d.alphaSize d.machine (tuning.minimized d).machine ∧
      (tuning.minimized d).Closed ∧ (tuning.minimized d).alphaSize = d.alphaSize ∧
        (tuning.minimized d).symbolClass = d.symbolClass := by
  rw [Tuning.minimized]
  split
  · exact ⟨minimize_agree hd hdead, minimize_closed hd hdead, rfl, rfl⟩
  · exact ⟨⟨fun _ _ => rfl, fun _ _ => rfl, fun _ _ => rfl⟩, hd, rfl, rfl⟩

theorem minimized_dead {d : Dfa} (tuning : Tuning) (hd : d.Closed) (hdead : d.Dead) :
    (tuning.minimized d).Dead := by
  unfold Tuning.minimized
  split
  · exact minimize_dead hd hdead
  · exact hdead

theorem minimized_direction (d : Dfa) (tuning : Tuning) :
    (tuning.minimized d).direction = d.direction := by
  unfold Tuning.minimized
  split <;> rfl

theorem minimized_size_le {d : Dfa} (tuning : Tuning) : (tuning.minimized d).size ≤ d.size := by
  unfold Tuning.minimized
  split
  · exact minimize_size_le
  · exact Nat.le_refl _

end Dfa

/-! ## The alphabet of a construction -/

variable {p : Pattern} {n : Nfa}

theorem formed_build (p : Pattern) : (build p).Formed := by
  obtain ⟨cuts, hcut⟩ := Alphabet.build_cutBy p
  exact ⟨hcut.byteClass_lt, hcut.byteClass_leader, hcut.start, hcut.stop⟩

/-- The alphabet of a pattern tells all that an automaton over its classes asks for. -/
theorem compatible_of_neat (hn : Nfa.Neat (build p).Same n) : (build p).Compatible n where
  leads b b' hb u v := by
    rw [← Dfa.Subset.mem_byteTargets, ← Dfa.Subset.mem_byteTargets, hn.bytes u b b' hb]
  words := by
    intro hw
    have huses : ∃ k : Look, n.uses k = true ∧ (k == .wordEdge || k == .notWordEdge) = true := by
      rcases Bool.or_eq_true_iff.1 hw with h | h
      · exact ⟨_, h, rfl⟩
      · exact ⟨_, h, rfl⟩
    obtain ⟨k, hk, hword⟩ := huses
    rw [Nfa.uses, Array.any_eq_true] at hk
    obtain ⟨t, ht, hk⟩ := hk
    rw [Array.any_eq_true'] at hk
    obtain ⟨e, he, hk⟩ := hk
    refine hn.words t e ?_ ?_
    · rw [Nfa.state, Array.getD_eq_getD_getElem?, Array.getElem?_eq_getElem ht]
      exact Array.mem_toList_iff.2 he
    · cases e with
      | eps u => cases hk
      | bytes lo hi u => cases hk
      | look k' u =>
        rw [show k' = k from eq_of_beq hk]
        exact hword

theorem fits_of_neat (hn : Nfa.Neat (build p).Same n) (kind : Dfa.MatchKind) :
    (Dfa.Subset.ofNfa n (build p) kind).Fits :=
  Dfa.fits_of_compatible (formed_build p) (compatible_of_neat hn) kind

theorem sampled_of_neat (hn : Nfa.Neat (build p).Same n) (kind : Dfa.MatchKind) (data : Bytes) :
    (Dfa.Subset.ofNfa n (build p) kind).Sampled data :=
  fun _ _ s => hn.bytes s _ _ ((fits_of_neat hn kind).sample _)

/-- The table of the automaton of a direction agrees with that automaton, and a scan over it uses
the classes of the construction. -/
theorem encode_minimized_agree {kind : Dfa.MatchKind} {direction : Direction} {limit : Nat}
    {d : Dfa} {t : Table} {tuning : Tuning} {narrow : Bool} (hn : Nfa.Neat (build p).Same n)
    (hd : Dfa.ofNfa n (build p) direction kind limit = .ok d)
    (ht : (tuning.minimized d).encode narrow = .ok t) :
    Machine.Agree (build p).size d.machine t.machine ∧
      t.reading = (Dfa.Subset.ofNfa n (build p) kind).reading := by
  obtain ⟨cuts, hcut⟩ := Alphabet.build_cutBy p
  obtain ⟨_, hclosed, hdead, hsize, hsymbols⟩ := Dfa.ofNfa_agree (fits_of_neat hn kind) hd
  obtain ⟨hagree, hclosed', hsize', hsymbols'⟩ := Dfa.minimized_agree tuning hclosed hdead
  have hcount := hcut.byteClassCount_le
  have hencode := Dfa.encode_agree hclosed' ht
  have hsame := Dfa.reading_eq (formed_build p) n kind (hsymbols'.trans hsymbols)
  have hstart : (tuning.minimized d).startClass = (build p).byteClassCount :=
    congrArg Reading.start hsame
  have hstop : (tuning.minimized d).endClass = (build p).byteClassCount + 1 :=
    congrArg Reading.stop hsame
  rw [hsize', hsize] at hencode
  rw [hsize] at hagree
  refine ⟨hagree.trans hencode, ?_⟩
  rw [Dfa.encode_reading ht (by omega) (by omega), hsame]

/-- A table follows the construction that it comes from. -/
theorem follows_of_encode {kind : Dfa.MatchKind} {direction : Direction} {limit : Nat} {d : Dfa}
    {t : Table} {tuning : Tuning} {narrow : Bool} (hn : Nfa.Neat (build p).Same n)
    (hd : Dfa.ofNfa n (build p) direction kind limit = .ok d)
    (ht : (tuning.minimized d).encode narrow = .ok t) :
    t.Follows (Dfa.Subset.ofNfa n (build p) kind) := by
  have hfits := fits_of_neat hn kind
  obtain ⟨hagree, _, hdead, hsize, _⟩ := Dfa.ofNfa_agree hfits hd
  obtain ⟨htable, hreading⟩ := encode_minimized_agree hn hd ht
  have hbelow : t.reading.Below (build p).size :=
    hreading ▸ Dfa.reading_below (formed_build p) n kind
  have hall := hagree.trans htable
  have hquiet : d.machine.Quiet (build p).size 0 := hsize ▸ hdead.quiet
  refine ⟨⟨(build p).size, hbelow, htable.dead.quiet hquiet⟩, fun hi hi' => ?_⟩
  rw [← Dfa.Subset.acceptsAt_iff hfits (sampled_of_neat hn kind _) hi hi', hreading]
  exact (hall.acceptsAt (hreading ▸ hbelow)).symm

theorem Dfa.ofNfa_direction {alpha : Alphabet} {kind : Dfa.MatchKind} {direction : Direction}
    {limit : Nat} {d : Dfa} (h : Dfa.ofNfa n alpha direction kind limit = .ok d) :
    d.direction = direction := by
  obtain ⟨_, _, _, rfl⟩ := Dfa.ofNfa_ok h
  rfl

/-- The automaton of a direction is well-formed, minimised or not. -/
theorem minimized_wellFormed {kind : Dfa.MatchKind} {direction : Direction} {limit : Nat} {d : Dfa}
    (tuning : Tuning) (hn : Nfa.Neat (build p).Same n)
    (hd : Dfa.ofNfa n (build p) direction kind limit = .ok d) (hlimit : limit ≤ Dfa.maxStates) :
    (tuning.minimized d).WellFormed ∧ (tuning.minimized d).alphaSize ≤ symbolCount := by
  obtain ⟨cuts, hcut⟩ := Alphabet.build_cutBy p
  obtain ⟨_, hclosed, hdead, hsize, hsymbols⟩ := Dfa.ofNfa_agree (fits_of_neat hn kind) hd
  obtain ⟨_, hclosed', hsize', hsymbols'⟩ := Dfa.minimized_agree tuning hclosed hdead
  have hsame := Dfa.reading_eq (formed_build p) n kind (hsymbols'.trans hsymbols)
  have hcount := hcut.byteClassCount_le
  have hstates := Dfa.ofNfa_size_le hd
  have hmin := Dfa.minimized_size_le (d := d) tuning
  have hmost : Dfa.maxStates = 65535 := rfl
  have halpha : (tuning.minimized d).alphaSize = (build p).byteClassCount + 2 := by
    rw [hsize', hsize, (formed_build p).size_eq]
  have hbytes : (tuning.minimized d).byteClassCount = (build p).byteClassCount := by
    rw [Dfa.byteClassCount, halpha]
    rfl
  refine ⟨⟨hclosed', Dfa.minimized_dead tuning hclosed hdead, by omega, by omega, ?_, ?_, ?_⟩, ?_⟩
  · intro b
    rw [hbytes]
    have hclass : (tuning.minimized d).classOf b.toNat = (build p).byteClass b :=
      congrFun (congrArg Reading.ofByte hsame) b
    rw [hclass]
    exact (formed_build p).class_lt b
  · rw [hbytes]
    exact congrArg Reading.start hsame
  · rw [hbytes]
    exact congrArg Reading.stop hsame
  · rw [halpha]
    show _ ≤ 258
    omega

/-- A table holds the automaton that is built in a direction. -/
def Tuning.Encodes (tuning : Tuning) (p : Pattern) (n : Nfa) (direction : Direction) (t : Table) :
    Prop :=
  ∃ d, Dfa.ofNfa n (build p) direction direction.matchKind (tuning.stateLimit (build p).size)
      = .ok d ∧ (tuning.minimized d).encode tuning.narrowTable = .ok t

theorem Tuning.stateLimit_le (tuning : Tuning) (classes : Nat) :
    tuning.stateLimit classes ≤ Dfa.maxStates :=
  Nat.le_trans (Nat.min_le_left _ _) (Nat.min_le_right _ _)

/-- What is built passes all checks on a stored table. -/
theorem Tuning.Encodes.valid {tuning : Tuning} {direction : Direction} {t : Table}
    (h : tuning.Encodes p n direction t) (hn : Nfa.Neat (build p).Same n) : t.Valid direction := by
  obtain ⟨d, hd, ht⟩ := h
  obtain ⟨hwell, halpha⟩ := minimized_wellFormed tuning hn hd (tuning.stateLimit_le _)
  have hvalid := Dfa.encode_valid hwell halpha ht
  rwa [Dfa.minimized_direction, Dfa.ofNfa_direction hd] at hvalid

/-! ## The steps of a compilation -/

section Steps

variable {α β : Type} {s s' : Array ListingFile}

theorem Compile.bind_run (x : Compile α) (f : α → Compile β) (s : Array ListingFile) :
    (x >>= f).run s = match x.run s with
      | (.ok y, s1) => (f y).run s1
      | (.error e, s1) => (.error e, s1) := by
  rw [ExceptT.run_bind]
  simp only [bind, StateT.bind]
  rcases x.run s with ⟨r, s1⟩
  cases r with
  | error e => rfl
  | ok y => rfl

theorem Compile.bind_ok {x : Compile α} {f : α → Compile β} {r : β}
    (h : (x >>= f).run s = (.ok r, s')) :
    ∃ y s1, x.run s = (.ok y, s1) ∧ (f y).run s1 = (.ok r, s') := by
  rw [Compile.bind_run] at h
  split at h
  · exact ⟨_, _, ‹_›, h⟩
  · cases h

theorem Compile.lift_ok {x : Except Error α} {r : α}
    (h : (liftM x : Compile α).run s = (.ok r, s')) : x = .ok r := by
  cases x with
  | error e => cases h
  | ok y => exact congrArg Except.ok (Except.ok.inj (Prod.mk.inj h).1)

theorem compileTable_ok {dest : Destination} {tuning : Tuning} {direction : Direction} {t : Table}
    (h : (compileTable dest tuning n (build p) direction).run s = (.ok t, s')) :
    tuning.Encodes p n direction t := by
  obtain ⟨d, s1, h1, h⟩ := Compile.bind_ok h
  obtain ⟨_, s2, _, h⟩ := Compile.bind_ok h
  obtain ⟨_, s3, _, h⟩ := Compile.bind_ok h
  exact ⟨d, Compile.lift_ok h1, Compile.lift_ok h⟩

end Steps

/-- What a compilation of a pattern has built on the way to a database, with at most `limit` states
of the first automaton. -/
structure Compiled (p : Pattern) (limit : Nat) (n : Nfa) (d : Database) : Prop where
  ranged : p.Ranged
  built : Nfa.ofPattern p (build p) limit = .ok n
  forward : d.forward.Follows (Dfa.Subset.ofNfa n (build p) .leftmostFirst)
  reverse : d.reverse.Follows (Dfa.Subset.ofNfa n.reverse (build p) .all)

theorem Compiled.closed {limit : Nat} {d : Database} (h : Compiled p limit n d) :
    ∃ out goal skipping, Nfa.Closed (build p).Same n p out goal skipping :=
  Nfa.ofPattern_closed (Alphabet.build_fits h.ranged) h.ranged h.built

/-- The automaton of a pattern and its reverse are neat. -/
theorem neat_of_ofPattern {limit : Nat} (hranged : p.Ranged)
    (hn : Nfa.ofPattern p (build p) limit = .ok n) :
    Nfa.Neat (build p).Same n ∧ Nfa.Neat (build p).Same n.reverse := by
  obtain ⟨out, goal, skipping, hclosed⟩ :=
    Nfa.ofPattern_closed (Alphabet.build_fits hranged) hranged hn
  exact ⟨hclosed.neat, hclosed.neat.reverse hclosed.starts.1⟩

/-- What a compilation puts together: the automaton of the pattern, and the tables of both
directions. -/
structure Assembled (p : Pattern) (tuning : Tuning) (n : Nfa) (d : Database) : Prop where
  ranged : p.Ranged
  built : Nfa.ofPattern p (build p) tuning.maxNfaStates = .ok n
  forward : tuning.Encodes p n .forward d.forward
  reverse : tuning.Encodes p n.reverse .reverse d.reverse

namespace Assembled

variable {tuning : Tuning} {d : Database}

theorem neat (h : Assembled p tuning n d) :
    Nfa.Neat (build p).Same n ∧ Nfa.Neat (build p).Same n.reverse :=
  neat_of_ofPattern h.ranged h.built

theorem compiled (h : Assembled p tuning n d) : Compiled p tuning.maxNfaStates n d := by
  obtain ⟨hn, hback⟩ := h.neat
  obtain ⟨_, hf, hft⟩ := h.forward
  obtain ⟨_, hr, hrt⟩ := h.reverse
  exact ⟨h.ranged, h.built, follows_of_encode hn hf hft, follows_of_encode hback hr hrt⟩

end Assembled

theorem Alphabet.ofPattern_ok {alpha : Alphabet} (h : Alphabet.ofPattern p = .ok alpha) :
    alpha = build p ∧ p.Ranged := by
  unfold Alphabet.ofPattern at h
  split at h
  · cases h
  · rename_i hcheck
    exact ⟨(Except.ok.inj h).symm, Pattern.ranged_of_checkRanges hcheck⟩

theorem compileListing_ok {dest : Destination} {longest : Bool} {tuning : Tuning} {d : Database}
    {s s' : Array ListingFile} (h : (compileListing dest p longest tuning).run s = (.ok d, s')) :
    d.longest = longest ∧ ∃ n, Assembled p tuning n d := by
  obtain ⟨_, s1, h1, h⟩ := Compile.bind_ok h
  obtain ⟨alpha, s2, h2, h⟩ := Compile.bind_ok h
  obtain ⟨n, s3, h3, h⟩ := Compile.bind_ok h
  obtain ⟨_, s4, _, h⟩ := Compile.bind_ok h
  obtain ⟨_, s5, _, h⟩ := Compile.bind_ok h
  obtain ⟨forward, s6, h6, h⟩ := Compile.bind_ok h
  obtain ⟨reverse, s7, h7, h⟩ := Compile.bind_ok h
  obtain ⟨_, s8, _, h⟩ := Compile.bind_ok h
  obtain rfl := Except.ok.inj (Prod.mk.inj h).1
  obtain ⟨rfl, hranged⟩ := Alphabet.ofPattern_ok (Compile.lift_ok h2)
  exact ⟨rfl, n, hranged, Compile.lift_ok h3, compileTable_ok h6, compileTable_ok h7⟩

theorem compileWithListings_ok {dest : Destination} {longest : Bool} {tuning : Tuning}
    {d : Database} (h : (compileWithListings dest p longest tuning).1 = .ok d) :
    d.longest = longest ∧ ∃ n, Assembled p tuning n d := by
  unfold compileWithListings at h
  generalize hr : ExceptT.run (compileListing dest p longest tuning) #[] = r at h
  obtain ⟨result, files⟩ := r
  obtain rfl : result = .ok d := h
  exact compileListing_ok hr

/-- A compilation that succeeds has built the automata of the pattern. -/
theorem compile_ok {options : Options} {tuning : Tuning} {d : Database}
    (h : compile p options tuning = .ok d) :
    d.longest = options.longest ∧ ∃ n, Compiled p tuning.maxNfaStates n d := by
  rw [compile, compileTuned] at h
  obtain ⟨hlongest, n, hn⟩ := compileWithListings_ok h
  exact ⟨hlongest, n, hn.compiled⟩

/-! ## Compilations that succeed -/

/-- What has been built as a deterministic automaton can be encoded. -/
theorem exists_encode_minimized {kind : Dfa.MatchKind} {direction : Direction} {limit : Nat}
    {d : Dfa} {tuning : Tuning} {narrow : Bool} (hn : Nfa.Neat (build p).Same n)
    (hd : Dfa.ofNfa n (build p) direction kind limit = .ok d) (hlimit : limit ≤ Dfa.maxStates) :
    ∃ t, (tuning.minimized d).encode narrow = .ok t := by
  obtain ⟨hwell, halpha⟩ := minimized_wellFormed tuning hn hd hlimit
  have hsymbols : symbolCount = 258 := rfl
  have heq := hwell.alphaSize_eq
  refine Dfa.exists_encode (Nat.lt_succ_of_le hwell.size_le) halpha fun c hc => ?_
  have hlt := hwell.class_lt (UInt8.ofNat c)
  rw [UInt8.toNat_ofNat', Nat.mod_eq_of_lt hc] at hlt
  omega

section Runs

variable {α β : Type} {s s1 : Array ListingFile}

theorem Compile.run_bind {x : Compile α} {f : α → Compile β} {y : α}
    (h : x.run s = (.ok y, s1)) : (x >>= f).run s = (f y).run s1 := by
  rw [Compile.bind_run, h]

theorem Compile.run_lift {x : Except Error α} {y : α} (h : x = .ok y) :
    (liftM x : Compile α).run s = (.ok y, s) := by rw [h]; rfl

theorem run_compileTable {dest : Destination} {tuning : Tuning} {alpha : Alphabet}
    {direction : Direction} {d : Dfa} {t : Table} (hl : tuning.listings = ⟨0⟩)
    (hd : Dfa.ofNfa n alpha direction direction.matchKind (tuning.stateLimit alpha.size) = .ok d)
    (ht : (tuning.minimized d).encode tuning.narrowTable = .ok t) :
    (compileTable dest tuning n alpha direction).run s = (.ok t, s) := by
  have hlist : ∀ name d, (Compile.listDfa dest tuning name d).run s = (.ok (), s) := by
    intro name d
    rw [Compile.listDfa, hl]
    rfl
  rw [compileTable, Compile.run_bind (Compile.run_lift hd), Compile.run_bind (hlist _ _),
    Compile.run_bind (hlist _ _), Compile.run_lift ht]

theorem run_compileListing {dest : Destination} {tuning : Tuning} {longest : Bool}
    {alpha : Alphabet} {forward reverse : Dfa} {t t' : Table} (hl : tuning.listings = ⟨0⟩)
    (hsupported : p.checkSupported = .ok ()) (halpha : Alphabet.ofPattern p = .ok alpha)
    (hn : Nfa.ofPattern p alpha tuning.maxNfaStates = .ok n)
    (hf : Dfa.ofNfa n alpha .forward .leftmostFirst (tuning.stateLimit alpha.size) = .ok forward)
    (ht : (tuning.minimized forward).encode tuning.narrowTable = .ok t)
    (hr : Dfa.ofNfa n.reverse alpha .reverse .all (tuning.stateLimit alpha.size) = .ok reverse)
    (ht' : (tuning.minimized reverse).encode tuning.narrowTable = .ok t') :
    (compileListing dest p longest tuning).run s = (.ok ⟨t, t', longest⟩, s) := by
  have hlist : ∀ name n, (Compile.listNfa dest tuning name n).run s = (.ok (), s) := by
    intro name n
    rw [Compile.listNfa, hl]
    rfl
  have hdatabase : (Compile.listDatabase dest tuning ⟨t, t', longest⟩).run s = (.ok (), s) := by
    rw [Compile.listDatabase, hl]
    rfl
  rw [compileListing, Compile.run_bind (Compile.run_lift hsupported),
    Compile.run_bind (Compile.run_lift halpha), Compile.run_bind (Compile.run_lift hn),
    Compile.run_bind (hlist _ _), Compile.run_bind (hlist _ _),
    Compile.run_bind (run_compileTable hl hf ht), Compile.run_bind (run_compileTable hl hr ht')]
  dsimp only
  rw [Compile.run_bind hdatabase]
  rfl

end Runs

/-- The most states of each deterministic automaton in a compilation. -/
def dfaLimit (p : Pattern) (options : Options) (tuning : Tuning) : Nat :=
  { tuning with maxDfaStates := options.maxStates }.stateLimit (build p).size

/-- The limit is not below a number of states that is small enough for all classes of symbols. -/
theorem le_dfaLimit {options : Options} {tuning : Tuning} {k : Nat}
    (hstates : k ≤ options.maxStates)
    (hmost : k ≤ Dfa.maxStates) (htransitions : k * 258 ≤ tuning.maxTransitions) :
    k ≤ dfaLimit p options tuning := by
  obtain ⟨cuts, hcut⟩ := Alphabet.build_cutBy p
  have hsize : (build p).size = (build p).byteClassCount + 2 := by
    rw [hcut.byteClassCount, hcut.size, specialCount]
  have hcount := hcut.byteClassCount_le
  have hrow : k * (build p).size ≤ k * 258 := Nat.mul_le_mul_left k (by omega)
  rw [dfaLimit, Tuning.stateLimit, Dfa.stateLimit, Nat.le_min, Nat.le_min]
  refine ⟨⟨hstates, hmost⟩, (Nat.le_div_iff_mul_le (by omega)).2 ?_⟩
  exact Nat.le_trans hrow htransitions

/-- A compilation succeeds if the limits allow for all arrangements of important states. -/
theorem exists_compile {options : Options} {tuning : Tuning}
    (hsupported : p.checkSupported = .ok ()) (hranges : p.checkRanges = .ok ())
    (hn : Nfa.ofPattern p (build p) tuning.maxNfaStates = .ok n)
    (hforward : 8 * (arrangements n.importants).length ≤ dfaLimit p options tuning)
    (hreverse : 8 * (arrangements n.landings).length ≤ dfaLimit p options tuning) :
    ∃ d, compile p options tuning = .ok d := by
  have hranged := Pattern.ranged_of_checkRanges hranges
  obtain ⟨out, goal, skipping, hclosed⟩ :=
    Nfa.ofPattern_closed (Alphabet.build_fits hranged) hranged hn
  have hneat := hclosed.neat
  have ha := hclosed.starts.1
  obtain ⟨forward, hf⟩ : ∃ d, Dfa.ofNfa n (build p) .forward .leftmostFirst
      (dfaLimit p options tuning) = .ok d :=
    Dfa.exists_ofNfa_of_important (fun _ => Nfa.mem_importants) hforward
  obtain ⟨reverse, hr⟩ : ∃ d, Dfa.ofNfa n.reverse (build p) .reverse .all
      (dfaLimit p options tuning) = .ok d :=
    Dfa.exists_ofNfa_of_important (fun _ => Nfa.mem_landings hneat ha) hreverse
  have hlimit : dfaLimit p options tuning ≤ Dfa.maxStates := Tuning.stateLimit_le _ _
  obtain ⟨t, ht⟩ : ∃ t, (tuning.minimized forward).encode tuning.narrowTable = .ok t :=
    exists_encode_minimized hneat hf hlimit
  obtain ⟨t', ht'⟩ : ∃ t, (tuning.minimized reverse).encode tuning.narrowTable = .ok t :=
    exists_encode_minimized (hneat.reverse ha) hr hlimit
  have halpha : Alphabet.ofPattern p = .ok (build p) := by rw [Alphabet.ofPattern, hranges]
  have hrun : (compileListing {} p options.longest
      { tuning with maxDfaStates := options.maxStates, listings := ⟨0⟩ }).run #[] =
        (.ok ⟨t, t', options.longest⟩, #[]) :=
    run_compileListing rfl hsupported halpha hn hf ht hr ht'
  exact ⟨⟨t, t', options.longest⟩, by rw [compile, compileTuned, compileWithListings, hrun]⟩

/-- With the usual limits a compilation succeeds if few arrangements of important states are
possible. -/
theorem exists_compile_of_few (hsupported : p.checkSupported = .ok ())
    (hranges : p.checkRanges = .ok ())
    (hn : Nfa.ofPattern p (build p) ({} : Tuning).maxNfaStates = .ok n)
    (hforward : (n.importants.sublists.map fun k => k.length.factorial).sum ≤ 100)
    (hreverse : (n.landings.sublists.map fun k => k.length.factorial).sum ≤ 100) :
    ∃ d, compile p {} {} = .ok d := by
  have hlimit : 800 ≤ dfaLimit p {} {} := le_dfaLimit (by decide) (by decide) (by decide)
  rw [← length_arrangements] at hforward hreverse
  exact exists_compile hsupported hranges hn (by omega) (by omega)

/-! ## Repeats of a letter -/

/-- The pattern `a*`. -/
def letters : Pattern := .rep none letter 0 none true

/-- The pattern `(a*?)*`. -/
def nestedLetters : Pattern := .rep none (.rep none letter 0 none false) 0 none true

def lettersNfa : Nfa where
  states := #[{ edges := #[.bytes 97 97 1] }, { edges := #[.eps 2] },
    { edges := #[.eps 0, .eps 3] }, { edges := #[.eps 4] }, { accept := some 0 },
    { edges := #[.eps 2, .eps 6] }, { edges := #[.bytes 0x00 0xff 5] }]
  anchored := 2
  floating := 5

def nestedLettersNfa : Nfa where
  states := #[{ edges := #[.bytes 97 97 1] }, { edges := #[.eps 2] },
    { edges := #[.eps 3, .eps 0] }, { edges := #[.eps 4] }, { edges := #[.eps 2, .eps 5] },
    { edges := #[.eps 6] }, { accept := some 0 }, { edges := #[.eps 4, .eps 8] },
    { edges := #[.bytes 0x00 0xff 7] }]
  anchored := 4
  floating := 7

theorem ofPattern_letters (alpha : Alphabet) :
    Nfa.ofPattern letters alpha ({} : Tuning).maxNfaStates = .ok lettersNfa := by
  rw [Nfa.ofPattern_eq, letters, Nfa.fragment, fragment_letter]
  rfl

theorem ofPattern_nestedLetters (alpha : Alphabet) :
    Nfa.ofPattern nestedLetters alpha ({} : Tuning).maxNfaStates = .ok nestedLettersNfa := by
  rw [Nfa.ofPattern_eq, nestedLetters, Nfa.fragment, Nfa.fragment, fragment_letter]
  rfl

/-- Both automata have three important states, and so have their reverses. -/
theorem exists_compile_letters : ∃ d, compile letters {} {} = .ok d :=
  exists_compile_of_few rfl rfl (ofPattern_letters _) (by decide +kernel) (by decide +kernel)

theorem exists_compile_nestedLetters : ∃ d, compile nestedLetters {} {} = .ok d :=
  exists_compile_of_few rfl rfl (ofPattern_nestedLetters _) (by decide +kernel) (by decide +kernel)

end ByteRegex
