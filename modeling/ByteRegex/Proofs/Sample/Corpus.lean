-- Texts made for a pattern match it. Each step of the walk over the tree adds
-- bytes that the node matches wherever they stand, whatever is drawn, or fails
-- as there is nothing to draw from.
import ByteRegex.Proofs.Coverage
import ByteRegex.Proofs.Draws
import ByteRegex.Proofs.Nfa.Acyclic
import ByteRegex.Proofs.Nullable
import ByteRegex.Proofs.Outcome
import ByteRegex.Proofs.Pattern.Branches
import ByteRegex.Sample.Corpus

namespace ByteRegex.Sample

variable {α β : Type} {p : Progress} {Q : α → Progress → Prop}

/-! ## Steps -/

/-- Whatever a step draws from `p` on, it fails as there is nothing to draw from, or ends as `Q`
says. -/
def Gives (x : Make α) (p : Progress) (Q : α → Progress → Prop) : Prop :=
  match x p with
  | (.ok a, q) => Q a q
  | (.error f, _) => f = .noCodePoint ∨ f = .noByte

theorem bind_apply (x : Make α) (f : α → Make β) (p : Progress) :
    (x >>= f) p = match x p with
      | (.ok a, q) => f a q
      | (.error e, q) => (.error e, q) := by
  show (x >>= f).run p = _
  rw [ExceptT.run_bind]
  simp only [Bind.bind, StateT.bind]
  show (match x p with | (a, s) => _) = _
  rcases x p with ⟨_ | _, _⟩ <;> rfl

theorem Gives.bind {x : Make α} {f : α → Make β} {Q : β → Progress → Prop}
    (h : Gives x p fun a q => Gives (f a) q Q) : Gives (x >>= f) p Q := by
  unfold Gives at h ⊢
  rw [bind_apply]
  rcases hx : x p with ⟨e | a, q⟩
  all_goals
    rw [hx] at h
    exact h

theorem Gives.mono {x : Make α} {Q' : α → Progress → Prop} (h : Gives x p Q)
    (hQ : ∀ a q, Q a q → Q' a q) : Gives x p Q' := by
  unfold Gives at h ⊢
  split at h
  · exact hQ _ _ h
  · exact h

/-- The step adds bytes for which `P` holds, whatever is drawn. -/
def Writes (x : Make Unit) (P : List UInt8 → Prop) : Prop :=
  ∀ p, Gives x p fun _ q => ∃ bs, q.text.toList = p.text.toList ++ bs ∧ P bs

namespace Writes

variable {x y : Make Unit} {P P' : List UInt8 → Prop}

theorem mono (h : Writes x P) (hP : ∀ bs, P bs → P' bs) : Writes x P' := fun p =>
  (h p).mono fun _ _ ⟨bs, htext, hbs⟩ => ⟨bs, htext, hP bs hbs⟩

theorem nothing : Writes (pure ()) (· = []) := fun _ => ⟨[], (List.append_nil _).symm, rfl⟩

theorem emit (bs : List UInt8) : Writes (emit bs) (· = bs) := fun p => ⟨bs, by simp, rfl⟩

theorem refuse {f : Failure} (hf : f = .noCodePoint ∨ f = .noByte) : Writes (throw f) P :=
  fun _ => hf

theorem choose {d : Draw α} {f : α → Make Unit} (h : ∀ draws, Writes (f (d draws).1) P) :
    Writes (choose d >>= f) P := fun p =>
  Gives.bind (h p.draws { p with draws := (d p.draws).2 })

theorem append (hx : Writes x P) (hy : Writes y P') :
    Writes (x >>= fun _ => y) fun bs => ∃ b b', bs = b ++ b' ∧ P b ∧ P' b' := by
  intro p
  refine Gives.bind
    ((hx p).mono fun _ q ⟨b, htext, hb⟩ => (hy q).mono fun _ r ⟨b', htext', hb'⟩ => ?_)
  exact ⟨b ++ b', by rw [htext', htext, List.append_assoc], b, b', rfl, hb, hb'⟩

end Writes

/-! ## Nodes -/

/-- Wherever the bytes stand, they match the pattern. -/
def Fits (p : Pattern) (bs : List UInt8) : Prop :=
  ∀ data i, Utf8.StandsAt data i bs → Matches data p i (i + bs.length)

section Nodes

variable {st : Settings}

/-- With 100 percent for matches each roll asks for what is right. -/
theorem writes_rollOr {mix : Mix} (hmix : mix.matching = 100) {right : Make Unit}
    {P : List UInt8 → Prop} (h : Writes right P) : Writes (rollOr mix right) P := by
  have hroll : mix.roll = pure .matching := if_pos hmix
  unfold rollOr
  rw [hroll]
  exact Writes.choose fun _ => h

/-- Without the surrogates, the set of a class node holds what the node allows in a text. -/
theorem charSet_removeSurrogates {ranges : List (Nat × Nat)}
    (hr : Pattern.charRangeFault? ranges = none) (negated : Bool) :
    let s := (Pattern.charSet ranges negated).removeRange firstSurrogate lastSurrogate
    CodePointSet.Canonical s.intervals ∧
      ∀ c, s.test c = true ↔ Utf8.IsScalar c ∧ Matcher.charAllowed ranges negated c = true := by
  obtain ⟨hcanonical, hmem⟩ := Pattern.charSet_spec hr negated
  have hordered : firstSurrogate ≤ lastSurrogate := by decide
  refine ⟨CodePointSet.canonical_removeFrom hordered hcanonical, fun c => ?_⟩
  rw [CodePointSet.test_iff, CodePointSet.removeRange,
    CodePointSet.covers_removeFrom hordered hcanonical, ← CodePointSet.test_iff, hmem]
  unfold Utf8.IsScalar isSurrogate
  grind

theorem writes_emitChar {loc : Location} {ranges : List (Nat × Nat)} {negated : Bool}
    (hr : Pattern.charRangeFault? ranges = none) :
    Writes (emitChar loc ranges negated) (Fits (.chars loc ranges negated)) := by
  have hset : Pattern.charSet? loc ranges negated = .ok (Pattern.charSet ranges negated) := by
    rw [Pattern.charSet?, hr]
  obtain ⟨hcanonical, hmem⟩ := charSet_removeSurrogates hr negated
  unfold emitChar
  rw [hset]
  dsimp only
  split
  next => exact Writes.refuse (Or.inl rfl)
  next hne =>
    have hpos := CodePointSet.count_pos hcanonical (by simpa using hne)
    refine Writes.choose fun draws => ?_
    obtain ⟨c, hc, htest⟩ := CodePointSet.exists_nth? (Draws.between_lt hpos draws)
    obtain ⟨hscalar, hallowed⟩ := (hmem c).1 htest
    rw [hc, Option.getD_some]
    refine (Writes.emit _).mono ?_
    rintro _ rfl data i hstands
    exact ⟨c, hscalar, hallowed, hstands, rfl⟩

theorem writes_emitByte {loc : Location} {ranges : List (UInt8 × UInt8)}
    (hr : Pattern.byteRangeFault? ranges = none) :
    Writes (emitByte loc ranges) (Fits (.bytes loc ranges)) := by
  have hset : Pattern.byteSet? loc ranges = .ok (Pattern.byteSet ranges) := by
    rw [Pattern.byteSet?, hr]
  unfold emitByte
  rw [hset]
  dsimp only
  split
  next => exact Writes.refuse (Or.inr rfl)
  next hne =>
    have hpos := List.length_pos_iff.2 (ByteSet.toList_ne_nil (by simpa using hne))
    refine Writes.choose fun draws => ?_
    have hrank := Draws.between_lt hpos draws
    have hbyte := List.getElem_mem hrank
    rw [ByteSet.mem_toList, Pattern.test_byteSet] at hbyte
    refine (Writes.emit _).mono ?_
    rintro _ rfl data i hstands
    rw [ByteSet.count, List.getD_eq_getElem _ _ hrank] at hstands
    exact ⟨_, (Utf8.standsAt_cons.1 hstands).1, hbyte, rfl⟩

theorem writes_makeAll {ps : List Pattern} (h : ∀ p ∈ ps, Writes (make st p) (Fits p)) :
    Writes (makeAll st ps) fun bs =>
      ∀ data i, Utf8.StandsAt data i bs → MatchesSeq data ps i (i + bs.length) := by
  induction ps with
  | nil =>
    refine Writes.nothing.mono ?_
    rintro _ rfl data i _
    rfl
  | cons p ps ih =>
    refine ((h p List.mem_cons_self).append
      (ih fun q hq => h q (List.mem_cons_of_mem p hq))).mono ?_
    rintro _ ⟨b, b', rfl, hb, hb'⟩ data i hstands
    obtain ⟨hfirst, hrest⟩ := Utf8.standsAt_append.1 hstands
    rw [List.length_append, ← Nat.add_assoc]
    exact ⟨_, hb data i hfirst, hb' data _ hrest⟩

theorem writes_makeNth {ps : List Pattern} (h : ∀ p ∈ ps, Writes (make st p) (Fits p)) {i : Nat}
    (hi : i < ps.length) : Writes (makeNth st ps i) fun bs => ∃ p ∈ ps, Fits p bs := by
  induction ps generalizing i with
  | nil => exact absurd hi (Nat.not_lt_zero i)
  | cons p ps ih =>
    cases i with
    | zero => exact (h p List.mem_cons_self).mono fun bs hbs => ⟨p, List.mem_cons_self, hbs⟩
    | succ i =>
      refine (ih (fun q hq => h q (List.mem_cons_of_mem p hq)) (Nat.lt_of_succ_lt_succ hi)).mono ?_
      rintro bs ⟨q, hq, hbs⟩
      exact ⟨q, List.mem_cons_of_mem p hq, hbs⟩

theorem writes_times {step : Make Unit} {body : Pattern} (h : Writes step (Fits body)) (n : Nat) :
    Writes (times step n) fun bs =>
      ∀ data i, Utf8.StandsAt data i bs → Passes (Matches data body) n i (i + bs.length) := by
  induction n with
  | zero =>
    refine Writes.nothing.mono ?_
    rintro _ rfl data i _
    rfl
  | succ n ih =>
    refine (h.append ih).mono ?_
    rintro _ ⟨b, b', rfl, hb, hb'⟩ data i hstands
    obtain ⟨hfirst, hrest⟩ := Utf8.standsAt_append.1 hstands
    rw [List.length_append, ← Nat.add_assoc]
    exact ⟨_, hb data i hfirst, hb' data _ hrest⟩

/-- The number of passes is one that the repeat allows. An unbounded repeat makes up to three more
than it must. -/
theorem gives_passes {cycles : DrawRange} (hcycles : cycles = ⟨0, 3⟩) {min : Nat} {max : Option Nat}
    (hmax : ∀ m, max = some m → min ≤ m) (hmin : max = none → min + 3 ≤ maxWord) (p : Progress) :
    Gives (passes cycles min max) p fun n q =>
      q.text = p.text ∧ min ≤ n ∧ ∀ m, max = some m → n ≤ m := by
  subst hcycles
  cases max with
  | none =>
    have hmin := hmin rfl
    unfold passes
    dsimp only
    refine Gives.bind ?_
    show Gives (if p.text.size < longText then _ else _) p _
    split
    next =>
      obtain ⟨_, hextra⟩ := Draws.between_bounds (Nat.zero_le 3) p.draws
      have hmod := Nat.mod_eq_of_lt
        (show min + (Draws.between 0 3 p.draws).1 < maxWord + 1 by omega)
      refine ⟨rfl, ?_, fun m hm => nomatch hm⟩
      show min ≤ (min + (Draws.between 0 3 p.draws).1) % (maxWord + 1)
      omega
    next => exact ⟨rfl, Nat.le_refl min, fun m hm => nomatch hm⟩
  | some m =>
    have hle := hmax m rfl
    obtain ⟨h1, h2⟩ := Draws.between_bounds hle p.draws
    unfold passes
    dsimp only
    rw [if_pos hle]
    refine ⟨rfl, h1, fun m' hm' => ?_⟩
    obtain rfl := Option.some.inj hm'
    exact h2

/-- Nothing about the node itself keeps the bytes that are made for it from matching, where the
automaton has at most `limit` states. -/
structure Makeable (limit : Nat) (n : Pattern) : Prop where
  supported : n.construct? = none
  lookFree : n.isLook = false
  ranged : n.rangeFault? = none
  branches : n.HasBranches
  within : Nfa.MinWithin limit n

/-- No roll asks for a wrong byte, nothing is put around the text, and the passes are the usual
ones. -/
structure Settings.Faithful (st : Settings) : Prop where
  matching : st.mix.matching = 100
  leading : st.leading = ⟨0, 0⟩
  trailing : st.trailing = ⟨0, 0⟩
  cycles : st.cycles = ⟨0, 3⟩

variable {limit : Nat} {p : Pattern}

/-- Whatever is drawn, the bytes that are made for a pattern match it. -/
theorem writes_make (hst : st.Faithful) (hlimit : limit + 3 ≤ maxWord)
    (hp : p.AllNodes (Makeable limit)) : Writes (make st p) (Fits p) := by
  induction p using Pattern.induction with
  | chars loc ranges negated => exact writes_rollOr hst.matching (writes_emitChar hp.self.ranged)
  | bytes loc ranges => exact writes_rollOr hst.matching (writes_emitByte hp.self.ranged)
  | seq loc parts ih =>
    have hparts := (Pattern.allNodes_seq.1 hp).2
    exact writes_makeAll fun q hq => ih q hq (hparts q hq)
  | alt loc parts ih =>
    obtain ⟨hself, hparts⟩ := Pattern.allNodes_alt.1 hp
    have hne : parts ≠ [] := hself.branches
    have hpos := List.length_pos_iff.2 hne
    rw [make, if_neg (by simpa using hne)]
    refine Writes.choose fun draws => ?_
    refine
      (writes_makeNth (fun q hq => ih q hq (hparts q hq)) (Draws.between_lt hpos draws)).mono ?_
    rintro bs ⟨q, hq, hfits⟩ data i hstands
    exact matchesAlt_iff.2 ⟨q, hq, hfits data i hstands⟩
  | rep loc body min max greedy ih =>
    obtain ⟨hself, hbody⟩ := Pattern.allNodes_rep.1 hp
    have hbounded := Pattern.Ranged.bounded fun n hn => (hp n hn).ranged
    have hmax : ∀ m, max = some m → min ≤ m := by
      rintro m rfl
      exact hbounded.self
    have hmin : max = none → min + 3 ≤ maxWord := by
      rintro rfl
      exact Nat.le_trans (Nat.add_le_add_right hself.within 3) hlimit
    rw [make]
    intro s
    refine Gives.bind ((gives_passes hst.cycles hmax hmin s).mono ?_)
    rintro n q ⟨htext, hle, hge⟩
    rw [← htext]
    refine (writes_times (ih hbody) n q).mono ?_
    rintro _ r ⟨bs, hbs, hpasses⟩
    exact ⟨bs, hbs, fun data i hstands => ⟨n, hle, hge, hpasses data i hstands⟩⟩
  | anchor loc atEnd => cases hp.self.lookFree
  | wordEdge loc negated => cases hp.self.lookFree
  | empty loc =>
    refine Writes.nothing.mono ?_
    rintro _ rfl data i _
    rfl
  | backref loc group => cases hp.self.supported
  | around loc body behind negated => cases hp.self.supported

theorem writes_emitNoise : Writes (emitNoise ⟨0, 0⟩) (· = []) :=
  Writes.choose fun _ => Writes.choose fun _ => Writes.emit []

theorem writes_makeText (hst : st.Faithful) (hlimit : limit + 3 ≤ maxWord)
    (hp : p.AllNodes (Makeable limit)) : Writes (makeText st p) (Fits p) := by
  rw [makeText, hst.leading, hst.trailing]
  refine (writes_emitNoise.append ((writes_make hst hlimit hp).append writes_emitNoise)).mono ?_
  rintro _ ⟨_, _, rfl, rfl, bs, _, rfl, hfits, rfl⟩
  rwa [List.nil_append, List.append_nil]

end Nodes

/-! ## Many texts -/

/-- The texts are different, there are no more than asked for, and each matches from end to end. If
there is a failure, some set had no member to draw. -/
structure Corpus.Good (limit : Nat) (p : Pattern) (c : Corpus) : Prop where
  size_le : c.texts.size ≤ limit
  nodup : c.texts.toList.Nodup
  whole : ∀ t ∈ c.texts, Matches t p 0 t.size
  failure : ∀ f, c.failure = some f → f = .noCodePoint ∨ f = .noByte

theorem Corpus.Good.push {limit : Nat} {p : Pattern} {c : Corpus} (h : c.Good limit p)
    (hroom : c.texts.size < limit) {t : Bytes} (ht : Matches t p 0 t.size)
    (hnew : c.texts.contains t = false) : ({ c with texts := c.texts.push t }).Good limit p where
  size_le := by
    rw [Array.size_push]
    exact hroom
  nodup := by
    rw [Array.toList_push]
    refine h.nodup.append (List.nodup_singleton t) ?_
    rw [List.disjoint_singleton, Array.mem_toList_iff]
    simpa using hnew
  whole t' ht' := by
    rcases Array.mem_push.1 ht' with ht' | rfl
    · exact h.whole t' ht'
    · exact ht
  failure := h.failure

theorem good_addTexts {st : Settings} {p : Pattern} (hmake : Writes (makeText st p) (Fits p))
    {n : Nat} {texts : Array Bytes} (h : (Corpus.mk texts none).Good st.limit p) (d : Draws) :
    (addTexts st p n texts d).1.Good st.limit p := by
  induction n generalizing texts d with
  | zero => exact h
  | succ n ih =>
    rw [addTexts]
    split
    next => exact h
    next hroom =>
      have hmade := hmake ⟨d, #[]⟩
      unfold Gives at hmade
      dsimp only
      split at hmade
      next made hrun =>
        rw [hrun]
        obtain ⟨bs, htext, hfits⟩ := hmade
        have htext : made.text.toList = bs := htext
        have hwhole := hfits made.text 0 (htext ▸ List.prefix_rfl)
        rw [Nat.zero_add, ← htext, Array.length_toList] at hwhole
        refine ih ?_ _
        split
        next => exact h
        next hnew => exact h.push (Nat.lt_of_not_le hroom) hwhole (Bool.eq_false_iff.2 hnew)
      next f made hrun =>
        rw [hrun]
        exact ⟨h.size_le, h.nodup, h.whole, fun f' hf' => Option.some.inj hf' ▸ hmade⟩

/-! ## The law -/

/-- A pattern that was read from a text and compiled, and has no looks, can be made. -/
theorem makeable_of_compile {text : List UInt8} {p : Pattern} {options : Options} {tuning : Tuning}
    {d : Database} (hparse : Pattern.parse text = .ok p) (hlooks : p.LookFree)
    (h : compile p options tuning = .ok d) : p.AllNodes (Makeable tuning.maxNfaStates) := by
  obtain ⟨_, n, hn⟩ := compile_ok h
  obtain ⟨f, a, hfragment, _⟩ := Nfa.ofPattern_ok hn.built
  exact fun q hq => {
    supported := supported_of_compile h q hq
    lookFree := hlooks q hq
    ranged := hn.ranged q hq
    branches := Pattern.branching_of_parse hparse q hq
    within := Nfa.fragment_within hfragment q hq }

/-- A pattern that was read, has no looks and compiles is given with settings that ask for no wrong
byte, put nothing around a text and make the usual passes. Then all its texts match it from end to
end, whatever is drawn. They are different, and no more than asked for. There is a failure only if
some set had no member to draw. -/
theorem corpus_matches {text : List UInt8} {p : Pattern} {options : Options} {d : Database}
    (hparse : Pattern.parse text = .ok p) (hlooks : p.LookFree) (h : compile p options = .ok d)
    {st : Settings} (hst : st.Faithful) (draws : Draws) :
    let c := (corpus st p draws).1
    (c.failure = none ∨ c.failure = some .noCodePoint ∨ c.failure = some .noByte) ∧
      c.texts.size ≤ st.limit ∧ c.texts.toList.Nodup ∧
      ∀ t ∈ c.texts, Matches t p 0 t.size ∧
        (∀ M, Matcher.allMatches t p = some M → ⟨0, t.size⟩ ∈ M) ∧ d.isMatch t = true := by
  obtain ⟨_, n, hn⟩ := compile_ok h
  have hmake := writes_makeText hst (by decide) (makeable_of_compile hparse hlooks h)
  have hempty : (Corpus.mk #[] none).Good st.limit p :=
    ⟨Nat.zero_le _, List.nodup_nil, nofun, nofun⟩
  have hgood := good_addTexts hmake (n := attempts st.limit) hempty draws
  refine ⟨?_, hgood.size_le, hgood.nodup, fun t ht => ?_⟩
  · cases hf : (corpus st p draws).1.failure with
    | none => exact Or.inl rfl
    | some f => exact Or.inr ((hgood.failure f hf).imp (congrArg some) (congrArg some))
  · have hwhole := hgood.whole t ht
    refine ⟨hwhole, fun M hM => ?_, hn.isMatch_iff.2 ⟨0, Nat.zero_le _, _, hwhole⟩⟩
    exact ((Matcher.allMatches_exact hn.ranged.bounded hM).2 _).2
      ⟨Nat.zero_le _, Nat.le_refl _, hwhole⟩

/-- The pattern `a*` as it is read from the text `\x61*`. -/
def hexLetters : Pattern :=
  .seq (some 0) [.rep (some 0) (.bytes (some 0) [(97, 97)]) 0 none true]

theorem parse_hexLetters : Pattern.parse [0x5c, 0x78, 0x36, 0x31, 0x2a] = .ok hexLetters :=
  Option.some.inj ((Pattern.parse?_eq #[0x5c, 0x78, 0x36, 0x31, 0x2a]).1.symm.trans rfl)

theorem lookFree_hexLetters : hexLetters.LookFree := by
  intro n hn
  simp only [hexLetters, Pattern.nodes, Pattern.nodesOfList, List.append_nil, List.mem_cons,
    List.not_mem_nil, or_false] at hn
  rcases hn with rfl | rfl | rfl <;> rfl

theorem exists_compile_hexLetters : ∃ d, compile hexLetters = .ok d := by
  have hletter : Nfa.fragment ({} : Tuning).maxNfaStates (Alphabet.build hexLetters)
      (.bytes (some 0) [(97, 97)]) = Nfa.edgeFragment _ (.bytes 97 97) :=
    Nfa.fragment_bytes (s := Pattern.byteSet [(97, 97)]) rfl (by decide +kernel)
  have hn : Nfa.ofPattern hexLetters (Alphabet.build hexLetters) ({} : Tuning).maxNfaStates =
      .ok lettersNfa := by
    rw [Nfa.ofPattern_eq, hexLetters, Nfa.fragment, Nfa.fragments, Nfa.fragment, ← hexLetters,
      hletter]
    rfl
  exact exists_compile_of_few rfl rfl hn (by decide +kernel) (by decide +kernel)

/-- Two texts are made, with two passes and with one. -/
theorem corpus_matches_hexLetters : ∃ d, compile hexLetters = .ok d ∧
    (corpus { limit := 2 } hexLetters ⟨#[2, 1], 0⟩).1.texts = #[#[97, 97], #[97]] ∧
    Matches #[97, 97] hexLetters 0 2 ∧ d.isMatch #[97, 97] = true := by
  obtain ⟨d, hd⟩ := exists_compile_hexLetters
  have hst : ({ limit := 2 } : Settings).Faithful := ⟨rfl, rfl, rfl, rfl⟩
  have htexts : (corpus { limit := 2 } hexLetters ⟨#[2, 1], 0⟩).1.texts = #[#[97, 97], #[97]] := by
    decide +kernel
  obtain ⟨_, _, _, hall⟩ := corpus_matches parse_hexLetters lookFree_hexLetters hd hst ⟨#[2, 1], 0⟩
  obtain ⟨hwhole, _, hmatch⟩ := hall #[97, 97] (by rw [htexts]; simp)
  exact ⟨d, hd, htexts, hwhole, hmatch⟩

end ByteRegex.Sample
