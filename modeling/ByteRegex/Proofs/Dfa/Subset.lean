-- What the sets of threads do over a text. The threads before a place come
-- from the seeds that the byte before it has left behind; with the looks of
-- the place resolved they tell whether the set accepts there.
import ByteRegex.Proofs.Dfa.Keep
import ByteRegex.Proofs.Dfa.Worklist
import ByteRegex.Proofs.Nfa.Reverse

namespace ByteRegex.Dfa

namespace Subset

variable {c : Subset} {data : Bytes}

/-! ## Threads over a text -/

/-- The threads that matter before the place `i`, with the looks resolved. -/
def resolve (c : Subset) (data : Bytes) (i : Nat) (seeds : List Nat) : List Nat :=
  c.closure (some (placeOf data i)) (c.canonical (c.closure none seeds))

/-- Where the byte at `i` leads from the threads that are not shut out. -/
def advance (c : Subset) (data : Bytes) (i : Nat) (seeds : List Nat) : List Nat :=
  ((c.resolve data i seeds).takeWhile fun s => !c.shutsOut s).flatMap fun s =>
    (c.nfa.state s).byteTargets (data.getD i 0)

/-- What becomes of the seeds at `start` over `n` bytes. -/
def seedsAfter (c : Subset) (data : Bytes) (start : Nat) (seeds : List Nat) : Nat → List Nat
  | 0 => seeds
  | n + 1 => c.advance data (start + n) (c.seedsAfter data start seeds n)

/-- Some thread of the seeds at `start` accepts before the place `i`. -/
def Accepts (c : Subset) (data : Bytes) (start : Nat) (seeds : List Nat) (i : Nat) : Prop :=
  ∃ t ∈ c.resolve data i (c.seedsAfter data start seeds (i - start)), c.nfa.Accepting t

/-! ## What a construction relies on -/

/-- The classes of a construction do not tell too little, and its flags say what the edges ask. -/
structure Fits (c : Subset) : Prop where
  words : c.words = c.nfa.usesWordEdges
  startLooks : c.startLooks = c.nfa.uses .textStart
  class_lt : ∀ b, c.alpha.byteClass b < c.alpha.byteClassCount
  size_eq : c.alpha.size = c.alpha.byteClassCount + 2
  sample : ∀ b, c.alpha.byteClass (c.sampleByte (c.alpha.byteClass b)) = c.alpha.byteClass b
  wordClass : c.words = true → ∀ b b', c.alpha.byteClass b = c.alpha.byteClass b' →
    isWordByte b = isWordByte b'

/-- From every state the bytes of the text lead where the samples of their classes do, and in the
same order. -/
def Sampled (c : Subset) (data : Bytes) : Prop :=
  ∀ i < data.size, ∀ s,
    (c.nfa.state s).byteTargets (c.sampleByte (c.alpha.byteClass (data.getD i 0))) =
      (c.nfa.state s).byteTargets (data.getD i 0)

/-! ## Looks -/

theorem uses_of_edge {n : Nfa} {s t : Nat} {k : Look}
    (h : Nfa.Edge.look k t ∈ (n.state s).edges.toList) : n.uses k = true := by
  have hs : s < n.states.size := by
    by_contra hc
    rw [Nfa.state, Array.getD_eq_getD_getElem?, Array.getElem?_eq_none (Nat.le_of_not_lt hc)] at h
    simp at h
  rw [Nfa.state, Array.getD_eq_getD_getElem?, Array.getElem?_eq_getElem hs] at h
  rw [Nfa.uses, Array.any_eq_true]
  refine ⟨s, hs, ?_⟩
  rw [Array.any_eq_true']
  exact ⟨_, Array.mem_toList_iff.1 h, beq_self_eq_true k⟩

/-- Free edges depend on a place only by the looks that edges carry. -/
theorem freeTargets_congr {n : Nfa} {ctx ctx' : LookContext}
    (h : ∀ k, n.uses k = true → ctx.holds k = ctx'.holds k) :
    freeTargets n (some ctx) = freeTargets n (some ctx') := by
  funext s
  refine List.filterMap_congr fun e he => ?_
  cases e with
  | eps t => rfl
  | bytes lo hi t => rfl
  | look k t =>
    have hk := h k (uses_of_edge he)
    simp only [freeTarget?, Option.any_some, hk]

theorem closure_congr {ctx ctx' : LookContext} {seeds : List Nat}
    (h : ∀ k, c.nfa.uses k = true → ctx.holds k = ctx'.holds k) :
    c.closure (some ctx) seeds = c.closure (some ctx') seeds := by
  rw [closure, closure, freeTargets_congr h]

@[simp] theorem closure_nil (ctx : Option LookContext) : c.closure ctx [] = [] := by
  rw [closure, Walk.orderUntil_eq .nil]
  rfl

@[simp] theorem canonical_nil : c.canonical [] = [] := by
  rw [canonical]
  cases c.kind with
  | leftmostFirst => rfl
  | all => simp [sortUnique, dropRepeats]

/-! ## Sets over a text -/

/-- The automaton of the sets. -/
def setMachine (c : Subset) : Machine ThreadSet := c.automaton.machine c.startOther c.startWord

/-- The set holds the threads, and what it knows about the place `i` is right as far as anything
asks for it. -/
structure Holds (c : Subset) (data : Bytes) (i : Nat) (threads : List Nat) (s : ThreadSet) :
    Prop where
  final : s.final = false
  threads_eq : s.threads = threads
  atStart : threads ≠ [] → c.nfa.uses .textStart = true → s.atStart = (i == 0)
  wordBefore : threads ≠ [] → c.words = true → s.wordBefore = Matcher.wordBefore data i

variable {i : Nat} {threads : List Nat} {s : ThreadSet}

/-- An edge that asks for words shows in the flags. -/
theorem Fits.words_of_uses (hc : c.Fits) {k : Look} (hk : c.nfa.uses k = true)
    (h : k = .wordEdge ∨ k = .notWordEdge) : c.words = true := by
  rcases h with rfl | rfl
  · rw [hc.words, Nfa.usesWordEdges, hk, Bool.true_or]
  · rw [hc.words, Nfa.usesWordEdges, hk, Bool.or_true]

theorem Holds.closure_eq (h : Holds c data i threads s) (hc : c.Fits) {atEnd wordAfter : Bool}
    (hend : atEnd = (i == data.size))
    (hafter : c.words = true → wordAfter = Matcher.wordAt data i) :
    c.closure (some (s.context atEnd wordAfter)) s.threads
      = c.closure (some (placeOf data i)) threads := by
  rw [h.threads_eq]
  by_cases hne : threads = []
  · rw [hne, closure_nil, closure_nil]
  refine closure_congr fun k hk => ?_
  cases k with
  | textStart => exact h.atStart hne hk
  | textEnd => exact hend
  | wordEdge =>
    have hw := hc.words_of_uses hk (Or.inl rfl)
    simp only [LookContext.holds, ThreadSet.context, placeOf, h.wordBefore hne hw, hafter hw]
  | notWordEdge =>
    have hw := hc.words_of_uses hk (Or.inr rfl)
    simp only [LookContext.holds, ThreadSet.context, placeOf, h.wordBefore hne hw, hafter hw]

/-! ## Successors -/

theorem successors_byte (h : s.final = false) {cls : Nat} (hcls : cls < c.alpha.byteClassCount)
    (start : ThreadSet) :
    (c.successors start s).getD cls .dead =
      c.afterByte (if isWordByte (c.sampleByte cls) then
          if c.words then c.closure (some (s.context false true)) s.threads
          else c.closure (some (s.context false false)) s.threads
        else c.closure (some (s.context false false)) s.threads) (c.sampleByte cls) := by
  rw [successors, if_neg (by simp [h]), List.getD_append _ _ _ _ (by simpa using hcls),
    List.getD_eq_getElem?_getD, List.getElem?_map, List.getElem?_range hcls]
  rfl

/-- Nothing comes behind the end of the text. -/
theorem successors_final (h : s.final = true) (start : ThreadSet) {cls : Nat}
    (hcls : cls < c.alpha.size) : (c.successors start s)[cls]? = some .dead := by
  rw [successors, if_pos h, List.getElem?_replicate_of_lt hcls]

theorem successors_ends (h : s.final = false) (start : ThreadSet) :
    (c.successors start s)[c.alpha.byteClassCount]? = some (c.afterStart start s) ∧
      (c.successors start s)[c.alpha.byteClassCount + 1]? = some (c.afterEnd s) := by
  rw [successors, if_neg (by simp [h])]
  constructor <;> rw [List.getElem?_append_right (by simp)] <;> simp

theorem successors_special (h : s.final = false) (start : ThreadSet) :
    (c.successors start s).getD c.alpha.byteClassCount .dead = c.afterStart start s ∧
      (c.successors start s).getD (c.alpha.byteClassCount + 1) .dead = c.afterEnd s := by
  obtain ⟨hstart, hend⟩ := c.successors_ends h start
  rw [List.getD_eq_getElem?_getD, List.getD_eq_getElem?_getD, hstart, hend]
  exact ⟨rfl, rfl⟩

/-- The bytes of the class of a word byte are word bytes, if any edge asks for words. -/
theorem Fits.isWordByte_sample (hc : c.Fits) (hw : c.words = true) (b : UInt8) :
    isWordByte (c.sampleByte (c.alpha.byteClass b)) = isWordByte b :=
  hc.wordClass hw _ _ (hc.sample b)

theorem wordAt_of_lt (hi : i < data.size) :
    Matcher.wordAt data i = isWordByte (data.getD i 0) := by
  rw [Matcher.wordAt, Array.getD_eq_getD_getElem?, Array.getElem?_eq_getElem hi]
  rfl

/-- With the looks of the place resolved, the bytes of one class share the threads. -/
theorem Holds.resolved_eq (h : Holds c data i threads s) (hc : c.Fits) (hi : i < data.size) :
    (if isWordByte (c.sampleByte (c.alpha.byteClass (data.getD i 0))) then
        if c.words then c.closure (some (s.context false true)) s.threads
        else c.closure (some (s.context false false)) s.threads
      else c.closure (some (s.context false false)) s.threads)
      = c.closure (some (placeOf data i)) threads := by
  have hend : false = (i == data.size) := (beq_eq_false_iff_ne.2 (Nat.ne_of_lt hi)).symm
  by_cases hw : c.words = true
  · have hat := wordAt_of_lt hi
    rw [hc.isWordByte_sample hw, if_pos hw]
    generalize data.getD i 0 = b at hat ⊢
    split
    · rename_i hb
      exact h.closure_eq hc hend fun _ => (hat.trans hb).symm
    · rename_i hb
      exact h.closure_eq hc hend fun _ => (hat.trans (Bool.eq_false_iff.2 hb)).symm
  · rw [if_neg hw, ite_self]
    exact h.closure_eq hc hend fun hw' => absurd hw' hw

theorem afterByte_holds (hc : c.Fits) (hd : c.Sampled data) (resolved : List Nat)
    (hi : i < data.size) :
    Holds c data (i + 1)
      (c.canonical (c.closure none ((resolved.takeWhile fun s => !c.shutsOut s).flatMap fun s =>
        (c.nfa.state s).byteTargets (data.getD i 0))))
      (c.afterByte resolved (c.sampleByte (c.alpha.byteClass (data.getD i 0)))) := by
  have hat := wordAt_of_lt hi
  have hsame := hd i hi
  generalize data.getD i 0 = b at hat hsame ⊢
  have htargets : (resolved.takeWhile fun s => !c.shutsOut s).flatMap (fun s =>
      (c.nfa.state s).edges.toList.filterMap (byteTarget? (c.sampleByte (c.alpha.byteClass b)))) =
        (resolved.takeWhile fun s => !c.shutsOut s).flatMap fun s =>
          (c.nfa.state s).byteTargets b :=
    congrArg (fun f => List.flatMap f _) (funext hsame)
  rw [afterByte, htargets]
  generalize c.canonical _ = threads
  split
  · rename_i hempty
    rw [List.isEmpty_iff.1 hempty]
    exact ⟨rfl, rfl, fun hne => absurd rfl hne, fun hne => absurd rfl hne⟩
  · refine ⟨rfl, rfl, fun _ _ => rfl, fun _ hw => ?_⟩
    dsimp only
    rw [hw, hc.isWordByte_sample hw, Bool.true_and, Matcher.wordBefore, Nat.add_sub_cancel, hat]
    rfl

/-- The classes that the construction uses. -/
def reading (c : Subset) : Reading :=
  ⟨c.alpha.byteClass, c.alpha.byteClassCount, c.alpha.byteClassCount + 1⟩

theorem first_holds (hc : c.Fits) {start : Nat} (hstart : start ≤ data.size) :
    Holds c data start (c.canonical (c.closure none (c.seedsAfter data start [c.nfa.floating] 0)))
      (c.setMachine.first c.reading data start) := by
  rw [Machine.first]
  split
  · rename_i h0
    rw [show c.setMachine.step c.setMachine.startOther c.reading.start =
      (c.successors c.startOther c.startOther).getD c.alpha.byteClassCount .dead from rfl,
      (successors_special rfl c.startOther).1, afterStart, if_pos rfl, h0]
    exact ⟨rfl, rfl, fun _ hu => hc.startLooks.trans hu, fun _ _ => rfl⟩
  · rename_i h0
    have hbefore : Matcher.wordBefore data start = isWordByte (data.getD (start - 1) 0) := by
      rw [Matcher.wordBefore, wordAt_of_lt (by omega)]
      simp [h0]
    split
    · rename_i hb
      refine ⟨rfl, rfl, fun _ _ => ?_, fun _ hw => ?_⟩
      · exact (beq_eq_false_iff_ne.2 h0).symm
      · rw [hbefore, hb]
        exact hw
    · rename_i hb
      refine ⟨rfl, rfl, fun _ _ => ?_, fun _ _ => ?_⟩
      · exact (beq_eq_false_iff_ne.2 h0).symm
      · rw [hbefore, Bool.eq_false_iff.2 hb]
        rfl

/-- Behind any number of bytes the set holds the threads. -/
theorem after_holds (hc : c.Fits) (hd : c.Sampled data) {start : Nat} (n : Nat)
    (hn : start + n ≤ data.size) :
    Holds c data (start + n)
      (c.canonical (c.closure none (c.seedsAfter data start [c.nfa.floating] n)))
      (c.setMachine.after c.reading data start n) := by
  induction n with
  | zero => exact first_holds hc hn
  | succ n ih =>
    have hlt : start + n < data.size := hn
    have h := ih (Nat.le_of_lt hlt)
    rw [Machine.after, show c.setMachine.step (c.setMachine.after c.reading data start n)
      (c.reading.ofByte (data.getD (start + n) 0)) = (c.successors c.startOther
        (c.setMachine.after c.reading data start n)).getD
          (c.alpha.byteClass (data.getD (start + n) 0)) .dead from rfl,
      successors_byte h.final (hc.class_lt _), h.resolved_eq hc hlt]
    exact afterByte_holds hc hd _ hlt

/-! ## Accepting -/

@[simp] theorem never_before (b : UInt8) : AcceptFlags.never.before b = false :=
  Machine.not_before_never b

@[simp] theorem beforeWord_before (b : UInt8) : AcceptFlags.beforeWord.before b = isWordByte b := by
  rw [AcceptFlags.before, AcceptFlags.forByte]
  cases isWordByte b <;> decide

@[simp] theorem beforeOther_before (b : UInt8) :
    AcceptFlags.beforeOther.before b = !isWordByte b := by
  rw [AcceptFlags.before, AcceptFlags.forByte]
  cases isWordByte b <;> decide

@[simp] theorem always_before (b : UInt8) : AcceptFlags.always.before b = true := by
  rw [AcceptFlags.before, AcceptFlags.forByte]
  cases isWordByte b <;> decide

theorem acceptance?_isSome {threads : List Nat} :
    (c.acceptance? threads).isSome = true ↔ ∃ t ∈ threads, c.nfa.Accepting t := by
  have hlist : (threads.filterMap fun s => (c.nfa.state s).accept.map fun p => (s, p)) ≠ [] ↔
      ∃ t ∈ threads, c.nfa.Accepting t := by
    constructor
    · intro hne
      obtain ⟨x, hx⟩ := List.exists_mem_of_ne_nil _ hne
      obtain ⟨t, ht, hacc⟩ := List.mem_filterMap.1 hx
      refine ⟨t, ht, ?_⟩
      obtain ⟨p, hp, _⟩ := Option.map_eq_some_iff.1 hacc
      rw [Nfa.Accepting, hp]
      rfl
    · rintro ⟨t, ht, hacc⟩
      obtain ⟨p, hp⟩ := Option.isSome_iff_exists.1 hacc
      exact List.ne_nil_of_mem (List.mem_filterMap.2 ⟨t, ht, by rw [hp]; rfl⟩)
  rw [← hlist, acceptance?]
  generalize (threads.filterMap fun s => (c.nfa.state s).accept.map fun p => (s, p)) = accepting
  cases c.kind <;> cases accepting <;> simp

/-- A set accepts before a byte just if one of its threads does, with the looks resolved. -/
theorem Holds.report_before (h : Holds c data i threads s) (hc : c.Fits) (hi : i < data.size) :
    (c.report s).1.before (data.getD i 0) = true ↔
      ∃ t ∈ c.closure (some (placeOf data i)) threads, c.nfa.Accepting t := by
  have hend : false = (i == data.size) := (beq_eq_false_iff_ne.2 (Nat.ne_of_lt hi)).symm
  have hbefore : ∀ wordAfter, (c.words = true → wordAfter = Matcher.wordAt data i) →
      ((c.acceptsBefore? s wordAfter).isSome = true ↔
        ∃ t ∈ c.closure (some (placeOf data i)) threads, c.nfa.Accepting t) := by
    intro wordAfter hw
    rw [acceptsBefore?, Option.isSome_map, acceptance?_isSome, h.closure_eq hc hend hw]
  have hat := wordAt_of_lt hi
  generalize data.getD i 0 = b at hat ⊢
  rw [report, if_neg (by simp [h.final])]
  split
  · rename_i hempty
    rw [List.isEmpty_iff, h.threads_eq] at hempty
    rw [hempty, closure_nil, never_before]
    simp
  · split
    · rename_i hw
      rw [← hbefore (isWordByte b) fun _ => hat.symm]
      rcases h1 : c.acceptsBefore? s true with _ | p <;>
        rcases h2 : c.acceptsBefore? s false with _ | q <;>
        cases hb : isWordByte b <;> simp [h1, h2, hb]
    · rename_i hw
      rw [← hbefore false fun hw' => absurd hw' hw]
      rcases c.acceptsBefore? s false with _ | q <;> simp

theorem Holds.afterEnd_any (h : Holds c data data.size threads s) (hc : c.Fits) :
    (c.report (c.afterEnd s)).1.any = true ↔
      ∃ t ∈ c.closure (some (placeOf data data.size)) threads, c.nfa.Accepting t := by
  have hend : true = (data.size == data.size) := (beq_self_eq_true data.size).symm
  have hafter : c.words = true → false = Matcher.wordAt data data.size := fun _ => by
    rw [Matcher.wordAt, Array.getElem?_eq_none (Nat.le_refl _)]
    rfl
  have hclosure := h.closure_eq hc hend hafter
  rw [← hclosure, ← acceptance?_isSome, afterEnd]
  split
  · rename_i t p hacc
    rw [hacc, report, if_pos rfl]
    exact iff_of_true (show AcceptFlags.always.any = true by decide) rfl
  · rename_i hacc
    rw [hacc, report, if_neg (by decide), if_pos (by decide)]
    exact iff_of_false (by decide) (by decide)

/-- The automaton of the sets accepts where some thread does. -/
theorem acceptsAt_iff (hc : c.Fits) (hd : c.Sampled data) {start : Nat} (hstart : start ≤ i)
    (hi : i ≤ data.size) :
    c.setMachine.AcceptsAt c.reading data start i ↔ c.Accepts data start [c.nfa.floating] i := by
  have hsum : start + (i - start) = i := by omega
  have h := after_holds hc hd (i - start) (hsum ▸ hi)
  rw [hsum] at h
  rw [Machine.AcceptsAt, Machine.acceptsIn, Accepts]
  by_cases hlt : i < data.size
  · rw [if_pos hlt]
    exact h.report_before hc hlt
  · rw [if_neg hlt]
    obtain rfl : i = data.size := by omega
    rw [show c.setMachine.step (c.setMachine.after c.reading data start (data.size - start))
      c.reading.stop = (c.successors c.startOther
        (c.setMachine.after c.reading data start (data.size - start))).getD
          (c.alpha.byteClassCount + 1) .dead from rfl, (successors_special h.final _).2]
    exact h.afterEnd_any hc

/-! ## The numbered automaton -/

/-- No thread is alive, and the text has not ended in a match. -/
def Idle (s : ThreadSet) : Prop := s.threads = [] ∧ s.final = false

theorem idling (hsize : c.alpha.size = c.alpha.byteClassCount + 2) :
    Idling c.automaton c.alpha.size Idle where
  dead := ⟨rfl, rfl⟩
  report s hs := by
    rw [show c.automaton.report s = c.report s from rfl, report, if_neg (by simp [hs.2]),
      if_pos (by rw [hs.1]; rfl)]
  successors s hs t ht := by
    have hdead : ∀ b, c.afterByte [] b = .dead := fun b => by simp [afterByte]
    rw [show c.automaton.successors s = c.successors c.startOther s from rfl, successors,
      if_neg (by simp [hs.2]), hs.1, closure_nil, closure_nil] at ht
    simp only [ite_self, hdead, List.mem_append] at ht
    rcases ht with ht | ht
    · obtain ⟨cls, _, rfl⟩ := List.mem_map.1 ht
      exact ⟨rfl, rfl⟩
    · simp only [List.mem_cons, List.not_mem_nil, or_false] at ht
      rcases ht with rfl | rfl
      · rw [afterStart]
        split
        · exact hs
        · exact ⟨rfl, rfl⟩
      · rw [afterEnd, hs.1, closure_nil]
        have hnone : c.acceptance? [] = none := by
          rw [acceptance?]
          cases c.kind <;> rfl
        rw [hnone]
        exact ⟨rfl, rfl⟩
  length s := by
    rw [show c.automaton.successors s = c.successors c.startOther s from rfl, successors]
    split
    · exact List.length_replicate
    · rw [List.length_append, List.length_map, List.length_range, hsize]
      rfl

/-- Without word looks a search starts in one set behind all bytes. -/
theorem startWord_eq (h : c.words = false) : c.startWord = c.startOther := by
  rw [startWord, h]
  rfl

theorem mem_initial_iff : s ∈ c.automaton.initial ↔ s = c.startOther ∨ s = c.startWord := by
  rw [show c.automaton.initial = if c.words then [c.startOther, c.startWord] else [c.startOther]
    from rfl]
  cases hw : c.words with
  | true => simp
  | false => simp [startWord_eq hw]

end Subset

section OfNfa

variable {n : Nfa} {alpha : Alphabet} {direction : Direction} {kind : MatchKind} {limit : Nat}
  {d : Dfa}

/-- An automaton that could be made has the states of the sets, and starts in the sets of the two
starts. -/
theorem ofNfa_ok (h : ofNfa n alpha direction kind limit = .ok d) :
    ∃ states sets,
      determinize (Subset.ofNfa n alpha kind).automaton alpha.size limit = .ok (states, sets) ∧
      d = { direction := direction
            alphaSize := alpha.size
            symbolClass := alpha.symbolClass
            startOther := sets.idxOf (Subset.ofNfa n alpha kind).startOther
            startWord := sets.idxOf (Subset.ofNfa n alpha kind).startWord
            wordSensitive := (Subset.ofNfa n alpha kind).words
            states := states } := by
  rw [ofNfa] at h
  split at h
  · cases h
  · rename_i states sets hdet
    exact ⟨states, sets, hdet, (Except.ok.inj h).symm⟩

/-- The states of the numbers make up an automaton over the classes of the alphabet. -/
theorem ofNfa_closed (hsize : alpha.size = alpha.byteClassCount + 2)
    (h : ofNfa n alpha direction kind limit = .ok d) :
    d.Closed ∧ d.Dead ∧ d.alphaSize = alpha.size ∧ d.symbolClass = alpha.symbolClass := by
  obtain ⟨states, sets, hdet, rfl⟩ := ofNfa_ok h
  have hnum := determinize_numbered hdet
  have hidle := Subset.idling (c := Subset.ofNfa n alpha kind) hsize
  have ho := hnum.getElem?_idxOf (Subset.mem_initial_iff.2 (Or.inl rfl))
  have hw := hnum.getElem?_idxOf (Subset.mem_initial_iff.2 (Or.inr rfl))
  refine ⟨hnum.closed hidle rfl rfl (hnum.standsFor hidle ho) (hnum.standsFor hidle hw),
    ⟨?_, fun c hc => hnum.step_zero rfl hc⟩, rfl, rfl⟩
  rw [state_eq rfl hnum.first]
  exact hidle.report _ hidle.dead

/-- The numbered automaton accepts where the sets do. -/
theorem ofNfa_agree (hc : (Subset.ofNfa n alpha kind).Fits)
    (h : ofNfa n alpha direction kind limit = .ok d) :
    Machine.Agree alpha.size (Subset.ofNfa n alpha kind).setMachine d.machine ∧ d.Closed ∧ d.Dead ∧
      d.alphaSize = alpha.size ∧ d.symbolClass = alpha.symbolClass := by
  refine ⟨?_, ofNfa_closed hc.size_eq h⟩
  obtain ⟨states, sets, hdet, rfl⟩ := ofNfa_ok h
  have hnum := determinize_numbered hdet
  have hidle := Subset.idling hc.size_eq
  have ho := hnum.getElem?_idxOf (Subset.mem_initial_iff.2 (Or.inl rfl))
  have hw := hnum.getElem?_idxOf (Subset.mem_initial_iff.2 (Or.inr rfl))
  refine ⟨?_, ?_, ?_⟩
  · exact hnum.alike hidle rfl (Or.inr ⟨rfl, hidle.dead⟩)
  · exact hnum.alike hidle rfl (hnum.standsFor hidle ho)
  · exact hnum.alike hidle rfl (hnum.standsFor hidle hw)

end OfNfa

end ByteRegex.Dfa
