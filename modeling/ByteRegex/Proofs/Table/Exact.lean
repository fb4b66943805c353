-- What a scan over the block of an automaton gives is what a plain walk over the
-- automaton gives, with narrow entries in the table or without.
import ByteRegex.Proofs.Dfa.Keep
import ByteRegex.Proofs.Table.Encode

namespace ByteRegex

namespace Dfa

/-- Few enough states for a table, a dead state in the first place, and all classes where they
belong: those of the bytes first, then those of the start and the end of the text. -/
structure WellFormed (d : Dfa) : Prop extends d.Closed where
  dead : d.Dead
  size_le : d.size ≤ maxStates
  alphaSize_lt : d.alphaSize < 0x10000
  class_lt : ∀ b : UInt8, d.classOf b.toNat < d.byteClassCount
  start : d.startClass = d.byteClassCount
  stop : d.endClass = d.byteClassCount + 1

variable {d : Dfa}

theorem WellFormed.alphaSize_eq (h : d.WellFormed) : d.alphaSize = d.byteClassCount + 2 := by
  have hlt := h.class_lt 0
  unfold byteClassCount specialCount at *
  omega

theorem WellFormed.below (h : d.WellFormed) : d.reading.Below d.alphaSize := by
  rw [h.alphaSize_eq]
  refine ⟨fun b => Nat.lt_add_right 2 (h.class_lt b), ?_, ?_⟩
  · exact Nat.lt_of_le_of_lt (Nat.le_of_eq h.start) (by omega)
  · exact Nat.lt_of_le_of_lt (Nat.le_of_eq h.stop) (by omega)

/-- A well-formed automaton over no more classes than there are symbols can be encoded, with narrow
entries or without. Whatever its table is scanned over, the scan gives what a walk over the
automaton meets first or last. -/
theorem encode_exact (h : d.WellFormed) (narrow : Bool) :
    (d.alphaSize ≤ symbolCount → ∃ t, d.encode narrow = .ok t) ∧
      ∀ t, d.encode narrow = .ok t → ∀ data : Bytes,
        (∀ start ≤ data.size,
          t.scanForward data start true = (d.machine.forwardStops d.reading data start).head? ∧
            t.scanForward data start false =
              (d.machine.forwardStops d.reading data start).getLast?) ∧
          ∀ lo hi, lo ≤ hi → hi ≤ data.size →
            t.scanReverse data lo hi = (d.machine.reverseStops d.reading data lo hi).getLast? := by
  have hsize := h.size_le
  have halpha := h.alphaSize_lt
  have heq := h.alphaSize_eq
  have hbelow := h.below
  refine ⟨?_, ?_⟩
  · intro hcount
    refine exists_encode (Nat.lt_succ_of_le hsize) hcount fun c hc => ?_
    have hlt := h.class_lt (UInt8.ofNat c)
    rw [UInt8.toNat_ofNat', Nat.mod_eq_of_lt hc] at hlt
    have hsymbols : symbolCount = 258 := rfl
    omega
  · intro t ht data
    have hreading : t.reading = d.reading := by
      refine encode_reading ht ?_ ?_
      · rw [h.start]
        omega
      · rw [h.stop]
        omega
    have hagree := encode_agree h.toClosed ht
    have hquiet : t.machine.Quiet d.alphaSize 0 := hagree.dead.quiet h.dead.quiet
    have hK : t.reading.Below d.alphaSize := hreading ▸ hbelow
    refine ⟨fun start hstart => ⟨?_, ?_⟩, fun lo hi hlo hhi => ?_⟩
    · rw [Table.scanForward_eq_head? hK hquiet hstart, hreading, hagree.forwardStops hbelow]
    · rw [Table.scanForward_eq_getLast? hK hquiet hstart, hreading, hagree.forwardStops hbelow]
    · rw [Table.scanReverse_eq_getLast? hK hquiet hlo hhi, hreading, hagree.reverseStops hbelow]

/-! ## Runs of a letter -/

def runClass (b : UInt8) : Nat := if b == 97 then 0 else 1

/-- The automaton accepts behind a run of the letter `a`, if no word byte comes next. -/
def letterRuns : Dfa where
  direction := .forward
  alphaSize := 4
  symbolClass := (allBytes.map runClass).toArray ++ #[2, 3]
  startOther := 1
  startWord := 0
  wordSensitive := true
  states := #[
    { next := #[0, 0, 0, 0] },
    { next := #[3, 1, 2, 0] },
    { next := #[3, 1, 0, 0] },
    { accept := .beforeOther, next := #[3, 1, 0, 4] },
    { accept := .always, next := #[0, 0, 0, 0] }]

theorem letterRuns_wellFormed : letterRuns.WellFormed where
  startOther := by decide
  startWord := by decide
  step := by decide
  dead := ⟨rfl, by decide⟩
  size_le := by decide
  alphaSize_lt := by decide
  class_lt := by
    intro b
    unfold classOf letterRuns
    dsimp only
    rw [getD_allBytes]
    unfold runClass
    split <;> decide
  start := by decide +kernel
  stop := by decide +kernel

theorem encode_exact_letterRuns :
    ∃ t, letterRuns.encode true = .ok t ∧ t.scanForward #[97, 46, 97] 0 true = some 1 ∧
      t.scanForward #[97, 46, 97] 0 false = some 3 ∧ t.scanReverse #[97, 46, 97] 1 3 = some 2 := by
  obtain ⟨hexists, h⟩ := encode_exact letterRuns_wellFormed true
  obtain ⟨t, ht⟩ := hexists (by decide)
  obtain ⟨hforward, hreverse⟩ := h t ht #[97, 46, 97]
  obtain ⟨hfirst, hlast⟩ := hforward 0 (by decide)
  refine ⟨t, ht, ?_, ?_, ?_⟩
  · rw [hfirst]
    decide +kernel
  · rw [hlast]
    decide +kernel
  · rw [hreverse 1 3 (by decide) (by decide)]
    decide +kernel

end Dfa

end ByteRegex
