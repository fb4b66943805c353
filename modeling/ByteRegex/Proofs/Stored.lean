-- Stored databases. What is read is what the header and both blocks hold; a compiled
-- database is read back as it is, a database that was read from any layout is written in
-- the one layout of its own, and no scan of it leaves its blocks.
import ByteRegex.Database.Stored
import ByteRegex.Proofs.Compile
import ByteRegex.Proofs.Table.Guard

namespace ByteRegex

/-! ## Rows of words -/

theorem getElem?_words (ws : List Nat) (rest : List UInt8) {i k n : Nat} (hi : ws[i]? = some n)
    (hk : k < 4) : (ws.flatMap word32 ++ rest)[4 * i + k]? = (word32 n)[k]? := by
  induction ws generalizing i with
  | nil => cases hi
  | cons w ws ih =>
    have hlength : (word32 w).length = 4 := rfl
    rw [List.flatMap_cons, List.append_assoc]
    cases i with
    | zero =>
      obtain rfl : w = n := Option.some.inj hi
      rw [List.getElem?_append_left (by omega), Nat.mul_zero, Nat.zero_add]
    | succ i =>
      have hplace : 4 * (i + 1) + k - 4 = 4 * i + k := by omega
      rw [List.getElem?_append_right (by omega), hlength, hplace]
      exact ih hi

namespace Bytes

variable {b : Bytes}

/-- A word that was written in a row of words is read back. -/
theorem at32_words {ws : List Nat} {rest : List UInt8} {i n : Nat}
    (hb : b.toList = ws.flatMap word32 ++ rest) (hi : ws[i]? = some n) (hn : n ≤ maxWord) :
    b.at32 (4 * i) = n := by
  have hget : ∀ k < 4, b.getD (4 * i + k) 0 = (word32 n).getD k 0 := by
    intro k hk
    rw [Array.getD_eq_getD_getElem?, ← Array.getElem?_toList, hb, getElem?_words ws rest hi hk,
      List.getD_eq_getElem?_getD]
  exact at32_eq hn (hget 0 (by decide)) (hget 1 (by decide)) (hget 2 (by decide))
    (hget 3 (by decide))

/-- A word that is read and written again gives the bytes from which it was read. -/
theorem word32_at32 (b : Bytes) (i : Nat) :
    word32 (b.at32 i) = [b.getD i 0, b.getD (i + 1) 0, b.getD (i + 2) 0, b.getD (i + 3) 0] := by
  have h0 := (b.getD i 0).toNat_lt
  have h1 := (b.getD (i + 1) 0).toNat_lt
  have h2 := (b.getD (i + 2) 0).toNat_lt
  have h3 := (b.getD (i + 3) 0).toNat_lt
  unfold word32 word16 at32 at16 at8
  simp only [List.cons_append, List.nil_append, List.cons.injEq, ← UInt8.toNat_inj, toNat_toUInt8,
    and_true, Nat.add_assoc, Nat.reduceAdd]
  omega

theorem extract_word {i : Nat} (h : i + 4 ≤ b.size) :
    b.extract i (i + 4) = (word32 (b.at32 i)).toArray := by
  have hget : ∀ k (hk : k < b.size), b[k] = b.getD k 0 := by
    intro k hk
    rw [Array.getD_eq_getD_getElem?, Array.getElem?_eq_getElem hk, Option.getD_some]
  rw [word32_at32]
  apply Array.ext
  · simp
    omega
  · intro j _ hj
    have hj4 : j < 4 := hj
    rw [Array.getElem_extract, hget]
    rcases (by omega : j = 0 ∨ j = 1 ∨ j = 2 ∨ j = 3) with rfl | rfl | rfl | rfl
    all_goals rfl

/-- So does a row of words at the start. -/
theorem words_at32 {k : Nat} (hk : 4 * k ≤ b.size) :
    (((List.range k).map fun i => b.at32 (4 * i)).flatMap word32).toArray =
      b.extract 0 (4 * k) := by
  induction k with
  | zero => simp
  | succ k ih =>
    have hword : b.extract (4 * k) (4 * k + 4) = (word32 (b.at32 (4 * k))).toArray :=
      extract_word (by omega)
    rw [List.range_succ, List.map_append, List.flatMap_append, ← List.append_toArray,
      ih (by omega), List.map_singleton, List.flatMap_singleton, ← hword,
      Array.extract_append_extract, Nat.min_eq_left (Nat.zero_le _), Nat.max_eq_right (by omega),
      Nat.mul_succ]

end Bytes

/-! ## Headers -/

namespace Stored.Header

/-- All fields are words. -/
structure Fits (h : Header) : Prop where
  length : h.length ≤ maxWord
  flags : h.flags ≤ maxWord
  forwardOffset : h.forwardOffset ≤ maxWord
  forwardLength : h.forwardLength ≤ maxWord
  reverseOffset : h.reverseOffset ≤ maxWord
  reverseLength : h.reverseLength ≤ maxWord

/-- The words of a stored header. -/
def words (h : Header) : List Nat :=
  [magic, formVersion, h.length, h.flags, h.forwardOffset, h.forwardLength, h.reverseOffset,
    h.reverseLength]

theorem toBytes_eq (h : Header) : h.toBytes = (h.words.flatMap word32).toArray := rfl

theorem size_toBytes (h : Header) : h.toBytes.size = headerSize := rfl

theorem at32_toBytes (h : Header) (rest : Bytes) {i n : Nat} (hi : h.words[i]? = some n)
    (hn : n ≤ maxWord) : (h.toBytes ++ rest).at32 (4 * i) = n := by
  have hbytes : (h.toBytes ++ rest).toList = h.words.flatMap word32 ++ rest.toList := by
    rw [Array.toList_append, toBytes_eq]
  exact Bytes.at32_words hbytes hi hn

theorem magic_toBytes (h : Header) (rest : Bytes) : (h.toBytes ++ rest).at32 0 = magic :=
  h.at32_toBytes rest (i := 0) rfl (by decide)

theorem version_toBytes (h : Header) (rest : Bytes) : (h.toBytes ++ rest).at32 4 = formVersion :=
  h.at32_toBytes rest (i := 1) rfl (by decide)

theorem ofBytes_toBytes {h : Header} (hw : h.Fits) (rest : Bytes) :
    ofBytes (h.toBytes ++ rest) = h := by
  unfold ofBytes
  rw [h.at32_toBytes rest (i := 2) rfl hw.length, h.at32_toBytes rest (i := 3) rfl hw.flags,
    h.at32_toBytes rest (i := 4) rfl hw.forwardOffset,
    h.at32_toBytes rest (i := 5) rfl hw.forwardLength,
    h.at32_toBytes rest (i := 6) rfl hw.reverseOffset,
    h.at32_toBytes rest (i := 7) rfl hw.reverseLength]

theorem toBytes_ofBytes {b : Bytes} (hsize : headerSize ≤ b.size) (hmagic : b.at32 0 = magic)
    (hversion : b.at32 4 = formVersion) : (ofBytes b).toBytes = b.extract 0 headerSize := by
  have hwords : (ofBytes b).words = (List.range 8).map fun i => b.at32 (4 * i) := by
    unfold words
    rw [← hmagic, ← hversion]
    rfl
  rw [toBytes_eq, hwords]
  exact Bytes.words_at32 (k := 8) hsize

theorem fits_iff {h : Header} {size : Nat} : h.fits size = true ↔
    h.length = size ∧ headerSize ≤ h.forwardOffset ∧ h.forwardOffset + h.forwardLength ≤ size ∧
      headerSize ≤ h.reverseOffset ∧ h.reverseOffset + h.reverseLength ≤ size ∧
        h.flags ≤ longestFlag := by
  simp only [fits, Bool.and_eq_true, beq_iff_eq, decide_eq_true_eq, and_assoc]

end Stored.Header

/-! ## Reading -/

namespace Database

open Stored

variable {b : Bytes} {d : Database}

/-- The database is what a stored form holds. -/
structure HeldIn (d : Database) (b : Bytes) : Prop where
  headerSize_le : headerSize ≤ b.size
  magic : b.at32 0 = magic
  version : b.at32 4 = formVersion
  fits : (Header.ofBytes b).fits b.size = true
  forward : d.forward.bytes = b.extract (Header.ofBytes b).forwardOffset
    ((Header.ofBytes b).forwardOffset + (Header.ofBytes b).forwardLength)
  forwardValid : d.forward.Valid .forward
  reverse : d.reverse.bytes = b.extract (Header.ofBytes b).reverseOffset
    ((Header.ofBytes b).reverseOffset + (Header.ofBytes b).reverseLength)
  reverseValid : d.reverse.Valid .reverse
  longest : d.longest = ((Header.ofBytes b).flags == longestFlag)

theorem deserialize_ok_iff : deserialize b = .ok d ↔ d.HeldIn b := by
  unfold deserialize
  constructor
  · intro h
    split at h
    · cases h
    split at h
    · cases h
    split at h
    · cases h
    dsimp only at h
    split at h
    · cases h
    split at h
    · cases h
    split at h
    · cases h
    rename_i hsize hmagic hversion hfits _ forward hforward _ reverse hreverse
    obtain rfl := Except.ok.inj h
    obtain ⟨hfb, hfv⟩ := Table.load_ok_iff.1 hforward
    obtain ⟨hrb, hrv⟩ := Table.load_ok_iff.1 hreverse
    exact ⟨Nat.le_of_not_lt hsize, Decidable.not_not.1 hmagic, Decidable.not_not.1 hversion,
      by simpa using hfits, hfb, hfv, hrb, hrv, rfl⟩
  · intro h
    rw [if_neg (Nat.not_lt.2 h.headerSize_le), if_neg (not_not_intro h.magic),
      if_neg (not_not_intro h.version)]
    dsimp only
    rw [h.fits, Table.load_ok_iff.2 ⟨h.forward, h.forwardValid⟩,
      Table.load_ok_iff.2 ⟨h.reverse, h.reverseValid⟩, ← h.longest]
    rfl

/-! ## Writing -/

/-- The header of a stored form with the blocks at two offsets, and nothing but the header and the
blocks. -/
def headerAt (d : Database) (forwardOffset reverseOffset : Nat) : Header :=
  { length := headerSize + d.forward.bytes.size + d.reverse.bytes.size
    flags := storedFlags d.longest
    forwardOffset := forwardOffset
    forwardLength := d.forward.bytes.size
    reverseOffset := reverseOffset
    reverseLength := d.reverse.bytes.size }

/-- The header of the form that is written. -/
def storedHeader (d : Database) : Header :=
  d.headerAt headerSize (headerSize + d.forward.bytes.size)

theorem serialize_eq (d : Database) :
    d.serialize = d.storedHeader.toBytes ++ (d.forward.bytes ++ d.reverse.bytes) := by
  rw [← Array.append_assoc]
  rfl

theorem serializeReverseFirst_eq (d : Database) :
    d.serializeReverseFirst = (d.headerAt (headerSize + d.reverse.bytes.size) headerSize).toBytes
      ++ (d.reverse.bytes ++ d.forward.bytes) := by
  rw [← Array.append_assoc]
  rfl

theorem storedFlags_le (longest : Bool) : storedFlags longest ≤ longestFlag := by
  cases longest <;> decide

theorem storedFlags_beq (longest : Bool) : (storedFlags longest == longestFlag) = longest := by
  cases longest <;> rfl

/-- Two blocks that pass all checks are small enough for a header. -/
theorem headerAt_fits (hf : d.forward.Valid .forward) (hr : d.reverse.Valid .reverse)
    {forwardOffset reverseOffset : Nat}
    (hforward : forwardOffset + d.forward.bytes.size ≤
      headerSize + d.forward.bytes.size + d.reverse.bytes.size)
    (hreverse : reverseOffset + d.reverse.bytes.size ≤
      headerSize + d.forward.bytes.size + d.reverse.bytes.size) :
    (d.headerAt forwardOffset reverseOffset).Fits := by
  have hflags := storedFlags_le d.longest
  have hfsize := hf.size_lt
  have hrsize := hr.size_lt
  unfold headerAt
  constructor <;> simp only [headerSize, longestFlag, maxWord] at * <;> omega

/-- A database is held by its header and two places behind it with its blocks. -/
theorem heldIn_of_headerAt {forwardOffset reverseOffset : Nat} {rest : Bytes}
    (hf : d.forward.Valid .forward) (hr : d.reverse.Valid .reverse)
    (hsize : rest.size = d.forward.bytes.size + d.reverse.bytes.size)
    (hstart : headerSize ≤ forwardOffset) (hstart' : headerSize ≤ reverseOffset)
    (hend : forwardOffset + d.forward.bytes.size ≤ headerSize + rest.size)
    (hend' : reverseOffset + d.reverse.bytes.size ≤ headerSize + rest.size)
    (hforward : ((d.headerAt forwardOffset reverseOffset).toBytes ++ rest).extract forwardOffset
      (forwardOffset + d.forward.bytes.size) = d.forward.bytes)
    (hreverse : ((d.headerAt forwardOffset reverseOffset).toBytes ++ rest).extract reverseOffset
      (reverseOffset + d.reverse.bytes.size) = d.reverse.bytes) :
    d.HeldIn ((d.headerAt forwardOffset reverseOffset).toBytes ++ rest) := by
  have hfits := headerAt_fits hf hr (by omega : forwardOffset + d.forward.bytes.size ≤ _)
    (by omega : reverseOffset + d.reverse.bytes.size ≤ _)
  have htotal : ((d.headerAt forwardOffset reverseOffset).toBytes ++ rest).size =
      headerSize + rest.size := Array.size_append
  refine ⟨by omega, Header.magic_toBytes _ rest, Header.version_toBytes _ rest, ?_, ?_, hf, ?_, hr,
    ?_⟩
  all_goals rw [Header.ofBytes_toBytes hfits]
  · rw [Header.fits_iff, htotal, hsize, ← Nat.add_assoc]
    rw [hsize, ← Nat.add_assoc] at hend hend'
    exact ⟨rfl, hstart, hend, hstart', hend', storedFlags_le _⟩
  · exact hforward.symm
  · exact hreverse.symm
  · exact (storedFlags_beq _).symm

theorem extract_first {a b c : Bytes} {n : Nat} (h : a.size = n) :
    (a ++ (b ++ c)).extract n (n + b.size) = b := by
  subst h
  rw [Array.extract_append_right]
  simp

theorem extract_second {a b c : Bytes} {n : Nat} (h : a.size = n) :
    (a ++ (b ++ c)).extract (n + b.size) (n + b.size + c.size) = c := by
  subst h
  rw [← Array.append_assoc, ← Array.size_append, Array.extract_append_right, Array.extract_size]

/-- The written form of a database whose blocks pass all checks holds that database. -/
theorem heldIn_serialize (hf : d.forward.Valid .forward) (hr : d.reverse.Valid .reverse) :
    d.HeldIn d.serialize := by
  have hsize : (d.forward.bytes ++ d.reverse.bytes).size =
      d.forward.bytes.size + d.reverse.bytes.size := Array.size_append
  rw [serialize_eq]
  apply heldIn_of_headerAt hf hr hsize
  · exact Nat.le_refl _
  · exact Nat.le_add_right _ _
  · omega
  · omega
  · exact extract_first (Header.size_toBytes _)
  · exact extract_second (Header.size_toBytes _)

/-- So does the form with the reverse block first. -/
theorem heldIn_serializeReverseFirst (hf : d.forward.Valid .forward)
    (hr : d.reverse.Valid .reverse) : d.HeldIn d.serializeReverseFirst := by
  have hsize : (d.reverse.bytes ++ d.forward.bytes).size =
      d.forward.bytes.size + d.reverse.bytes.size := by
    rw [Array.size_append, Nat.add_comm]
  rw [serializeReverseFirst_eq]
  apply heldIn_of_headerAt hf hr hsize
  · exact Nat.le_add_right _ _
  · exact Nat.le_refl _
  · omega
  · omega
  · exact extract_second (Header.size_toBytes _)
  · exact extract_first (Header.size_toBytes _)

theorem ofBytes_serialize (hf : d.forward.Valid .forward) (hr : d.reverse.Valid .reverse) :
    Header.ofBytes d.serialize = d.storedHeader := by
  rw [serialize_eq]
  exact Header.ofBytes_toBytes (headerAt_fits hf hr (by omega) (by omega)) _

/-! ## Where the blocks of a stored form lie -/

theorem HeldIn.size_forward (h : d.HeldIn b) :
    d.forward.bytes.size = (Header.ofBytes b).forwardLength := by
  obtain ⟨_, _, hle, _, _, _⟩ := Header.fits_iff.1 h.fits
  rw [h.forward, Array.size_extract]
  omega

theorem HeldIn.size_reverse (h : d.HeldIn b) :
    d.reverse.bytes.size = (Header.ofBytes b).reverseLength := by
  obtain ⟨_, _, _, _, hle, _⟩ := Header.fits_iff.1 h.fits
  rw [h.reverse, Array.size_extract]
  omega

theorem HeldIn.storedFlags (h : d.HeldIn b) : storedFlags d.longest = (Header.ofBytes b).flags := by
  obtain ⟨_, _, _, _, _, hle⟩ := Header.fits_iff.1 h.fits
  rw [h.longest]
  generalize (Header.ofBytes b).flags = flags at *
  unfold longestFlag at *
  rcases (by omega : flags = 0 ∨ flags = 1) with rfl | rfl
  · rfl
  · rfl

/-- The written form is the one that was read just if the blocks lie there without a gap, the
forward block first. -/
theorem HeldIn.serialize_eq_iff (h : d.HeldIn b) : d.serialize = b ↔
    (Header.ofBytes b).forwardOffset = headerSize ∧
      (Header.ofBytes b).reverseOffset = headerSize + (Header.ofBytes b).forwardLength ∧
        (Header.ofBytes b).length =
          headerSize + (Header.ofBytes b).forwardLength + (Header.ofBytes b).reverseLength := by
  constructor
  · intro heq
    have hheader := ofBytes_serialize h.forwardValid h.reverseValid
    rw [heq] at hheader
    rw [hheader]
    exact ⟨rfl, rfl, rfl⟩
  · rintro ⟨hforward, hreverse, hlength⟩
    have hsize := (Header.fits_iff.1 h.fits).1
    have hheader : d.storedHeader = Header.ofBytes b := by
      unfold storedHeader headerAt
      rw [h.size_forward, h.size_reverse, h.storedFlags, ← hlength, ← hreverse, ← hforward]
    have hblocks : d.forward.bytes ++ d.reverse.bytes = b.extract headerSize b.size := by
      rw [h.forward, h.reverse, hforward, hreverse, ← hlength, hsize, Array.extract_append_extract,
        Nat.min_eq_left (Nat.le_add_right _ _), Nat.max_eq_right (by omega)]
    rw [serialize_eq, hheader, Header.toBytes_ofBytes h.headerSize_le h.magic h.version, hblocks,
      Array.extract_append_extract, Nat.min_eq_left (Nat.zero_le _),
      Nat.max_eq_right h.headerSize_le, Array.extract_size]

/-! ## The laws -/

/-- The tables of a compiled database pass all checks on stored tables. -/
theorem valid_of_compiled {dest : Destination} {p : Pattern} {longest : Bool} {tuning : Tuning}
    (h : (compileWithListings dest p longest tuning).1 = .ok d) :
    d.forward.Valid .forward ∧ d.reverse.Valid .reverse := by
  obtain ⟨_, n, hn⟩ := compileWithListings_ok h
  obtain ⟨hneat, hback⟩ := hn.neat
  exact ⟨hn.forward.valid hneat, hn.reverse.valid hback⟩

/-- A compiled database is read back from its stored form as it is: with the same blocks and the
same choice of the end of a match, and so with the same stored form. -/
theorem deserialize_serialize {dest : Destination} {p : Pattern} {longest : Bool} {tuning : Tuning}
    (h : (compileWithListings dest p longest tuning).1 = .ok d) :
    deserialize d.serialize = .ok d := by
  obtain ⟨hforward, hreverse⟩ := valid_of_compiled h
  apply deserialize_ok_iff.2
  exact heldIn_serialize hforward hreverse

theorem deserialize_serialize_letters : ∃ d, compile letters = .ok d ∧
    deserialize d.serialize = .ok d := by
  obtain ⟨d, hd⟩ := exists_compile_letters
  have hrun : (compileWithListings {} letters true {}).1 = .ok d := hd
  exact ⟨d, hd, deserialize_serialize hrun⟩

/-- What is read from any form can be written and read again. The bytes are the same just if the
header of the form gives the layout of the written one. -/
theorem serialize_deserialize (h : deserialize b = .ok d) :
    deserialize d.serialize = .ok d ∧
      (d.serialize = b ↔
        (Header.ofBytes b).forwardOffset = headerSize ∧
          (Header.ofBytes b).reverseOffset = headerSize + (Header.ofBytes b).forwardLength ∧
            (Header.ofBytes b).length =
              headerSize + (Header.ofBytes b).forwardLength +
                (Header.ofBytes b).reverseLength) := by
  have held := deserialize_ok_iff.1 h
  constructor
  · apply deserialize_ok_iff.2
    exact heldIn_serialize held.forwardValid held.reverseValid
  · exact held.serialize_eq_iff

/-- With the reverse block first the same database is read, but the form is another one. -/
theorem serialize_deserialize_letters : ∃ d, compile letters = .ok d ∧
    deserialize d.serializeReverseFirst = .ok d ∧ deserialize d.serialize = .ok d ∧
      d.serialize ≠ d.serializeReverseFirst := by
  obtain ⟨d, hd⟩ := exists_compile_letters
  have hrun : (compileWithListings {} letters true {}).1 = .ok d := hd
  obtain ⟨hforward, hreverse⟩ := valid_of_compiled hrun
  have held := heldIn_serializeReverseFirst hforward hreverse
  have hread := deserialize_ok_iff.2 held
  obtain ⟨hagain, hiff⟩ := serialize_deserialize hread
  refine ⟨d, hd, hread, hagain, ?_⟩
  intro heq
  have hoffset := (hiff.1 heq).1
  rw [serializeReverseFirst_eq,
    Header.ofBytes_toBytes (headerAt_fits hforward hreverse (by omega) (by omega))] at hoffset
  have hempty : headerSize + d.reverse.bytes.size = headerSize := hoffset
  have hsize := hreverse.headerSize_le
  unfold Table.headerSize at hsize
  omega

/-- Whatever bytes are read, they are refused, or every scan over a table of the database reads
only what lies in its block, meets only states of the table, and reports a place where it looked. -/
theorem deserialize_guarded (b : Bytes) :
    (∃ fault, deserialize b = .error fault) ∨
      ∃ d, deserialize b = .ok d ∧ ∀ t, t = d.forward ∨ t = d.reverse → ∀ data : Bytes,
        (∀ start ≤ data.size, ∀ shortest,
          t.scanForward? data start shortest = some (t.scanForward data start shortest) ∧
            ∀ e, t.scanForward data start shortest = some e → start ≤ e ∧ e ≤ data.size) ∧
          ∀ lo hi, lo ≤ hi → hi ≤ data.size →
            t.scanReverse? data lo hi = some (t.scanReverse data lo hi) ∧
              ∀ s, t.scanReverse data lo hi = some s → lo ≤ s ∧ s ≤ hi := by
  cases h : deserialize b with
  | error fault => exact Or.inl ⟨fault, rfl⟩
  | ok d =>
    have held := deserialize_ok_iff.1 h
    refine Or.inr ⟨d, rfl, ?_⟩
    intro t ht data
    obtain ⟨direction, hvalid⟩ : ∃ direction, t.Valid direction := by
      rcases ht with rfl | rfl
      · exact ⟨_, held.forwardValid⟩
      · exact ⟨_, held.reverseValid⟩
    constructor
    · intro start hstart shortest
      exact ⟨hvalid.scanForward?_eq hstart shortest, fun e => Table.scanForward_bounds hstart⟩
    · intro lo hi hlo hhi
      exact ⟨hvalid.scanReverse?_eq hlo hhi, fun s => Table.scanReverse_bounds hlo⟩

theorem deserialize_guarded_letters : ∃ d, compile letters = .ok d ∧
    deserialize d.serializeReverseFirst = .ok d ∧
      d.forward.scanForward? #[98, 97] 1 false =
        some (d.forward.scanForward #[98, 97] 1 false) ∧
      d.reverse.scanReverse? #[98, 97] 1 2 = some (d.reverse.scanReverse #[98, 97] 1 2) := by
  obtain ⟨d, hd⟩ := exists_compile_letters
  have hrun : (compileWithListings {} letters true {}).1 = .ok d := hd
  obtain ⟨hforward, hreverse⟩ := valid_of_compiled hrun
  have hread := deserialize_ok_iff.2 (heldIn_serializeReverseFirst hforward hreverse)
  rcases deserialize_guarded d.serializeReverseFirst with ⟨fault, h⟩ | ⟨e, h, hscans⟩
  · rw [hread] at h
    cases h
  · obtain rfl : d = e := Except.ok.inj (hread.symm.trans h)
    have hf := (hscans d.forward (Or.inl rfl) #[98, 97]).1 1 (by decide) false
    have hr := (hscans d.reverse (Or.inr rfl) #[98, 97]).2 1 2 (by decide) (by decide)
    exact ⟨d, hd, hread, hf.1, hr.1⟩

end Database

end ByteRegex
