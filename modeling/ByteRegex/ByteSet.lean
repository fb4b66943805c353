-- Sets of bytes, one bit for each byte: the operations that byte classes
-- need, the walk over the members in ascending order, and the runs of
-- neighbouring members.
import ByteRegex.Bytes

namespace ByteRegex

/-- A set of bytes. Bit `n` says whether byte `n` is a member. -/
structure ByteSet where
  bits : BitVec 256
deriving DecidableEq, Hashable

namespace ByteSet

/-- The byte is a member. -/
def test (s : ByteSet) (c : UInt8) : Bool := s.bits.getLsbD c.toNat

/-- Two sets with the same members are the same set. -/
theorem ext_test {a b : ByteSet} (h : ∀ c, a.test c = b.test c) : a = b := by
  obtain ⟨x⟩ := a
  obtain ⟨y⟩ := b
  congr 1
  apply BitVec.eq_of_getLsbD_eq
  intro i hi
  have := h (UInt8.ofNat i)
  simpa [test, UInt8.toNat_ofNat, Nat.mod_eq_of_lt hi] using this

/-! ## Building sets -/

/-- The bytes for which a test holds. -/
def ofPred (p : UInt8 → Bool) : ByteSet :=
  ⟨(BitVec.ofBoolListLE (allBytes.map p)).setWidth 256⟩

@[simp] theorem test_ofPred (p : UInt8 → Bool) (c : UInt8) : (ofPred p).test c = p c := by
  have hc := c.toNat_lt
  rw [test, ofPred, BitVec.getLsbD_setWidth, BitVec.getLsbD_ofBoolListLE]
  simp [allBytes, List.getD_eq_getElem?_getD, hc]

/-- No byte. -/
def empty : ByteSet := ⟨0⟩

/-- Every byte. -/
def full : ByteSet := ⟨BitVec.allOnes 256⟩

/-- One byte. -/
def single (c : UInt8) : ByteSet := ⟨BitVec.twoPow 256 c.toNat⟩

/-- The bytes from `lo` to `hi`, both included. -/
def range (lo hi : UInt8) : ByteSet := ofPred fun c => lo ≤ c && c ≤ hi

/-- The word bytes. -/
def word : ByteSet := ofPred isWordByte

/-! ## Set operations -/

def union (a b : ByteSet) : ByteSet := ⟨a.bits ||| b.bits⟩

def inter (a b : ByteSet) : ByteSet := ⟨a.bits &&& b.bits⟩

def compl (a : ByteSet) : ByteSet := ⟨~~~a.bits⟩

/-- The members of `a` that are not in `b`. -/
def diff (a b : ByteSet) : ByteSet := a.inter b.compl

def insert (s : ByteSet) (c : UInt8) : ByteSet := s.union (single c)

def erase (s : ByteSet) (c : UInt8) : ByteSet := s.diff (single c)

/-- The set with the bytes from `lo` to `hi` added. -/
def insertRange (s : ByteSet) (lo hi : UInt8) : ByteSet := s.union (range lo hi)

/-- The set with each byte of a list added. -/
def insertAll (s : ByteSet) (cs : List UInt8) : ByteSet := cs.foldl insert s

@[simp] theorem test_empty (c : UInt8) : empty.test c = false := by simp [empty, test]

@[simp] theorem test_full (c : UInt8) : full.test c = true := by
  have h : c.toNat < 256 := c.toNat_lt
  rw [full, test, BitVec.getLsbD_allOnes]
  exact decide_eq_true h

@[simp] theorem test_single (a c : UInt8) : (single a).test c = decide (a = c) := by
  have h : a.toNat < 256 := a.toNat_lt
  rw [single, test, BitVec.getLsbD_twoPow, decide_eq_true h, Bool.true_and]
  exact decide_eq_decide.2 (by rw [UInt8.toNat_inj])

@[simp] theorem test_range (lo hi c : UInt8) : (range lo hi).test c = (lo ≤ c && c ≤ hi) := by
  simp [range]

@[simp] theorem test_union (a b : ByteSet) (c : UInt8) :
    (a.union b).test c = (a.test c || b.test c) := by simp [union, test]

@[simp] theorem test_inter (a b : ByteSet) (c : UInt8) :
    (a.inter b).test c = (a.test c && b.test c) := by simp [inter, test]

@[simp] theorem test_compl (a : ByteSet) (c : UInt8) : a.compl.test c = !a.test c := by
  have := c.toNat_lt
  simp [compl, test, this]

@[simp] theorem test_diff (a b : ByteSet) (c : UInt8) :
    (a.diff b).test c = (a.test c && !b.test c) := by simp [diff]

/-! ## The members in order -/

/-- The members, in ascending order. -/
def toList (s : ByteSet) : List UInt8 := allBytes.filter s.test

theorem mem_toList (s : ByteSet) (c : UInt8) : c ∈ s.toList ↔ s.test c = true := by
  simp [toList, mem_allBytes]

/-- The number of members. -/
def count (s : ByteSet) : Nat := s.toList.length

def isEmpty (s : ByteSet) : Bool := s.bits == 0

def isFull (s : ByteSet) : Bool := s.bits == BitVec.allOnes 256

/-- The bits of a set, 64 to a word. -/
def words (s : ByteSet) : List (BitVec 64) :=
  (List.range 4).map fun i => s.bits.extractLsb' (64 * i) 64

/-- The lowest bit that is set in a row of words, of which the first is word `i`. -/
def lowest? (i : Nat) : List (BitVec 64) → Option Nat
  | [] => none
  | w :: rest => if w = 0 then lowest? (i + 1) rest else some (64 * i + w.ctz.toNat)

/-- The bits of a word from bit `n` on. -/
def bitsFrom (n : Nat) (w : BitVec 64) : BitVec 64 := w &&& ~~~(BitVec.twoPow 64 n - 1)

/-- The least member. -/
def first? (s : ByteSet) : Option UInt8 := (lowest? 0 s.words).map Nat.toUInt8

/-- The least member above `n`. -/
def next? (s : ByteSet) (n : Nat) : Option UInt8 :=
  if 255 ≤ n then none
  else
    let i := (n + 1) / 64
    match s.words.drop i with
    | [] => none
    | w :: rest => (lowest? i (bitsFrom ((n + 1) % 64) w :: rest)).map Nat.toUInt8

/-- `a` comes before `b` when `b` holds the first byte on which they differ. -/
def lt (a b : ByteSet) : Bool :=
  match allBytes.find? fun c => a.test c != b.test c with
  | some c => b.test c
  | none => false

/-- Every member of `a` is in `b`. -/
def subset (a b : ByteSet) : Bool := a.inter b == a

/-- Some byte is in both sets. -/
def overlaps (a b : ByteSet) : Bool := !(a.inter b).isEmpty

/-! ## Runs -/

/-- Groups an ascending list of numbers into maximal runs of neighbours. -/
def joinRuns : List Nat → List (Nat × Nat)
  | [] => []
  | n :: rest =>
    match joinRuns rest with
    | (lo, hi) :: runs => if lo = n + 1 then (n, hi) :: runs else (n, n) :: (lo, hi) :: runs
    | [] => [(n, n)]

/-- The maximal runs of neighbouring members, in ascending order. -/
def runs (s : ByteSet) : List (UInt8 × UInt8) :=
  (joinRuns (s.toList.map UInt8.toNat)).map fun r => (r.1.toUInt8, r.2.toUInt8)

end ByteSet

end ByteRegex
