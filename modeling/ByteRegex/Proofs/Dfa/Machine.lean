-- Deterministic automata by what a scan can see of them. The states may be
-- sets of threads, numbers or offsets into a table: two automata agree if
-- they accept behind the same words of classes.
import ByteRegex.Dfa
import Mathlib.Tactic.Common

namespace ByteRegex

/-- A deterministic automaton, in whatever way its states are held. -/
structure Machine (σ : Type) where
  dead : σ
  /-- The start behind a byte that is no word byte. -/
  startOther : σ
  /-- The start behind a word byte. -/
  startWord : σ
  step : σ → Nat → σ
  accept : σ → AcceptFlags

/-- The classes of the symbols that a scan feeds to an automaton. -/
structure Reading where
  ofByte : UInt8 → Nat
  /-- The class of the start of the text. -/
  start : Nat
  /-- The class of the end of the text. -/
  stop : Nat

/-- All classes are below a bound. -/
structure Reading.Below (K : Reading) (k : Nat) : Prop where
  ofByte : ∀ b, K.ofByte b < k
  start : K.start < k
  stop : K.stop < k

namespace Machine

variable {σ τ υ : Type} {k : Nat} {M : Machine σ} {N : Machine τ} {O : Machine υ}

/-! ## Words -/

/-- When an automaton accepts behind a word. -/
def shows (M : Machine σ) (s : σ) (w : List Nat) : AcceptFlags := M.accept (w.foldl M.step s)

/-- No word of classes below `k` tells the two states from one another. -/
def Alike (k : Nat) (M : Machine σ) (s : σ) (N : Machine τ) (t : τ) : Prop :=
  ∀ w : List Nat, (∀ c ∈ w, c < k) → M.shows s w = N.shows t w

/-- The automaton accepts behind no word of classes below `k`. -/
def Quiet (k : Nat) (M : Machine σ) (s : σ) : Prop :=
  ∀ w : List Nat, (∀ c ∈ w, c < k) → M.shows s w = .never

theorem Alike.symm {s : σ} {t : τ} (h : Alike k M s N t) : Alike k N t M s :=
  fun w hw => (h w hw).symm

theorem Alike.trans {s : σ} {t : τ} {u : υ} (h : Alike k M s N t) (h' : Alike k N t O u) :
    Alike k M s O u := fun w hw => (h w hw).trans (h' w hw)

theorem Alike.accept {s : σ} {t : τ} (h : Alike k M s N t) : M.accept s = N.accept t :=
  h [] (by simp)

theorem Alike.step {s : σ} {t : τ} (h : Alike k M s N t) {c : Nat} (hc : c < k) :
    Alike k M (M.step s c) N (N.step t c) := by
  intro w hw
  refine h (c :: w) fun c' hc' => ?_
  rcases List.mem_cons.1 hc' with rfl | h1
  · exact hc
  · exact hw c' h1

theorem Alike.quiet {s : σ} {t : τ} (h : Alike k M s N t) (hs : Quiet k M s) : Quiet k N t :=
  fun w hw => (h w hw).symm.trans (hs w hw)

theorem Quiet.accept {s : σ} (h : Quiet k M s) : M.accept s = .never := h [] (by simp)

theorem Quiet.step {s : σ} (h : Quiet k M s) {c : Nat} (hc : c < k) : Quiet k M (M.step s c) := by
  intro w hw
  refine h (c :: w) fun c' hc' => ?_
  rcases List.mem_cons.1 hc' with rfl | h1
  · exact hc
  · exact hw c' h1

/-- States are alike if a relation holds between them that all steps keep. -/
theorem Alike.of_bisim {R : σ → τ → Prop} (haccept : ∀ s t, R s t → M.accept s = N.accept t)
    (hstep : ∀ s t c, R s t → c < k → R (M.step s c) (N.step t c)) {s : σ} {t : τ} (h : R s t) :
    Alike k M s N t := by
  intro w hw
  induction w generalizing s t with
  | nil => exact haccept s t h
  | cons c w ih =>
    exact ih (hstep s t c h (hw c List.mem_cons_self)) fun c' hc' =>
      hw c' (List.mem_cons_of_mem c hc')

/-- The two automata accept behind the same words, from their starts and from their dead states. -/
structure Agree (k : Nat) (M : Machine σ) (N : Machine τ) : Prop where
  dead : Alike k M M.dead N N.dead
  startOther : Alike k M M.startOther N N.startOther
  startWord : Alike k M M.startWord N N.startWord

theorem Agree.symm (h : Agree k M N) : Agree k N M :=
  ⟨h.dead.symm, h.startOther.symm, h.startWord.symm⟩

theorem Agree.trans (h : Agree k M N) (h' : Agree k N O) : Agree k M O :=
  ⟨h.dead.trans h'.dead, h.startOther.trans h'.startOther, h.startWord.trans h'.startWord⟩

/-! ## Texts -/

/-- The state before the byte at `start`. -/
def first (M : Machine σ) (K : Reading) (data : Bytes) (start : Nat) : σ :=
  if start = 0 then M.step M.startOther K.start
  else if isWordByte (data.getD (start - 1) 0) then M.startWord
  else M.startOther

/-- The state behind the next `n` bytes. -/
def after (M : Machine σ) (K : Reading) (data : Bytes) (start : Nat) : Nat → σ
  | 0 => M.first K data start
  | n + 1 => M.step (M.after K data start n) (K.ofByte (data.getD (start + n) 0))

/-- The automaton accepts in the state before the place `i`. -/
def acceptsIn (M : Machine σ) (K : Reading) (data : Bytes) (s : σ) (i : Nat) : Prop :=
  if i < data.size then (M.accept s).before (data.getD i 0) = true
  else (M.accept (M.step s K.stop)).any = true

/-- Started at `start` the automaton accepts before the place `i`. -/
def AcceptsAt (M : Machine σ) (K : Reading) (data : Bytes) (start i : Nat) : Prop :=
  M.acceptsIn K data (M.after K data start (i - start)) i

instance (M : Machine σ) (K : Reading) (data : Bytes) (s : σ) (i : Nat) :
    Decidable (M.acceptsIn K data s i) := by
  unfold acceptsIn
  infer_instance

variable {K : Reading} {data : Bytes} {start i : Nat}

theorem Agree.after (h : Agree k M N) (hK : K.Below k) (data : Bytes) (start n : Nat) :
    Alike k M (M.after K data start n) N (N.after K data start n) := by
  induction n with
  | zero =>
    rw [Machine.after, Machine.after, first, first]
    split
    · exact h.startOther.step hK.start
    · split
      · exact h.startWord
      · exact h.startOther
  | succ n ih => exact ih.step (hK.ofByte _)

/-- Automata that agree accept before the same places of a text. -/
theorem Agree.acceptsAt (h : Agree k M N) (hK : K.Below k) :
    M.AcceptsAt K data start i ↔ N.AcceptsAt K data start i := by
  have halike := h.after hK data start (i - start)
  rw [AcceptsAt, AcceptsAt, acceptsIn, acceptsIn, halike.accept, (halike.step hK.stop).accept]

theorem not_before_never (c : UInt8) : AcceptFlags.never.before c = false := by
  rw [AcceptFlags.before, AcceptFlags.never]
  simp

end Machine

/-- A deterministic automaton by the numbers of its states. -/
def Dfa.machine (d : Dfa) : Machine Nat :=
  ⟨0, d.startOther, d.startWord, d.step, fun s => (d.state s).accept⟩

/-- The classes of the symbols of a deterministic automaton. -/
def Dfa.reading (d : Dfa) : Reading := ⟨fun b => d.classOf b.toNat, d.startClass, d.endClass⟩

end ByteRegex
