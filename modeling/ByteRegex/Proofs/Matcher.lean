-- The matcher finds just what a pattern matches. A search hands ends over one
-- after another, until the receiver is done with one, and the ends that it
-- hands over are those of the matches. The rules for empty passes of a repeat
-- lose none.
import ByteRegex.Proofs.Matches

namespace ByteRegex.Matcher

variable {σ : Type} {data : Bytes}

/-! ## Runs -/

/-- One run after the other, unless the first is done. -/
def orElse (t u : Search σ) : Search σ := fun n s =>
  match t n s with
  | some (false, n, s) => u n s
  | r => r

/-- The run of going on and that of stopping, in the order of a repeat. -/
def prefer (greedy : Bool) (onward stop : Search σ) : Search σ :=
  if greedy then orElse onward stop else orElse stop onward

section Repeats

variable {body : Nat → (Nat → Search σ) → Search σ} {b : Bounds} {k : Nat → Search σ}
  {fuel count i : Nat} {last : Bool}

theorem repeatFrom_must (h : count < b.min) :
    repeatFrom body b k (fuel + 1) count i last =
      body i fun j => repeatFrom body b k fuel (count + 1) j (j == i) := by
  funext n s
  rw [repeatFrom, if_pos h]

theorem repeatFrom_full {top : Nat} (h : b.min ≤ count) (hmax : b.max = some top)
    (htop : top ≤ count) : repeatFrom body b k (fuel + 1) count i last = k i := by
  funext n s
  simp only [repeatFrom, if_neg (Nat.not_lt.2 h), hmax, if_pos htop]

theorem repeatFrom_more {top : Nat} (h : b.min ≤ count) (hmax : b.max = some top)
    (htop : count < top) :
    repeatFrom body b k (fuel + 1) count i last =
      prefer b.greedy (body i fun j => repeatFrom body b k fuel (count + 1) j (j == i)) (k i) := by
  funext n s
  simp only [repeatFrom, if_neg (Nat.not_lt.2 h), hmax, if_neg (Nat.not_le.2 htop), prefer]
  cases b.greedy <;> rfl

theorem repeatFrom_leave (h : b.min ≤ count) (hmax : b.max = none)
    (hlast : count ≠ 0 ∧ last = true) : repeatFrom body b k (fuel + 1) count i last = k i := by
  funext n s
  simp only [repeatFrom, if_neg (Nat.not_lt.2 h), hmax, if_pos hlast]

theorem repeatFrom_loop (h : b.min ≤ count) (hmax : b.max = none)
    (hlast : ¬ (count ≠ 0 ∧ last = true)) :
    repeatFrom body b k (fuel + 1) count i last =
      prefer b.greedy
        (body i fun j n s =>
          if j = i then some (false, n, s)
          else repeatFrom body b k fuel (count + 1) j (j == i) n s)
        (k i) := by
  funext n s
  simp only [repeatFrom, if_neg (Nat.not_lt.2 h), hmax, if_neg hlast, prefer]
  cases b.greedy <;> rfl

end Repeats

theorem searchAlt_cons (p : Pattern) (ps : List Pattern) (i : Nat) (k : Nat → Search σ) :
    searchAlt data (p :: ps) i k = orElse (search data p i k) (searchAlt data ps i k) := by
  funext n s
  rw [searchAlt]
  rfl

/-! ## Handing over -/

/-- `k` takes the ends of a list one after another, until it is done with one. The numbers of
steps do not matter. -/
inductive Hands (k : Nat → Search σ) : List Nat → σ → Bool → σ → Prop
  | nil {s : σ} : Hands k [] s false s
  | pass {j n n' : Nat} {js : List Nat} {s s' s'' : σ} {b : Bool} :
      k j n s = some (false, n', s') → Hands k js s' b s'' → Hands k (j :: js) s b s''
  | done {j n n' : Nat} {s s' : σ} : k j n s = some (true, n', s') → Hands k [j] s true s'

theorem Hands.append {k : Nat → Search σ} {js ls : List Nat} {s s' s'' : σ} {b : Bool}
    (h : Hands k js s false s') (h' : Hands k ls s' b s'') : Hands k (js ++ ls) s b s'' := by
  generalize hf : false = c at h
  induction h with
  | nil => exact h'
  | pass hk _ ih => exact .pass hk (ih h' hf)
  | done _ => cases hf

/-- A run that finishes hands over ends for which `P` holds, and all of them unless `k` is done
before. -/
def Answers (k : Nat → Search σ) (P : Nat → Prop) (t : Search σ) : Prop :=
  ∀ n s b n' s', t n s = some (b, n', s') →
    ∃ js, Hands k js s b s' ∧ (∀ j ∈ js, P j) ∧ (b = false → ∀ j, P j → j ∈ js)

namespace Answers

variable {k k' : Nat → Search σ} {P Q : Nat → Prop} {t u : Search σ}

theorem congr (h : Answers k P t) (hPQ : ∀ j, P j ↔ Q j) : Answers k Q t := by
  intro n s b n' s' hr
  obtain ⟨js, hh, h1, h2⟩ := h n s b n' s' hr
  exact ⟨js, hh, fun j hj => (hPQ j).1 (h1 j hj), fun hb j hj => h2 hb j ((hPQ j).2 hj)⟩

theorem of_eq (h : Answers k P u) (htu : ∀ n s, t n s = u n s) : Answers k P t := by
  intro n s b n' s' hr
  exact h n s b n' s' (htu n s ▸ hr)

theorem fail (hP : ∀ j, ¬ P j) : Answers k P fun n s => some (false, n, s) := by
  intro n s b n' s' hr
  simp only [Option.some.injEq, Prod.mk.injEq] at hr
  obtain ⟨rfl, _, rfl⟩ := hr
  exact ⟨[], .nil, by simp, fun _ j hj => absurd hj (hP j)⟩

/-- The run that hands over one end. -/
theorem hand (j : Nat) : Answers k (· = j) (k j) := by
  intro n s b n' s' hr
  refine ⟨[j], ?_, by simp, by simp⟩
  cases b with
  | false => exact .pass hr .nil
  | true => exact .done hr

theorem proceed {holds : Bool} {j : Nat} :
    Answers k (fun l => holds = true ∧ l = j) (Matcher.proceed holds k j) := by
  cases holds with
  | true => exact (hand j).congr (by simp)
  | false => exact fail (by simp)

theorem orElse (ht : Answers k P t) (hu : Answers k Q u) :
    Answers k (fun j => P j ∨ Q j) (Matcher.orElse t u) := by
  intro n s b n' s' hr
  unfold Matcher.orElse at hr
  split at hr
  · rename_i n1 s1 h1
    obtain ⟨js, hh, hP, hall⟩ := ht n s false n1 s1 h1
    obtain ⟨ls, hh', hQ, hall'⟩ := hu n1 s1 b n' s' hr
    refine ⟨js ++ ls, hh.append hh', ?_, ?_⟩
    · intro j hj
      exact (List.mem_append.1 hj).imp (hP j) (hQ j)
    · intro hb j hj
      exact List.mem_append.2 (hj.imp (hall rfl j) (hall' hb j))
  · rename_i hne
    obtain ⟨js, hh, hP, _⟩ := ht n s b n' s' hr
    refine ⟨js, hh, fun j hj => Or.inl (hP j hj), fun hb => ?_⟩
    rw [hb] at hr
    exact absurd hr (hne n' s')

theorem prefer (greedy : Bool) (ht : Answers k P t) (hu : Answers k Q u) :
    Answers k (fun j => P j ∨ Q j) (Matcher.prefer greedy t u) := by
  cases greedy with
  | true => exact ht.orElse hu
  | false => exact (hu.orElse ht).congr fun j => or_comm

/-- The receiver of a run may itself be a run for each end. -/
theorem bind {R : Nat → Nat → Prop} (ht : Answers k' P t) (hk : ∀ j, Answers k (R j) (k' j)) :
    Answers k (fun l => ∃ j, P j ∧ R j l) t := by
  intro n s b n' s' hr
  obtain ⟨js, hh, hP, hall⟩ := ht n s b n' s' hr
  have key : ∃ ls, Hands k ls s b s' ∧ (∀ l ∈ ls, ∃ j ∈ js, R j l) ∧
      (b = false → ∀ j ∈ js, ∀ l, R j l → l ∈ ls) := by
    clear hr hP hall
    induction hh with
    | nil => exact ⟨[], .nil, by simp, by simp⟩
    | @pass j n n' js s s' s'' b hj _ ih =>
      obtain ⟨ls, h1, h2, h3⟩ := hk j n s false n' s' hj
      obtain ⟨ls', h4, h5, h6⟩ := ih
      refine ⟨ls ++ ls', h1.append h4, ?_, ?_⟩
      · intro l hl
        rcases List.mem_append.1 hl with hl | hl
        · exact ⟨j, List.mem_cons_self, h2 l hl⟩
        · obtain ⟨i, hi, hR⟩ := h5 l hl
          exact ⟨i, List.mem_cons_of_mem _ hi, hR⟩
      · intro hb i hi l hl
        rcases List.mem_cons.1 hi with rfl | hi
        · exact List.mem_append_left _ (h3 rfl l hl)
        · exact List.mem_append_right _ (h6 hb i hi l hl)
    | @done j n n' s s' hj =>
      obtain ⟨ls, h1, h2, _⟩ := hk j n s true n' s' hj
      exact ⟨ls, h1, fun l hl => ⟨j, List.mem_cons_self, h2 l hl⟩, fun hb => by cases hb⟩
  obtain ⟨ls, h1, h2, h3⟩ := key
  refine ⟨ls, h1, ?_, ?_⟩
  · intro l hl
    obtain ⟨j, hj, hR⟩ := h2 l hl
    exact ⟨j, hP j hj, hR⟩
  · rintro hb l ⟨j, hj, hR⟩
    exact h3 hb j (hall hb j hj) l hR

/-- A run may first count a step, if any are left. -/
theorem count (h : Answers k P t) :
    Answers k P fun n s => if maxSteps ≤ n then none else t (n + 1) s := by
  intro n s b n' s' hr
  dsimp only at hr
  split at hr
  · cases hr
  · exact h (n + 1) s b n' s' hr

end Answers

/-! ## Repeats -/

/-- What is left of a repeat of which `count` passes are done, by the rules for empty passes. -/
inductive Left (R : Nat → Nat → Prop) (b : Bounds) : Nat → Bool → Nat → Nat → Prop
  | must {count i m j : Nat} {last : Bool} :
      count < b.min → R i m → Left R b (count + 1) (m == i) m j → Left R b count last i j
  | stop {count i : Nat} {last : Bool} : b.min ≤ count → Left R b count last i i
  | more {count top i m j : Nat} {last : Bool} :
      b.min ≤ count → b.max = some top → count < top → R i m →
      Left R b (count + 1) (m == i) m j → Left R b count last i j
  | loop {count i m j : Nat} {last : Bool} :
      b.min ≤ count → b.max = none → ¬ (count ≠ 0 ∧ last = true) → R i m → m ≠ i →
      Left R b (count + 1) (m == i) m j → Left R b count last i j

namespace Left

variable {R : Nat → Nat → Prop} {b : Bounds} {count i j : Nat} {last : Bool}

theorem must_iff (hmin : count < b.min) :
    Left R b count last i j ↔ ∃ m, R i m ∧ Left R b (count + 1) (m == i) m j := by
  constructor
  · intro h
    cases h with
    | must _ hm hl => exact ⟨_, hm, hl⟩
    | stop h => omega
    | more h => omega
    | loop h => omega
  · rintro ⟨m, hm, hl⟩
    exact .must hmin hm hl

/-- There is a pass that may be made or not. -/
theorem more_iff {top : Nat} (hmin : b.min ≤ count) (hmax : b.max = some top) (htop : count < top) :
    Left R b count last i j ↔ (∃ m, R i m ∧ Left R b (count + 1) (m == i) m j) ∨ j = i := by
  constructor
  · intro h
    cases h with
    | must h => omega
    | stop _ => exact Or.inr rfl
    | more _ _ _ hm hl => exact Or.inl ⟨_, hm, hl⟩
    | loop _ h =>
      rw [hmax] at h
      cases h
  · rintro (⟨m, hm, hl⟩ | rfl)
    · exact .more hmin hmax htop hm hl
    · exact .stop hmin

theorem full_iff {top : Nat} (hmin : b.min ≤ count) (hmax : b.max = some top) (htop : top ≤ count) :
    Left R b count last i j ↔ j = i := by
  constructor
  · intro h
    cases h with
    | must h => omega
    | stop _ => rfl
    | more _ h =>
      obtain rfl := Option.some.inj (hmax.symm.trans h)
      omega
    | loop _ h =>
      rw [hmax] at h
      cases h
  · rintro rfl
    exact .stop hmin

/-- Behind an empty pass there is no other. -/
theorem leave_iff (hmin : b.min ≤ count) (hmax : b.max = none) (hlast : count ≠ 0 ∧ last = true) :
    Left R b count last i j ↔ j = i := by
  constructor
  · intro h
    cases h with
    | must h => omega
    | stop _ => rfl
    | more _ h =>
      rw [hmax] at h
      cases h
    | loop _ _ h => exact absurd hlast h
  · rintro rfl
    exact .stop hmin

/-- There is a pass that may be made or not, and if it is made it is not empty. -/
theorem loop_iff (hmin : b.min ≤ count) (hmax : b.max = none)
    (hlast : ¬ (count ≠ 0 ∧ last = true)) :
    Left R b count last i j ↔
      (∃ m, R i m ∧ m ≠ i ∧ Left R b (count + 1) (m == i) m j) ∨ j = i := by
  constructor
  · intro h
    cases h with
    | must h => omega
    | stop _ => exact Or.inr rfl
    | more _ h =>
      rw [hmax] at h
      cases h
    | loop _ _ _ hm hne hl => exact Or.inl ⟨_, hm, hne, hl⟩
  · rintro (⟨m, hm, hne, hl⟩ | rfl)
    · exact .loop hmin hmax hlast hm hne hl
    · exact .stop hmin

end Left

theorem repeatFrom_answers {R : Nat → Nat → Prop}
    {body : Nat → (Nat → Search σ) → Search σ} (hbody : ∀ i k, Answers k (R i) (body i k))
    (b : Bounds) (k : Nat → Search σ) (fuel count i : Nat) (last : Bool) :
    Answers k (Left R b count last i) (repeatFrom body b k fuel count i last) := by
  induction fuel generalizing count i last with
  | zero =>
    intro n s b n' s' hr
    cases hr
  | succ fuel ih =>
    have hmore := (hbody i _).bind fun j => ih (count + 1) j (j == i)
    have hloop : Answers k (fun l => ∃ j, R i j ∧ j ≠ i ∧ Left R b (count + 1) (j == i) j l)
        (body i fun j n s =>
          if j = i then some (false, n, s)
          else repeatFrom body b k fuel (count + 1) j (j == i) n s) := by
      refine (hbody i _).bind (R := fun j l => j ≠ i ∧ Left R b (count + 1) (j == i) j l)
        fun j => ?_
      by_cases hj : j = i
      · refine (Answers.fail fun l hl => ?_).of_eq fun n s => if_pos hj
        exact hl.1 hj
      · refine ((ih (count + 1) j (j == i)).congr fun l => ?_).of_eq fun n s => if_neg hj
        exact (and_iff_right hj).symm
    by_cases hmin : count < b.min
    · rw [repeatFrom_must hmin]
      exact hmore.congr fun j => (Left.must_iff hmin).symm
    have hle := Nat.le_of_not_lt hmin
    cases hmax : b.max with
    | some top =>
      by_cases htop : count < top
      · rw [repeatFrom_more hle hmax htop]
        exact (hmore.prefer _ (Answers.hand i)).congr fun j => (Left.more_iff hle hmax htop).symm
      · have htop := Nat.le_of_not_lt htop
        rw [repeatFrom_full hle hmax htop]
        exact (Answers.hand i).congr fun j => (Left.full_iff hle hmax htop).symm
    | none =>
      by_cases hlast : count ≠ 0 ∧ last = true
      · rw [repeatFrom_leave hle hmax hlast]
        exact (Answers.hand i).congr fun j => (Left.leave_iff hle hmax hlast).symm
      · rw [repeatFrom_loop hle hmax hlast]
        exact (hloop.prefer _ (Answers.hand i)).congr fun j => (Left.loop_iff hle hmax hlast).symm

namespace Left

variable {R : Nat → Nat → Prop} {b : Bounds}

theorem passes {count i j : Nat} {last : Bool} (h : Left R b count last i j) :
    ∃ k, b.min ≤ count + k ∧ (∀ top, b.max = some top → b.min ≤ top → count ≤ top →
      count + k ≤ top) ∧ Passes R k i j := by
  induction h with
  | must hlt hm _ ih =>
    obtain ⟨k, h1, h2, h3⟩ := ih
    refine ⟨k + 1, by omega, fun top ht hmin hle => ?_, _, hm, h3⟩
    have := h2 top ht hmin (by omega)
    omega
  | stop hmin => exact ⟨0, hmin, fun _ _ _ hle => hle, rfl⟩
  | more _ hmax hlt hm _ ih =>
    obtain ⟨k, h1, h2, h3⟩ := ih
    refine ⟨k + 1, by omega, fun top ht hmin hle => ?_, _, hm, h3⟩
    rw [hmax, Option.some.injEq] at ht
    have := h2 top (ht ▸ hmax) hmin (by omega)
    omega
  | loop _ hmax _ hm _ _ ih =>
    obtain ⟨k, h1, h2, h3⟩ := ih
    refine ⟨k + 1, by omega, fun top ht => ?_, _, hm, h3⟩
    rw [hmax] at ht
    cases ht

theorem of_bounded {top k count i j : Nat} {last : Bool} (hmax : b.max = some top)
    (h : Passes R k i j) (hmin : b.min ≤ count + k) (htop : count + k ≤ top) :
    Left R b count last i j := by
  induction k generalizing count i last with
  | zero => exact (show i = j from h) ▸ .stop hmin
  | succ k ih =>
    obtain ⟨m, hm, hk⟩ := h
    have hrest : Left R b (count + 1) (m == i) m j := ih hk (by omega) (by omega)
    by_cases hlt : count < b.min
    · exact .must hlt hm hrest
    · exact .more (by omega) hmax (by omega) hm hrest

/-- In the loop empty passes can be left out. -/
theorem of_loop {k count i j : Nat} {last : Bool} (hmax : b.max = none) (h : Passes R k i j)
    (hmin : b.min ≤ count) (hlast : ¬ (count ≠ 0 ∧ last = true)) : Left R b count last i j := by
  induction k generalizing count i last with
  | zero => exact (show i = j from h) ▸ .stop hmin
  | succ k ih =>
    obtain ⟨m, hm, hk⟩ := h
    by_cases hmi : m = i
    · rw [hmi] at hk
      exact ih hk hmin hlast
    · exact .loop hmin hmax hlast hm hmi (ih hk (by omega) (by simp [hmi]))

/-- The last pass that must be made may be taken to be the first one that is not empty. -/
theorem of_last {k count i j : Nat} {last : Bool} (hmax : b.max = none)
    (h : Passes R (k + 1) i j) (hmin : count + 1 = b.min) : Left R b count last i j := by
  induction k with
  | zero =>
    obtain ⟨m, hm, hk⟩ := h
    exact .must (by omega) hm ((show m = j from hk) ▸ .stop (by omega))
  | succ k ih =>
    obtain ⟨m, hm, hk⟩ := h
    by_cases hmi : m = i
    · rw [hmi] at hk
      exact ih hk
    · exact .must (by omega) hm (of_loop hmax hk (by omega) (by simp [hmi]))

theorem of_unbounded {k count i j : Nat} {last : Bool} (hmax : b.max = none)
    (h : Passes R k i j) (hlt : count < b.min) (hmin : b.min ≤ count + k) :
    Left R b count last i j := by
  induction k generalizing count i last with
  | zero => omega
  | succ k ih =>
    by_cases heq : count + 1 = b.min
    · exact of_last hmax h heq
    · obtain ⟨m, hm, hk⟩ := h
      exact .must hlt hm (ih hk (by omega) (by omega))

theorem iff_passes {i j : Nat} (hb : ∀ top, b.max = some top → b.min ≤ top) :
    Left R b 0 false i j ↔
      ∃ k, b.min ≤ k ∧ (∀ top, b.max = some top → k ≤ top) ∧ Passes R k i j := by
  constructor
  · intro h
    obtain ⟨k, h1, h2, h3⟩ := h.passes
    refine ⟨k, by omega, fun top ht => ?_, h3⟩
    have := h2 top ht (hb top ht) (Nat.zero_le top)
    omega
  · rintro ⟨k, h1, h2, h3⟩
    rcases hmax : b.max with _ | top
    · by_cases h0 : b.min = 0
      · exact of_loop hmax h3 (by omega) (by simp)
      · exact of_unbounded hmax h3 (by omega) (by omega)
    · have := h2 top hmax
      exact of_bounded hmax h3 (by omega) (by omega)

end Left

/-! ## Patterns -/

theorem searchSeq_answers {ps : List Pattern}
    (hps : ∀ p ∈ ps, ∀ i (k : Nat → Search σ), Answers k (Matches data p i) (search data p i k))
    (i : Nat) (k : Nat → Search σ) :
    Answers k (MatchesSeq data ps i) (searchSeq data ps i k) := by
  induction ps generalizing i with
  | nil => exact ((Answers.hand i).congr fun j => Iff.rfl).of_eq fun n s => by rw [searchSeq]
  | cons p ps ih =>
    refine (((hps p (by simp) i _).bind fun j => ih (fun q hq => hps q (by simp [hq])) j).congr
      fun j => Iff.rfl).of_eq fun n s => by rw [searchSeq]

theorem searchAlt_answers {ps : List Pattern}
    (hps : ∀ p ∈ ps, ∀ i (k : Nat → Search σ), Answers k (Matches data p i) (search data p i k))
    (i : Nat) (k : Nat → Search σ) :
    Answers k (MatchesAlt data ps i) (searchAlt data ps i k) := by
  induction ps with
  | nil => exact (Answers.fail fun j h => h).of_eq fun n s => by rw [searchAlt]
  | cons p ps ih =>
    rw [searchAlt_cons]
    exact ((hps p (by simp) i k).orElse (ih fun q hq => hps q (by simp [hq]))).congr
      fun j => Iff.rfl

/-- A search hands over the ends of the matches. -/
theorem search_answers {p : Pattern} (hp : p.Bounded) (i : Nat) (k : Nat → Search σ) :
    Answers k (Matches data p i) (search data p i k) := by
  induction p using Pattern.induction generalizing i k with
  | chars loc ranges negated =>
    rcases hd : Utf8.decodeAt data i with _ | ⟨c, len⟩
    · refine ((Answers.fail ?_).count).of_eq fun n s => by rw [search, hd]
      rintro j ⟨c, hc, _, hs, _⟩
      have := Utf8.decodeAt_eq_some_iff.2 ⟨hc, hs, rfl⟩
      rw [hd] at this
      cases this
    · refine ((Answers.proceed.congr fun j => ?_).count).of_eq fun n s => by rw [search, hd]
      obtain ⟨hc, hs, rfl⟩ := Utf8.decodeAt_eq_some_iff.1 hd
      constructor
      · rintro ⟨ha, rfl⟩
        exact ⟨c, hc, ha, hs, rfl⟩
      · rintro ⟨c', hc', ha, hs', rfl⟩
        have := Utf8.decodeAt_eq_some_iff.2 ⟨hc', hs', rfl⟩
        rw [hd, Option.some.injEq, Prod.mk.injEq] at this
        obtain ⟨rfl, hlen⟩ := this
        exact ⟨ha, rfl⟩
  | bytes loc ranges =>
    rcases hd : data[i]? with _ | b
    · refine ((Answers.fail ?_).count).of_eq fun n s => by rw [search, hd]
      rintro j ⟨b, hb, _⟩
      rw [hd] at hb
      cases hb
    · refine ((Answers.proceed.congr fun j => ?_).count).of_eq fun n s => by rw [search, hd]
      simp only [Matches, hd, Option.some.injEq, exists_eq_left']
  | seq loc parts ih =>
    have hparts := (Pattern.allNodes_seq.1 hp).2
    exact ((searchSeq_answers (fun q hq => ih q hq (hparts q hq)) i k).count).of_eq
      fun n s => by rw [search]
  | alt loc parts ih =>
    have hparts := (Pattern.allNodes_alt.1 hp).2
    exact ((searchAlt_answers (fun q hq => ih q hq (hparts q hq)) i k).count).of_eq
      fun n s => by rw [search]
  | rep loc body min max greedy ih =>
    obtain ⟨hself, hbody⟩ := Pattern.allNodes_rep.1 hp
    refine (((repeatFrom_answers (ih hbody) ⟨min, max, greedy⟩ k (maxSteps + 1) 0 i false).congr
      fun j => Left.iff_passes ?_).count).of_eq fun n s => by rw [search]
    rintro top rfl
    exact hself
  | anchor loc atEnd =>
    refine ((Answers.proceed.congr fun j => ?_).count).of_eq fun n s => by rw [search]
    cases atEnd <;> simp [Matches]
  | wordEdge loc negated =>
    exact ((Answers.proceed.congr fun j => Iff.rfl).count).of_eq fun n s => by rw [search]
  | empty loc => exact ((Answers.hand i).count).of_eq fun n s => by rw [search]
  | backref loc group => exact ((Answers.fail fun j h => h).count).of_eq fun n s => by rw [search]
  | around loc body behind negated =>
    exact ((Answers.fail fun j h => h).count).of_eq fun n s => by rw [search]

/-! ## All matches -/

theorem Hands.noteEnd {js : List Nat} {s s' : Std.HashSet Nat} {b : Bool}
    (h : Hands Matcher.noteEnd js s b s') : b = false ∧ ∀ e, e ∈ s' ↔ e ∈ s ∨ e ∈ js := by
  induction h with
  | nil => simp
  | pass hk _ ih =>
    simp only [Matcher.noteEnd, Option.some.injEq, Prod.mk.injEq, true_and] at hk
    obtain ⟨_, rfl⟩ := hk
    refine ⟨ih.1, fun e => ?_⟩
    rw [ih.2 e]
    simp only [Std.HashSet.mem_insert, beq_iff_eq, List.mem_cons]
    grind
  | done hk => simp [Matcher.noteEnd] at hk

theorem mem_matchesFrom {p : Pattern} (hp : p.Bounded) {count i n : Nat} {M : List Span}
    (h : matchesFrom data p count i n = some M) (m : Span) :
    m ∈ M ↔ i ≤ m.start ∧ m.start < i + count ∧ Matches data p m.start m.stop := by
  induction count generalizing i n M with
  | zero =>
    simp only [matchesFrom, Option.some.injEq] at h
    subst h
    simp only [List.not_mem_nil, Nat.add_zero, false_iff]
    omega
  | succ count ih =>
    unfold matchesFrom at h
    split at h
    · cases h
    · rename_i b n' ends hs
      obtain ⟨rest, hrest, rfl⟩ := Option.map_eq_some_iff.1 h
      obtain ⟨js, hh, h1, h2⟩ := search_answers hp i noteEnd _ _ _ _ _ hs
      obtain ⟨hb, hends⟩ := hh.noteEnd
      have hmem : ∀ j, j ∈ ends ↔ Matches data p i j := by
        intro j
        rw [hends]
        simp only [Std.HashSet.not_mem_empty, false_or]
        exact ⟨h1 j, h2 hb j⟩
      simp only [List.mem_append, List.mem_map, mem_sortUnique, Std.HashSet.mem_toList, hmem,
        ih hrest]
      constructor
      · rintro (⟨j, hj, rfl⟩ | ⟨h3, h4, h5⟩)
        · exact ⟨Nat.le_refl i, by simp only; omega, hj⟩
        · exact ⟨by omega, by omega, h5⟩
      · rintro ⟨h3, h4, h5⟩
        rcases Nat.eq_or_lt_of_le h3 with rfl | h3
        · exact Or.inl ⟨m.stop, h5, rfl⟩
        · exact Or.inr ⟨h3, by omega, h5⟩

/-- All matches are the spans within the text between which it matches the pattern. -/
theorem mem_allMatches {p : Pattern} (hp : p.Ranged) {M : List Span}
    (h : allMatches data p = some M) (m : Span) :
    m ∈ M ↔ m.start ≤ data.size ∧ Matches data p m.start m.stop := by
  rw [mem_matchesFrom hp.bounded h]
  constructor
  · rintro ⟨_, h1, h2⟩
    exact ⟨by omega, h2⟩
  · rintro ⟨h1, h2⟩
    exact ⟨by omega, by omega, h2⟩

/-- The order in which spans are listed: by their start, and then by their end. -/
def Before (m m' : Span) : Prop := m.start < m'.start ∨ m.start = m'.start ∧ m.stop < m'.stop

theorem pairwise_matchesFrom {p : Pattern} (hp : p.Bounded) {count i n : Nat} {M : List Span}
    (h : matchesFrom data p count i n = some M) : M.Pairwise Before := by
  induction count generalizing i n M with
  | zero =>
    simp only [matchesFrom, Option.some.injEq] at h
    subst h
    exact .nil
  | succ count ih =>
    unfold matchesFrom at h
    split at h
    · cases h
    · obtain ⟨rest, hrest, rfl⟩ := Option.map_eq_some_iff.1 h
      refine List.pairwise_append.2 ⟨?_, ih hrest, fun m hm m' hm' => Or.inl ?_⟩
      · exact List.pairwise_map.2 ((pairwise_sortUnique _).imp fun hlt => Or.inr ⟨rfl, hlt⟩)
      · obtain ⟨j, _, rfl⟩ := List.mem_map.1 hm
        exact ((mem_matchesFrom hp hrest m').1 hm').1

/-- For a pattern whose repeats have valid bounds, a search that does not run out of steps lists
the spans of the text that match the pattern, each of them once and in order. So the rules for
empty passes of a repeat lose no span. -/
theorem allMatches_exact {p : Pattern} (hp : p.Bounded) {M : List Span}
    (h : allMatches data p = some M) :
    M.Pairwise Before ∧
      ∀ m : Span, m ∈ M ↔
        m.start ≤ m.stop ∧ m.stop ≤ data.size ∧ Matches data p m.start m.stop := by
  refine ⟨pairwise_matchesFrom hp h, fun m => ?_⟩
  rw [mem_matchesFrom hp h]
  constructor
  · rintro ⟨_, hstart, hm⟩
    obtain ⟨hle, hsize, _⟩ := hm.bounds
    exact ⟨hle, hsize (by omega), hm⟩
  · rintro ⟨hle, hsize, hm⟩
    exact ⟨Nat.zero_le _, by omega, hm⟩

/-- The pattern `(?:|a){2,}`, whose first pass is empty by preference. -/
def emptyFirst : Pattern :=
  .rep none (.alt none [.empty none, .bytes none [(97, 97)]]) 2 none true

theorem allMatches_exact_emptyFirst : ∃ M, emptyFirst.Bounded ∧
    allMatches #[97, 97] emptyFirst = some M ∧ M.Pairwise Before ∧ ⟨0, 2⟩ ∈ M ∧ ⟨1, 1⟩ ∈ M := by
  have hp : emptyFirst.Bounded := Pattern.Ranged.bounded (Pattern.ranged_of_checkRanges rfl)
  obtain ⟨M, hM⟩ : ∃ M, allMatches #[97, 97] emptyFirst = some M := ⟨_, rfl⟩
  obtain ⟨hordered, hmem⟩ := allMatches_exact hp hM
  have hfirst : Matches #[97, 97] (.alt none [.empty none, .bytes none [(97, 97)]]) 0 1 :=
    Or.inr (Or.inl ⟨97, rfl, rfl, rfl⟩)
  have hsecond : Matches #[97, 97] (.alt none [.empty none, .bytes none [(97, 97)]]) 1 2 :=
    Or.inr (Or.inl ⟨97, rfl, rfl, rfl⟩)
  have hempty : Matches #[97, 97] (.alt none [.empty none, .bytes none [(97, 97)]]) 1 1 :=
    Or.inl rfl
  refine ⟨M, hp, hM, hordered, (hmem ⟨0, 2⟩).2 ⟨by decide, by decide, ?_⟩,
    (hmem ⟨1, 1⟩).2 ⟨by decide, by decide, ?_⟩⟩
  · exact ⟨2, Nat.le_refl 2, by simp, 1, hfirst, 2, hsecond, rfl⟩
  · exact ⟨2, Nat.le_refl 2, by simp, 1, hempty, 1, hempty, rfl⟩

/-! ## The first match -/

theorem Hands.takeEnd {js : List Nat} {s s' : Option Nat} {b : Bool}
    (h : Hands Matcher.takeEnd js s b s') :
    (b = false ∧ js = [] ∧ s' = s) ∨ ∃ j, b = true ∧ js = [j] ∧ s' = some j := by
  cases h with
  | nil => exact Or.inl ⟨rfl, rfl, rfl⟩
  | pass hk _ => simp [Matcher.takeEnd] at hk
  | done hk =>
    simp only [Matcher.takeEnd, Option.some.injEq, Prod.mk.injEq, true_and] at hk
    exact Or.inr ⟨_, rfl, rfl, hk.2.symm⟩

/-- A search for one end finds the end of a match, unless there is none. -/
theorem search_takeEnd {p : Pattern} (hp : p.Ranged) {i n n' : Nat} {b : Bool} {r : Option Nat}
    (h : search data p i takeEnd n none = some (b, n', r)) :
    (b = false ∧ r = none ∧ ∀ j, ¬ Matches data p i j) ∨
      ∃ j, b = true ∧ r = some j ∧ Matches data p i j := by
  obtain ⟨js, hh, h1, h2⟩ := search_answers hp.bounded i takeEnd _ _ _ _ _ h
  rcases hh.takeEnd with ⟨rfl, rfl, rfl⟩ | ⟨j, rfl, rfl, rfl⟩
  · exact Or.inl ⟨rfl, rfl, fun j hj => by simpa using h2 rfl j hj⟩
  · exact Or.inr ⟨j, rfl, rfl, h1 j (by simp)⟩

theorem firstFrom_spec {p : Pattern} (hp : p.Ranged) {count i n : Nat} {r : Option Span}
    (h : firstFrom data p count i n = some r) :
    (r = none ∧ ∀ s, i ≤ s → s < i + count → ∀ e, ¬ Matches data p s e) ∨
      ∃ m : Span, r = some m ∧ i ≤ m.start ∧ m.start < i + count ∧
        (∀ s, i ≤ s → s < m.start → ∀ e, ¬ Matches data p s e) ∧
        ∃ n n', search data p m.start takeEnd n none = some (true, n', some m.stop) := by
  induction count generalizing i n with
  | zero =>
    simp only [firstFrom, Option.some.injEq] at h
    exact Or.inl ⟨h.symm, fun s h1 h2 => by omega⟩
  | succ count ih =>
    unfold firstFrom at h
    split at h
    · cases h
    · rename_i b n' j hs
      obtain rfl := Option.some.inj h
      rcases search_takeEnd hp hs with ⟨_, hr, _⟩ | ⟨j', rfl, _, _⟩
      · cases hr
      · exact Or.inr ⟨_, rfl, Nat.le_refl i, by simp only; omega,
          fun s h1 h2 => by simp only at h2; omega, n, n', hs⟩
    · rename_i b n' hs
      have hnone : ∀ e, ¬ Matches data p i e := by
        rcases search_takeEnd hp hs with ⟨_, _, hj⟩ | ⟨j', _, hr, _⟩
        · exact hj
        · cases hr
      rcases ih h with ⟨rfl, hall⟩ | ⟨m, rfl, h1, h2, h3, h4⟩
      · refine Or.inl ⟨rfl, fun s hs1 hs2 => ?_⟩
        rcases Nat.eq_or_lt_of_le hs1 with rfl | hs1
        · exact hnone
        · exact hall s hs1 (by omega)
      · refine Or.inr ⟨m, rfl, by omega, by omega, fun s hs1 hs2 => ?_, h4⟩
        rcases Nat.eq_or_lt_of_le hs1 with rfl | hs1
        · exact hnone
        · exact h3 s hs1 hs2

/-- The preferred match starts at the leftmost place where any does, and is what a search from
there finds. -/
theorem leftmostFirst_spec {p : Pattern} (hp : p.Ranged) {start : Nat} {r : Option Span}
    (hstart : start ≤ data.size) (h : leftmostFirst data p start = some r) :
    (r = none ∧ ∀ s, start ≤ s → s ≤ data.size → ∀ e, ¬ Matches data p s e) ∨
      ∃ m : Span, r = some m ∧ start ≤ m.start ∧ m.start ≤ data.size ∧
        (∀ s, start ≤ s → s < m.start → ∀ e, ¬ Matches data p s e) ∧
        ∃ n n', search data p m.start takeEnd n none = some (true, n', some m.stop) := by
  rcases firstFrom_spec hp h with ⟨rfl, hall⟩ | ⟨m, rfl, h1, h2, h3⟩
  · exact Or.inl ⟨rfl, fun s hs1 hs2 => hall s hs1 (by omega)⟩
  · exact Or.inr ⟨m, rfl, h1, by omega, h3⟩

end ByteRegex.Matcher
