-- The steps of a construction, one by one: what each does to the states made
-- so far, and what a part of the construction may count on when it is done.
import ByteRegex.Nfa.Thompson
import ByteRegex.Proofs.Nfa.Fragment

namespace ByteRegex.Nfa

variable {α β : Type}

/-! ## Steps that succeed -/

theorem Build.bind_ok {x : Build α} {f : α → Build β} {a a' : Arena} {r : β}
    (h : (x >>= f) a = .ok (r, a')) : ∃ y a1, x a = .ok (y, a1) ∧ f y a1 = .ok (r, a') := by
  simp only [bind, StateT.bind, Except.bind] at h
  split at h
  · cases h
  · rename_i p hp
    exact ⟨p.1, p.2, hp, h⟩

theorem Build.pure_ok {x r : α} {a a' : Arena} (h : (pure x : Build α) a = .ok (r, a')) :
    r = x ∧ a' = a := by
  have hpair : (x, a) = (r, a') := Except.ok.inj h
  rw [Prod.mk.injEq] at hpair
  exact ⟨hpair.1.symm, hpair.2.symm⟩

theorem newState_ok {limit s : Nat} {a a' : Arena} (h : newState limit a = .ok (s, a')) :
    s = a.size ∧ a' = a.push {} := by
  unfold newState at h
  split at h
  · cases h
  · simp only [Except.ok.injEq, Prod.mk.injEq] at h
    exact ⟨h.1.symm, h.2.symm⟩

theorem addEdge_ok {s : Nat} {e : Edge} {a a' : Arena} {u : Unit}
    (h : addEdge s e a = .ok (u, a')) : a' = a.addEdge s e := by
  simp only [addEdge, modify, modifyGet, MonadStateOf.modifyGet, StateT.modifyGet, pure,
    Except.pure, Except.ok.injEq, Prod.mk.injEq] at h
  exact h.2.symm

theorem Build.lift_ok {x : Except Error α} {r : α} {a a' : Arena}
    (h : (liftM x : Build α) a = .ok (r, a')) : x = .ok r ∧ a' = a := by
  cases x with
  | error e => cases h
  | ok y =>
    simp only [liftM, monadLift, MonadLift.monadLift, StateT.lift, bind, Except.bind, pure,
      Except.pure, Except.ok.injEq, Prod.mk.injEq] at h
    exact ⟨congrArg Except.ok h.1, h.2.symm⟩

/-! ## The states made so far -/

/-- The state with an index, and one without edges if there is none. -/
def stateIn (a : Arena) (s : Nat) : State := a.getD s {}

section States

variable {a : Arena} {s t : Nat} {e : Edge}

theorem size_lt_push {st : State} (a : Arena) : a.size < Array.size (Array.push a st) := by
  rw [Array.size_push]
  exact Nat.lt_succ_self _

theorem stateIn_push {st : State} :
    stateIn (a.push st) t = if t = a.size then st else stateIn a t := by
  simp only [stateIn, Array.getD_eq_getD_getElem?, Array.getElem?_push]
  split <;> rfl

@[simp] theorem size_addEdge : Array.size (a.addEdge s e) = a.size := Array.size_modify

theorem stateIn_addEdge (hs : s < a.size) :
    stateIn (a.addEdge s e) t =
      if t = s then { stateIn a s with edges := (stateIn a s).edges.push e }
      else stateIn a t := by
  simp only [stateIn, Arena.addEdge, Array.getD_eq_getD_getElem?, Array.getElem?_modify]
  by_cases h : t = s
  · subst h
    simp [hs]
  · simp [h, Ne.symm h]

end States

/-! ## What every state keeps -/

/-- Where the edges of a state lead with a byte. -/
def State.byteTargets (st : State) (b : UInt8) : List Nat :=
  st.edges.toList.filterMap (Dfa.Subset.byteTarget? b)

/-- The edge consumes a byte. -/
def Edge.isByte : Edge → Bool
  | bytes _ _ _ => true
  | _ => false

/-- The edge asks where words start and end. -/
def Edge.asksWords : Edge → Bool
  | look k _ => k == .wordEdge || k == .notWordEdge
  | _ => false

/-- No class mixes word bytes with other bytes. -/
def WordsApart (R : UInt8 → UInt8 → Prop) : Prop :=
  ∀ b b', R b b' → isWordByte b = isWordByte b'

/-- The state does not accept, its edges lead to states below a bound, and they do not tell bytes
of one class from one another, nor ask for more of a byte than its class tells. All of them consume
a byte, or none does. -/
structure Tidy (R : UInt8 → UInt8 → Prop) (bound : Nat) (st : State) : Prop where
  accept : st.accept = none
  target : ∀ e ∈ st.edges.toList, e.target < bound
  bytes : ∀ b b', R b b' → st.byteTargets b = st.byteTargets b'
  words : ∀ e ∈ st.edges.toList, e.asksWords = true → WordsApart R
  pure : ∀ e ∈ st.edges.toList, ∀ e' ∈ st.edges.toList, e.isByte = e'.isByte

/-- Every state made so far is tidy. -/
def AllTidy (R : UInt8 → UInt8 → Prop) (a : Arena) : Prop :=
  ∀ t < a.size, Tidy R a.size (stateIn a t)

/-- The edge does not tell bytes of one class from one another, nor ask for more of a byte than its
class tells. -/
structure Edge.Even (R : UInt8 → UInt8 → Prop) (e : Edge) : Prop where
  bytes : ∀ b b', R b b' → Dfa.Subset.byteTarget? b e = Dfa.Subset.byteTarget? b' e
  words : e.asksWords = true → WordsApart R

variable {R : UInt8 → UInt8 → Prop} {a a' : Arena} {s t : Nat}

theorem Edge.even_eps : (Edge.eps t).Even R := ⟨fun _ _ _ => rfl, fun h => by cases h⟩

theorem Edge.even_look {k : Look} (h : (Edge.look k t).asksWords = true → WordsApart R) :
    (Edge.look k t).Even R := ⟨fun _ _ _ => rfl, h⟩

theorem Tidy.empty {bound : Nat} : Tidy R bound {} :=
  ⟨rfl, fun e he => by simp at he, fun _ _ _ => rfl, fun e he => by simp at he,
    fun e he => by simp at he⟩

theorem Tidy.mono {bound bound' : Nat} {st : State} (h : Tidy R bound st)
    (hb : bound ≤ bound') : Tidy R bound' st :=
  ⟨h.accept, fun e he => Nat.lt_of_lt_of_le (h.target e he) hb, h.bytes, h.words, h.pure⟩

theorem Tidy.push {bound : Nat} {st : State} {e : Edge} (h : Tidy R bound st)
    (ht : e.target < bound) (he : e.Even R)
    (hp : ∀ e' ∈ st.edges.toList, e'.isByte = e.isByte) :
    Tidy R bound { st with edges := st.edges.push e } := by
  have hall : ∀ e' ∈ (st.edges.push e).toList, e'.isByte = e.isByte := by
    intro e' he'
    rw [Array.toList_push, List.mem_append, List.mem_singleton] at he'
    rcases he' with he' | rfl
    · exact hp e' he'
    · rfl
  refine ⟨h.accept, fun e' he' => ?_, fun b b' hb => ?_, fun e' he' hw => ?_,
    fun e1 h1 e2 h2 => (hall e1 h1).trans (hall e2 h2).symm⟩
  · rw [Array.toList_push, List.mem_append, List.mem_singleton] at he'
    rcases he' with he' | rfl
    · exact h.target e' he'
    · exact ht
  · simp only [State.byteTargets, Array.toList_push, List.filterMap_append, List.filterMap_cons,
      he.bytes b b' hb]
    exact congrArg (· ++ _) (h.bytes b b' hb)
  · rw [Array.toList_push, List.mem_append, List.mem_singleton] at he'
    rcases he' with he' | rfl
    · exact h.words e' he' hw
    · exact he.words hw

theorem AllTidy.tidy {bound : Nat} (h : AllTidy R a) (hb : a.size ≤ bound) (t : Nat) :
    Tidy R bound (stateIn a t) := by
  by_cases ht : t < a.size
  · exact (h t ht).mono hb
  · rw [stateIn, Array.getD_eq_getD_getElem?, Array.getElem?_eq_none (Nat.le_of_not_lt ht)]
    exact Tidy.empty

theorem AllTidy.newState (h : AllTidy R a) : AllTidy R (a.push {}) := by
  intro t ht
  rw [Array.size_push] at ht ⊢
  rw [stateIn_push]
  split
  · exact Tidy.empty
  · exact (h t (by omega)).mono (Nat.le_succ _)

theorem AllTidy.addEdge {e : Edge} (h : AllTidy R a) (hs : s < a.size) (ht : e.target < a.size)
    (he : e.Even R) (hp : ∀ e' ∈ (stateIn a s).edges.toList, e'.isByte = e.isByte) :
    AllTidy R (a.addEdge s e) := by
  intro t htlt
  rw [size_addEdge] at htlt ⊢
  rw [stateIn_addEdge hs]
  split
  · exact (h s hs).push ht he hp
  · exact h t htlt

/-! ## Parts -/

/-- The automaton has the states of the arena where `S` holds. -/
def Like (n : Nfa) (a : Arena) (S : Nat → Prop) : Prop := ∀ t, S t → n.state t = stateIn a t

/-- The states from `lo` on below `hi` are a part with one entry and one exit. Nothing leads out of
the exit yet, and whatever edges it gets, `F` will hold of the automaton. -/
structure Placed (a : Arena) (lo hi : Nat) (f : Fragment) (F : Nfa → Prop) : Prop where
  entry : lo ≤ f.entry ∧ f.entry < hi
  exit : lo ≤ f.exit ∧ f.exit < hi
  fresh : stateIn a f.exit = {}
  holds : ∀ n, Like n a (fun t => lo ≤ t ∧ t < hi ∧ t ≠ f.exit) → F n

/-- A step of the construction has added states and left those before alone. -/
structure Grows (R : UInt8 → UInt8 → Prop) (a a' : Arena) : Prop where
  size_le : a.size ≤ a'.size
  keeps : ∀ t < a.size, stateIn a' t = stateIn a t
  tidy : AllTidy R a → AllTidy R a'

/-- A step of the construction has added a part. -/
structure Built (R : UInt8 → UInt8 → Prop) (a a' : Arena) (f : Fragment) (F : Nfa → Prop) :
    Prop extends Grows R a a' where
  placed : Placed a' a.size a'.size f F

theorem Grows.refl (a : Arena) : Grows R a a := ⟨Nat.le_refl _, fun _ _ => rfl, id⟩

theorem Grows.trans {a'' : Arena} (h : Grows R a a') (h' : Grows R a' a'') :
    Grows R a a'' :=
  ⟨Nat.le_trans h.size_le h'.size_le,
    fun t ht => (h'.keeps t (Nat.lt_of_lt_of_le ht h.size_le)).trans (h.keeps t ht),
    h'.tidy ∘ h.tidy⟩

theorem Grows.newState (a : Arena) : Grows R a (a.push {}) :=
  ⟨Nat.le_of_lt (size_lt_push a), fun t ht => by rw [stateIn_push, if_neg (Nat.ne_of_lt ht)],
    AllTidy.newState⟩

theorem Placed.mono {lo hi : Nat} {f : Fragment} {F G : Nfa → Prop} (h : Placed a lo hi f F)
    (hFG : ∀ n, F n → G n) : Placed a lo hi f G :=
  ⟨h.entry, h.exit, h.fresh, fun n hn => hFG n (h.holds n hn)⟩

theorem Placed.congr {lo hi : Nat} {f : Fragment} {F : Nfa → Prop} (h : Placed a lo hi f F)
    (ha : ∀ t, lo ≤ t → t < hi → stateIn a' t = stateIn a t) : Placed a' lo hi f F :=
  ⟨h.entry, h.exit, (ha _ h.exit.1 h.exit.2).trans h.fresh,
    fun n hn => h.holds n fun t ht => (hn t ht).trans (ha t ht.1 ht.2.1)⟩

theorem Grows.addEdge {e : Edge} (h : Grows R a a') (hs : a.size ≤ s) (hs' : s < a'.size)
    (ht : e.target < a'.size) (he : e.Even R)
    (hp : ∀ e' ∈ (stateIn a' s).edges.toList, e'.isByte = e.isByte) :
    Grows R a (a'.addEdge s e) where
  size_le := by
    rw [size_addEdge]
    exact h.size_le
  keeps t htlt := by
    rw [stateIn_addEdge hs', if_neg (by omega)]
    exact h.keeps t htlt
  tidy ha := (h.tidy ha).addEdge hs' ht he hp

/-- A part stays where it is when the construction goes on. -/
theorem Built.placed_of_grows {a'' : Arena} {f : Fragment} {F : Nfa → Prop}
    (h : Built R a a' f F) (h' : Grows R a' a'') : Placed a'' a.size a'.size f F :=
  h.placed.congr fun t _ ht => h'.keeps t ht

theorem Like.wired {n : Nfa} {S : Nat → Prop} (h : Like n a S) (hs : S s) {es : List Edge}
    (ha : stateIn a s = ⟨es.toArray, none⟩) : Wired n s es := (h s hs).trans ha

theorem Like.mono {n : Nfa} {S T : Nat → Prop} (h : Like n a S) (hTS : ∀ t, T t → S t) :
    Like n a T := fun t ht => h t (hTS t ht)

/-! ## One state, and one edge -/

/-- The new state is a part by itself. -/
theorem newState_built {limit : Nat} (h : newState limit a = .ok (s, a')) :
    Built R a a' ⟨s, s⟩ (fun _ => True) := by
  obtain ⟨rfl, rfl⟩ := newState_ok h
  refine ⟨Grows.newState a, ⟨by simp, by simp, ?_, fun _ _ => trivial⟩⟩
  rw [stateIn_push, if_pos rfl]

/-- Two states made one after the other are fresh. -/
theorem newState_two_ok {limit t : Nat} {a1 a2 : Arena} (h1 : newState limit a = .ok (s, a1))
    (h2 : newState limit a1 = .ok (t, a2)) :
    s = a.size ∧ t = a.size + 1 ∧ a2.size = a.size + 2 ∧ stateIn a2 a.size = {} ∧
      stateIn a2 (a.size + 1) = {} ∧ Grows R a a2 := by
  obtain ⟨rfl, rfl⟩ := newState_ok h1
  obtain ⟨rfl, rfl⟩ := newState_ok h2
  have hsize : Array.size (Array.push a {}) = a.size + 1 := Array.size_push _
  refine ⟨rfl, hsize, ?_, ?_, ?_, (Grows.newState a).trans (Grows.newState _)⟩
  · rw [Array.size_push, hsize]
  · rw [stateIn_push, if_neg (by omega), stateIn_push, if_pos rfl]
  · rw [stateIn_push, if_pos hsize.symm]

theorem edgeFragment_built {limit : Nat} {edge : Nat → Edge} {f : Fragment}
    (heven : ∀ t, (edge t).Even R) (htarget : ∀ t, (edge t).target = t)
    (h : edgeFragment limit edge a = .ok (f, a')) :
    Built R a a' f (fun n => Wired n f.entry [edge f.exit]) := by
  unfold edgeFragment at h
  obtain ⟨entry, a1, h1, h⟩ := Build.bind_ok h
  obtain ⟨exit, a2, h2, h⟩ := Build.bind_ok h
  obtain ⟨_, a3, h3, h⟩ := Build.bind_ok h
  obtain ⟨rfl, rfl⟩ := Build.pure_ok h
  obtain ⟨rfl, rfl, hsize, hentry, hexit, hgrows⟩ := newState_two_ok (R := R) h1 h2
  obtain rfl := addEdge_ok h3
  have hlt : a.size < a2.size := by omega
  refine ⟨hgrows.addEdge (Nat.le_refl _) hlt ?_ (heven _) (by simp [hentry]), ?_, ?_, ?_, ?_⟩
  · rw [htarget]
    omega
  · rw [size_addEdge]
    exact ⟨Nat.le_refl _, hlt⟩
  · rw [size_addEdge]
    exact ⟨Nat.le_succ _, by simp only; omega⟩
  · rw [stateIn_addEdge hlt, if_neg (Nat.succ_ne_self _), hexit]
  · intro n hn
    refine hn.wired ⟨Nat.le_refl _, by rwa [size_addEdge], Nat.ne_of_lt (Nat.lt_succ_self _)⟩ ?_
    rw [stateIn_addEdge hlt, if_pos rfl, hentry]
    rfl

/-- Edges added one after another end up behind those that were there. -/
theorem forM_addEdge_ok {α : Type} {l : List α} {g : α → Edge} {u : PUnit}
    (h : (l.forM fun r => addEdge s (g r)) a = .ok (u, a')) (hs : s < a.size) :
    a'.size = a.size ∧ ∀ t, stateIn a' t =
      if t = s then { stateIn a s with edges := (stateIn a s).edges ++ (l.map g).toArray }
      else stateIn a t := by
  induction l generalizing a with
  | nil =>
    obtain ⟨_, rfl⟩ := Build.pure_ok h
    refine ⟨rfl, fun t => ?_⟩
    split
    · rename_i heq
      simp [heq]
    · rfl
  | cons r l ih =>
    obtain ⟨_, a1, h1, h⟩ := Build.bind_ok h
    obtain rfl := addEdge_ok h1
    obtain ⟨hsize, hstate⟩ := ih h (by simpa using hs)
    refine ⟨hsize.trans size_addEdge, fun t => ?_⟩
    rw [hstate]
    split
    · rw [stateIn_addEdge hs, if_pos rfl]
      simp
    · rename_i hne
      rw [stateIn_addEdge hs, if_neg hne]

/-! ## Edges for a state that has none -/

/-- A state without edges has been given some. All others are as before. -/
structure Fills (R : UInt8 → UInt8 → Prop) (a a' : Arena) (s : Nat) (es : List Edge) :
    Prop where
  size_eq : a'.size = a.size
  keeps : ∀ t, t ≠ s → stateIn a' t = stateIn a t
  fills : stateIn a' s = ⟨es.toArray, none⟩
  tidy : AllTidy R a → AllTidy R a'

theorem addEps_fills {u : Unit} (hs : s < a.size) (ht : t < a.size) (he : stateIn a s = {})
    (h : addEps s t a = .ok (u, a')) : Fills R a a' s [.eps t] := by
  obtain rfl := addEdge_ok h
  refine ⟨size_addEdge, fun u hu => ?_, ?_,
    fun ha => ha.addEdge (e := .eps t) hs ht Edge.even_eps (by simp [he])⟩
  · rw [stateIn_addEdge hs, if_neg hu]
  · rw [stateIn_addEdge hs, if_pos rfl, he]
    rfl

theorem addEps_two_fills {t' : Nat} (hs : s < a.size) (ht : t < a.size) (ht' : t' < a.size)
    (he : stateIn a s = {}) :
    Fills R a ((a.addEdge s (.eps t)).addEdge s (.eps t')) s [.eps t, .eps t'] := by
  have hs' : s < (a.addEdge s (.eps t) : Arena).size := by rwa [size_addEdge]
  refine ⟨size_addEdge.trans size_addEdge, fun u hu => ?_, ?_, fun ha => ?_⟩
  · rw [stateIn_addEdge hs', if_neg hu, stateIn_addEdge hs, if_neg hu]
  · rw [stateIn_addEdge hs', if_pos rfl, stateIn_addEdge hs, if_pos rfl, he]
    rfl
  · refine (ha.addEdge (e := .eps t) hs ht Edge.even_eps (by simp [he])).addEdge hs'
      (by rwa [size_addEdge]) Edge.even_eps ?_
    rw [stateIn_addEdge hs, if_pos rfl, he]
    simp [Edge.isByte]

theorem addChoice_fills {greedy : Bool} {onward stop : Nat} {u : Unit} (hs : s < a.size)
    (honward : onward < a.size) (hstop : stop < a.size) (he : stateIn a s = {})
    (h : addChoice greedy s onward stop a = .ok (u, a')) :
    Fills R a a' s (choice greedy onward stop) := by
  cases greedy with
  | true =>
    obtain ⟨_, a1, h1, h⟩ := Build.bind_ok h
    obtain rfl := addEdge_ok h1
    obtain rfl := addEdge_ok h
    exact addEps_two_fills hs honward hstop he
  | false =>
    obtain ⟨_, a1, h1, h⟩ := Build.bind_ok h
    obtain rfl := addEdge_ok h1
    obtain rfl := addEdge_ok h
    exact addEps_two_fills hs hstop honward he

end ByteRegex.Nfa
