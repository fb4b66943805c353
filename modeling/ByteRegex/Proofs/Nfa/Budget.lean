-- What a construction costs. It leaves the same states behind under every limit
-- that allows for them, and at a smaller limit it fails for that reason only.
import ByteRegex.Proofs.Nfa.Build
import ByteRegex.Proofs.Nfa.Visit

namespace ByteRegex.Nfa

variable {α β : Type}

/-- The error of a construction that needs more states than there may be. -/
def overLimit (limit : Nat) : Error := .stateLimit "NFA state" limit

/-- What a step of a construction returns and leaves behind does not depend on the limit. It
succeeds just if the limit allows for the states that it leaves behind. -/
def Metered (x : Nat → Build α) : Prop :=
  ∀ a : Arena, ∃ (r : α) (a' : Arena), a.size ≤ a'.size ∧ ∀ limit, a.size ≤ limit →
    x limit a = if a'.size ≤ limit then .ok (r, a') else .error (overLimit limit)

namespace Metered

/-! ## Steps -/

/-- A step that makes no state costs nothing. -/
theorem of_free {x : Nat → Build α}
    (h : ∀ a : Arena, ∃ r a', Array.size a' = a.size ∧ ∀ limit, x limit a = .ok (r, a')) :
    Metered x := by
  intro a
  obtain ⟨r, a', hsize, hx⟩ := h a
  refine ⟨r, a', Nat.le_of_eq hsize.symm, fun limit hlimit => ?_⟩
  rw [hx, if_pos (hsize ▸ hlimit)]

theorem pure (r : α) : Metered fun _ => Pure.pure r := of_free fun a => ⟨r, a, rfl, fun _ => rfl⟩

/-- One step after another fails where the first of them does, or else where the second does. -/
theorem bind {x : Nat → Build α} {f : α → Nat → Build β} (hx : Metered x)
    (hf : ∀ r, Metered (f r)) : Metered fun limit => x limit >>= fun r => f r limit := by
  intro a
  obtain ⟨r, a1, h1, hx⟩ := hx a
  obtain ⟨r', a2, h2, hf⟩ := hf r a1
  refine ⟨r', a2, Nat.le_trans h1 h2, fun limit hlimit => ?_⟩
  simp only [Bind.bind, StateT.bind, Except.bind, hx limit hlimit]
  by_cases hfirst : a1.size ≤ limit
  · rw [if_pos hfirst]
    exact hf limit hfirst
  · rw [if_neg hfirst, if_neg fun hsecond => hfirst (Nat.le_trans h2 hsecond)]

theorem newState : Metered newState := by
  intro a
  have hsize : Array.size (Array.push a {}) = a.size + 1 := Array.size_push _
  refine ⟨a.size, a.push {}, by omega, fun limit _ => ?_⟩
  rw [Nfa.newState, hsize]
  by_cases hfull : limit ≤ a.size
  · rw [if_pos hfull, if_neg (by omega)]
    rfl
  · rw [if_neg hfull, if_pos (by omega)]

theorem addEdge (s : Nat) (e : Edge) : Metered fun _ => addEdge s e :=
  of_free fun a => ⟨(), a.addEdge s e, size_addEdge, fun _ => rfl⟩

theorem addEps (s t : Nat) : Metered fun _ => addEps s t := addEdge s (.eps t)

theorem setAccept (s priority : Nat) :
    Metered fun _ => (modify (·.setAccept s priority) : Build Unit) :=
  of_free fun a => ⟨(), a.setAccept s priority, Array.size_modify, fun _ => rfl⟩

theorem lift {x : Except Error α} {r : α} (h : x = .ok r) :
    Metered fun _ => (liftM x : Build α) := by
  subst h
  exact pure r

theorem forM {l : List α} {f : α → Nat → Build PUnit} (h : ∀ r ∈ l, Metered (f r)) :
    Metered fun limit => l.forM fun r => f r limit := by
  induction l with
  | nil => exact pure ()
  | cons r l ih =>
    exact bind (h r List.mem_cons_self) fun _ => ih fun r' hr' => h r' (List.mem_cons_of_mem r hr')

/-! ## Nodes -/

theorem edgeFragment (edge : Nat → Edge) : Metered fun limit => edgeFragment limit edge :=
  bind newState fun entry => bind newState fun exit =>
    bind (addEdge entry (edge exit)) fun _ => pure _

theorem addByteSet (s : Nat) (set : ByteSet) (t : Nat) : Metered fun _ => addByteSet s set t :=
  forM fun r _ => addEdge s (.bytes r.1 r.2 t)

theorem child (s : Nat) (r : Utf8.ByteRange) (exit : Nat) :
    Metered fun limit => child limit s r exit := by
  intro a
  cases hchild : child? a s r exit with
  | some t =>
    refine ⟨t, a, Nat.le_refl _, fun limit hlimit => ?_⟩
    simp only [Nfa.child, hchild, if_pos hlimit]
  | none =>
    have hnew : Metered fun limit => (Nfa.newState limit >>= fun t =>
        Nfa.addEdge s (.bytes r.lo r.hi t) >>= fun _ => Pure.pure t : Build Nat) :=
      bind newState fun t => bind (addEdge s (.bytes r.lo r.hi t)) fun _ => pure t
    obtain ⟨t, a', hsize, hrun⟩ := hnew a
    refine ⟨t, a', hsize, fun limit hlimit => ?_⟩
    simp only [Nfa.child, hchild]
    exact hrun limit hlimit

theorem addSequence (exit s : Nat) (rs : List Utf8.ByteRange) :
    Metered fun limit => addSequence limit exit s rs := by
  induction rs generalizing s with
  | nil => exact pure ()
  | cons r rs ih =>
    cases rs with
    | nil => exact addEdge s (.bytes r.lo r.hi exit)
    | cons r' rs => exact bind (child s r exit) fun t => ih t

theorem charsFragment (alpha : Alphabet) {set : Except Error CodePointSet} {s : CodePointSet}
    (h : set = .ok s) : Metered fun limit => charsFragment limit alpha set :=
  bind newState fun entry => bind newState fun exit => bind (lift h) fun _ =>
    bind (forM fun _ _ => forM fun rs _ => addSequence exit entry rs) fun _ => pure _

theorem bytesFragment {set : Except Error ByteSet} {s : ByteSet} (h : set = .ok s) :
    Metered fun limit => bytesFragment limit set :=
  bind newState fun entry => bind newState fun exit => bind (lift h) fun s =>
    bind (addByteSet entry s exit) fun _ => pure _

/-! ## Repeats -/

theorem addChoice (greedy : Bool) (s onward stop : Nat) :
    Metered fun _ => addChoice greedy s onward stop := by
  cases greedy with
  | true => exact bind (addEps s onward) fun _ => addEps s stop
  | false => exact bind (addEps s stop) fun _ => addEps s onward

section Repeat

variable {copy : Nat → Build Fragment}

theorem chain (hcopy : Metered copy) (k : Nat) (f : Fragment) :
    Metered fun limit => chain (copy limit) k f := by
  induction k generalizing f with
  | zero => exact pure f
  | succ k ih => exact bind hcopy fun g => bind (addEps f.exit g.entry) fun _ => ih g

theorem optionalCopies (hcopy : Metered copy) (greedy : Bool) (stop k cur : Nat) :
    Metered fun limit => optionalCopies greedy (copy limit) stop k cur := by
  induction k generalizing cur with
  | zero => exact pure cur
  | succ k ih =>
    exact bind hcopy fun g => bind (addChoice greedy cur g.entry stop) fun _ => ih g.exit

theorem repeatFragment (hcopy : Metered copy) (first : Fragment) (min : Nat) (max : Option Nat)
    (greedy : Bool) :
    Metered fun limit => repeatFragment limit (copy limit) first min max greedy := by
  refine bind newState fun entry => ?_
  match min, max with
  | 0, none =>
    exact bind newState fun stop => bind (addChoice greedy entry first.entry stop) fun _ =>
      bind (addEps first.exit entry) fun _ => pure _
  | m + 1, none =>
    exact bind (addEps entry first.entry) fun _ => bind (chain hcopy m first) fun last =>
      bind newState fun stop => bind (addChoice greedy last.exit last.entry stop) fun _ =>
        pure _
  | 0, some 0 => exact pure _
  | 0, some (k + 1) =>
    exact bind newState fun stop => bind (addChoice greedy entry first.entry stop) fun _ =>
      bind (optionalCopies hcopy greedy stop k first.exit) fun last =>
        bind (addEps last stop) fun _ => pure _
  | m + 1, some k =>
    refine bind (addEps entry first.entry) fun _ => bind (chain hcopy m first) fun last => ?_
    by_cases hmost : k ≤ m + 1
    · simp only [if_pos hmost]
      exact pure _
    · simp only [if_neg hmost]
      exact bind newState fun stop =>
        bind (optionalCopies hcopy greedy stop (k - (m + 1)) last.exit) fun cur =>
          bind (addEps cur stop) fun _ => pure _

end Repeat

/-! ## Sequences and alternations -/

theorem link (fs : List Fragment) : Metered fun _ => link fs := by
  induction fs with
  | nil => exact pure ()
  | cons f rest ih =>
    cases rest with
    | nil => exact pure ()
    | cons g rest => exact bind (addEps f.exit g.entry) fun _ => ih

theorem seqFragment (fs : List Fragment) : Metered fun limit => seqFragment limit fs := by
  cases fs with
  | nil => exact bind newState fun s => pure _
  | cons f rest =>
    exact bind (link (f :: rest)) fun _ =>
      pure _

theorem altFragment (fs : List Fragment) : Metered fun limit => altFragment limit fs :=
  bind newState fun entry => bind newState fun exit =>
    bind (forM fun f _ => bind (addEps entry f.entry) fun _ => addEps f.exit exit) fun _ =>
      pure _

theorem fragments {alpha : Alphabet} {ps : List Pattern}
    (hps : ∀ p ∈ ps, Metered fun limit => fragment limit alpha p) :
    Metered fun limit => fragments limit alpha ps := by
  induction ps with
  | nil => exact pure []
  | cons p ps ih =>
    exact bind (hps p List.mem_cons_self) fun f =>
      bind (ih fun q hq => hps q (List.mem_cons_of_mem p hq)) fun fs => pure _

/-! ## Patterns -/

/-- A pattern that passes both checks can only need too many states. -/
theorem fragment {alpha : Alphabet} {p : Pattern} (hs : p.Supported) (hr : p.Ranged) :
    Metered fun limit => fragment limit alpha p := by
  induction p using Pattern.induction with
  | chars loc ranges negated =>
    have hset : Pattern.charSet? loc ranges negated = .ok (Pattern.charSet ranges negated) := by
      rw [Pattern.charSet?, show Pattern.charRangeFault? ranges = none from hr.self]
    exact charsFragment alpha hset
  | bytes loc ranges =>
    have hset : Pattern.byteSet? loc ranges = .ok (Pattern.byteSet ranges) := by
      rw [Pattern.byteSet?, show Pattern.byteRangeFault? ranges = none from hr.self]
    exact bytesFragment hset
  | seq loc parts ih =>
    have hsupported := (Pattern.allNodes_seq.1 hs).2
    have hranged := (Pattern.allNodes_seq.1 hr).2
    exact bind (fragments fun p hp => ih p hp (hsupported p hp) (hranged p hp)) seqFragment
  | alt loc parts ih =>
    have hsupported := (Pattern.allNodes_alt.1 hs).2
    have hranged := (Pattern.allNodes_alt.1 hr).2
    exact bind (fragments fun p hp => ih p hp (hsupported p hp) (hranged p hp)) altFragment
  | rep loc body min max greedy ih =>
    have hbody := ih (Pattern.allNodes_rep.1 hs).2 (Pattern.allNodes_rep.1 hr).2
    exact bind hbody fun first => repeatFragment hbody first min max greedy
  | anchor loc atEnd => exact edgeFragment _
  | wordEdge loc negated => exact edgeFragment _
  | empty loc => exact bind newState fun s => pure _
  | backref loc group => cases hs.self
  | around loc body behind negated => cases hs.self

theorem close (f : Fragment) : Metered fun limit => close limit f :=
  bind newState fun accept => bind (addEps f.exit accept) fun _ =>
    bind (setAccept accept 0) fun _ => bind newState fun floating => bind newState fun skip =>
      bind (addEps floating f.entry) fun _ => bind (addEps floating skip) fun _ =>
        bind (addEdge skip (.bytes 0x00 0xff floating)) fun _ => pure _

end Metered

/-- A pattern that passes both checks has one automaton, which is built under just those limits that
allow for its states. -/
theorem exists_ofPattern {p : Pattern} (hs : p.Supported) (hr : p.Ranged) (alpha : Alphabet) :
    ∃ n : Nfa, ∀ limit, ofPattern p alpha limit =
      if n.size ≤ limit then .ok n else .error (overLimit limit) := by
  have hbuild : Metered fun limit => fragment limit alpha p >>= fun f => close limit f :=
    (Metered.fragment hs hr).bind Metered.close
  obtain ⟨⟨anchored, floating⟩, states, _, hrun⟩ := hbuild #[]
  refine ⟨⟨states, anchored, floating⟩, fun limit => ?_⟩
  rw [ofPattern_eq, ofBuild, show (fragment limit alpha p >>= fun f => close limit f) #[] = _ from
    hrun limit (Nat.zero_le _)]
  rw [show Nfa.size ⟨states, anchored, floating⟩ = states.size from rfl]
  by_cases hsize : states.size ≤ limit
  · simp only [if_pos hsize]
  · simp only [if_neg hsize]

end ByteRegex.Nfa
