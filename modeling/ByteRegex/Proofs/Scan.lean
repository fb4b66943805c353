-- A scan, one search after another. The loop hands each match to a receiver as
-- soon as it is found, and every turn moves the place of the next search on, so
-- that the loop ends whatever the two tables of the database find.
import ByteRegex.Database
import ByteRegex.Proofs.Table.Scan
import Mathlib.Data.List.Chain
import Mathlib.Logic.Relation

namespace ByteRegex

open Relation (ReflTransGen)

/-! ## The loop -/

/-- Where a scan for a receiver stands. -/
structure Scanning (σ : Type) where
  receiver : σ
  /-- The place of the next search. -/
  pos : Nat := 0
  /-- The end of the last match that was handed over. -/
  lastStop : Option Nat := none
  /-- The matches that were handed over, each with whether the receiver said stop. -/
  calls : List (Span × Bool) := []
  /-- When the scan has ended: whether it went through without a stop. -/
  result : Option Bool := none

namespace Scanning

variable {σ : Type}

/-- The matches that were handed over, in order. -/
def spans (c : Scanning σ) : List Span := c.calls.map Prod.fst

/-- Nothing more is found. -/
def finish (c : Scanning σ) : Scanning σ := { c with result := some true }

/-- An empty match is passed over. -/
def pass (c : Scanning σ) (m : Span) : Scanning σ := { c with pos := m.stop + 1 }

/-- The receiver has taken a match and waits for the next one in state `s`. -/
def accept (c : Scanning σ) (m : Span) (s : σ) : Scanning σ :=
  { c with
    receiver := s
    pos := Database.resume m
    lastStop := some m.stop
    calls := c.calls ++ [(m, false)] }

/-- The receiver has taken a match and said stop. -/
def refuse (c : Scanning σ) (m : Span) (s : σ) : Scanning σ :=
  { c with receiver := s, calls := c.calls ++ [(m, true)], result := some false }

@[simp] theorem spans_accept (c : Scanning σ) (m : Span) (s : σ) :
    (c.accept m s).spans = c.spans ++ [m] := List.map_append

@[simp] theorem spans_refuse (c : Scanning σ) (m : Span) (s : σ) :
    (c.refuse m s).spans = c.spans ++ [m] := List.map_append

end Scanning

namespace Database

variable {σ : Type}

/-- One turn of the loop. -/
def turn (d : Database) (data : Bytes) (receive : Span → σ → σ × Bool) (c : Scanning σ) :
    Scanning σ :=
  if data.size < c.pos then c.finish
  else
    match d.find data c.pos with
    | none => c.finish
    | some m =>
      if m.isEmpty ∧ c.lastStop = some m.start then c.pass m
      else
        match receive m c.receiver with
        | (s, true) => c.refuse m s
        | (s, false) => c.accept m s

/-- The loop takes a turn as long as it has no result. -/
def Turns (d : Database) (data : Bytes) (receive : Span → σ → σ × Bool) (c c' : Scanning σ) :
    Prop := c.result = none ∧ d.turn data receive c = c'

/-- Any number of turns. -/
def Runs (d : Database) (data : Bytes) (receive : Span → σ → σ × Bool) :
    Scanning σ → Scanning σ → Prop := ReflTransGen (d.Turns data receive)

variable {d : Database} {data : Bytes} {receive : Span → σ → σ × Bool} {c c' : Scanning σ}
  {m : Span} {pos : Nat}

/-! ## One turn -/

/-- A match that is found lies in the text, behind the place where the search started. -/
theorem find_bounds (h : d.find data pos = some m) :
    pos ≤ m.start ∧ m.start ≤ m.stop ∧ m.stop ≤ data.size := by
  unfold find at h
  split at h
  · cases h
  · rename_i hpos
    split at h
    · cases h
    · rename_i stop hstop
      split at h
      · cases h
      · rename_i first hfirst
        obtain rfl := Option.some.inj h
        obtain ⟨h1, h2⟩ := Table.scanForward_bounds (Nat.le_of_not_lt hpos) hstop
        obtain ⟨h3, h4⟩ := Table.scanReverse_bounds h1 hfirst
        exact ⟨h3, h4, h2⟩

theorem find_of_size_lt (h : data.size < pos) : d.find data pos = none := by rw [find, if_pos h]

theorem stop_le_resume (m : Span) : m.stop ≤ resume m := by
  unfold resume
  split
  · exact Nat.le_succ _
  · exact Nat.le_refl _

theorem lt_resume (h : d.find data pos = some m) : pos < resume m := by
  obtain ⟨h1, h2, _⟩ := find_bounds h
  unfold resume Span.isEmpty
  split
  · omega
  · rename_i hne
    simp only [beq_iff_eq] at hne
    omega

/-- What a turn can do: it ends the scan where nothing more is found, passes over an empty match, or
hands over a match, where the receiver may end the scan. -/
theorem turn_cases (d : Database) (data : Bytes) (receive : Span → σ → σ × Bool)
    (c : Scanning σ) :
    (d.find data c.pos = none ∧ d.turn data receive c = c.finish) ∨
      ∃ m, d.find data c.pos = some m ∧
        ((m.isEmpty = true ∧ c.lastStop = some m.start ∧ d.turn data receive c = c.pass m) ∨
          (¬ (m.isEmpty = true ∧ c.lastStop = some m.start) ∧ ∃ s,
            (receive m c.receiver = (s, true) ∧ d.turn data receive c = c.refuse m s) ∨
            (receive m c.receiver = (s, false) ∧ d.turn data receive c = c.accept m s))) := by
  unfold turn
  split
  · rename_i hpos
    exact Or.inl ⟨find_of_size_lt hpos, rfl⟩
  · cases hfind : d.find data c.pos with
    | none => exact Or.inl ⟨rfl, rfl⟩
    | some m =>
      refine Or.inr ⟨m, rfl, ?_⟩
      by_cases hover : m.isEmpty = true ∧ c.lastStop = some m.start
      · exact Or.inl ⟨hover.1, hover.2, if_pos hover⟩
      · refine Or.inr ⟨hover, ?_⟩
        simp only [if_neg hover]
        rcases receive m c.receiver with ⟨s, stop⟩
        cases stop with
        | true => exact ⟨s, Or.inl ⟨rfl, rfl⟩⟩
        | false => exact ⟨s, Or.inr ⟨rfl, rfl⟩⟩

/-! ## What the turns keep -/

/-- The second of two matches in a row may start where the first one ends, unless it is empty. -/
def Follows (m m' : Span) : Prop :=
  m.stop ≤ m'.start ∧ ¬ (m'.isEmpty = true ∧ m'.start = m.stop)

/-- The matches handed over so far are in order, and the loop knows where the last one ends. Only
the last answer of the receiver may have been a stop, which ended the loop. -/
structure Orderly (data : Bytes) (receive : Span → σ → σ × Bool) (c : Scanning σ) : Prop where
  within : ∀ m ∈ c.spans, m.start ≤ m.stop ∧ m.stop ≤ data.size
  follows : c.spans.IsChain Follows
  last : c.result = none → c.lastStop = c.spans.getLast?.map Span.stop
  behind : c.result = none → ∀ e, c.lastStop = some e → e ≤ c.pos
  answered : ∀ m stop, (m, stop) ∈ c.calls → ∃ s, (receive m s).2 = stop
  refused : c.result = some false ↔ ∃ m, (m, true) ∈ c.calls

namespace Orderly

theorem start (s : σ) : Orderly data receive { receiver := s } where
  within m hm := by cases hm
  follows := List.isChain_nil
  last _ := rfl
  behind _ e he := by cases he
  answered m stop hm := by cases hm
  refused := iff_of_false nofun fun ⟨m, hm⟩ => by cases hm

theorem not_refused (h : Orderly data receive c) (hc : c.result = none) :
    ¬ ∃ m, (m, true) ∈ c.calls := by
  rw [← h.refused, hc]
  nofun

/-- A match that is not passed over follows the last one. -/
theorem spans_append (h : Orderly data receive c) (hc : c.result = none)
    (hfind : d.find data c.pos = some m)
    (hover : ¬ (m.isEmpty = true ∧ c.lastStop = some m.start)) :
    (∀ m' ∈ c.spans ++ [m], m'.start ≤ m'.stop ∧ m'.stop ≤ data.size) ∧
      (c.spans ++ [m]).IsChain Follows := by
  obtain ⟨hpos, hle, hsize⟩ := find_bounds hfind
  refine ⟨fun m' hm' => ?_, ?_⟩
  · rcases List.mem_append.1 hm' with hm' | hm'
    · exact h.within m' hm'
    · rw [List.mem_singleton.1 hm']
      exact ⟨hle, hsize⟩
  · rw [List.isChain_append]
    refine ⟨h.follows, List.isChain_singleton m, fun l hl m' hm' => ?_⟩
    obtain rfl : m = m' := Option.some.inj hm'
    have hlast : c.lastStop = some l.stop := by
      rw [h.last hc, Option.mem_def.1 hl]
      rfl
    refine ⟨Nat.le_trans (h.behind hc l.stop hlast) hpos, fun hempty => hover ⟨hempty.1, ?_⟩⟩
    rw [hlast, hempty.2]

/-- The receiver was asked for each of its answers, the new one included. -/
theorem calls_append {stop : Bool} (h : Orderly data receive c)
    (hstop : (receive m c.receiver).2 = stop) :
    ∀ m' stop', (m', stop') ∈ c.calls ++ [(m, stop)] → ∃ s, (receive m' s).2 = stop' := by
  intro m' stop' hm'
  rcases List.mem_append.1 hm' with hm' | hm'
  · exact h.answered m' stop' hm'
  · obtain ⟨rfl, rfl⟩ := Prod.mk.inj (List.mem_singleton.1 hm')
    exact ⟨c.receiver, hstop⟩

theorem turn (h : Orderly data receive c) (hturn : d.Turns data receive c c') :
    Orderly data receive c' := by
  obtain ⟨hc, rfl⟩ := hturn
  have hno := h.not_refused hc
  rcases turn_cases d data receive c with
    ⟨_, heq⟩ | ⟨m, hfind, ⟨_, _, heq⟩ | ⟨hover, s, ⟨hanswer, heq⟩ | ⟨hanswer, heq⟩⟩⟩
  · rw [heq]
    exact ⟨h.within, h.follows, nofun, nofun, h.answered, iff_of_false nofun hno⟩
  · rw [heq]
    obtain ⟨hpos, hle, _⟩ := find_bounds hfind
    refine ⟨h.within, h.follows, h.last, fun _ e he => ?_, h.answered, h.refused⟩
    have hbehind := h.behind hc e he
    show e ≤ m.stop + 1
    omega
  · rw [heq]
    obtain ⟨hwithin, hfollows⟩ := h.spans_append hc hfind hover
    rw [← c.spans_refuse m s] at hwithin hfollows
    refine ⟨hwithin, hfollows, nofun, nofun, h.calls_append (congrArg Prod.snd hanswer), ?_⟩
    exact iff_of_true rfl ⟨m, List.mem_append_right _ (List.mem_singleton_self _)⟩
  · rw [heq]
    obtain ⟨hwithin, hfollows⟩ := h.spans_append hc hfind hover
    rw [← c.spans_accept m s] at hwithin hfollows
    refine ⟨hwithin, hfollows, fun _ => ?_, fun _ e he => ?_,
      h.calls_append (congrArg Prod.snd hanswer), iff_of_false ?_ fun ⟨m', hm'⟩ => hno ⟨m', ?_⟩⟩
    · rw [Scanning.spans_accept, List.getLast?_concat]
      rfl
    · rw [← Option.some.inj he]
      exact stop_le_resume m
    · show c.result ≠ some false
      rw [hc]
      nofun
    · rcases List.mem_append.1 hm' with hm' | hm'
      · exact hm'
      · cases List.mem_singleton.1 hm'

theorem runs (h : Orderly data receive c) (hruns : d.Runs data receive c c') :
    Orderly data receive c' := by
  induction hruns with
  | refl => exact h
  | tail _ hturn ih => exact ih.turn hturn

end Orderly

/-! ## The loop ends -/

theorem scanFrom_none {fuel : Nat} {lastStop : Option Nat} (h : d.find data pos = none) :
    d.scanFrom data fuel pos lastStop = [] := by
  cases fuel with
  | zero => rfl
  | succ fuel => rw [scanFrom, h]

/-- From any place the loop gets to a result, which is what the list of all matches from there says.
Every turn moves on by a byte at least, so that the searches of that list suffice. -/
theorem runs_scanFrom (d : Database) (data : Bytes) (receive : Span → σ → σ × Bool) {fuel : Nat}
    (hc : c.result = none) (hfuel : data.size + 2 ≤ fuel + c.pos) :
    ∃ (f : Scanning σ) (complete : Bool) (handed : List Span), d.Runs data receive c f ∧
      f.result = some complete ∧ f.spans = c.spans ++ handed ∧
      deliver receive c.receiver (d.scanFrom data fuel c.pos c.lastStop) = (f.receiver, complete) ∧
      handed <+: d.scanFrom data fuel c.pos c.lastStop ∧
      (complete = true → handed = d.scanFrom data fuel c.pos c.lastStop) := by
  induction fuel generalizing c with
  | zero =>
    have hfind : d.find data c.pos = none := find_of_size_lt (by omega)
    rcases turn_cases d data receive c with ⟨_, heq⟩ | ⟨m, hm, _⟩
    · exact ⟨c.finish, true, [], ReflTransGen.single ⟨hc, heq⟩, rfl, (List.append_nil _).symm, rfl,
        List.nil_prefix, fun _ => rfl⟩
    · rw [hfind] at hm
      cases hm
  | succ fuel ih =>
    rcases turn_cases d data receive c with ⟨hfind, heq⟩ | ⟨m, hfind, hturn⟩
    · rw [scanFrom_none hfind]
      exact ⟨c.finish, true, [], ReflTransGen.single ⟨hc, heq⟩, rfl, (List.append_nil _).symm, rfl,
        List.nil_prefix, fun _ => rfl⟩
    · obtain ⟨hpos, hle, _⟩ := find_bounds hfind
      rw [scanFrom, hfind]
      rcases hturn with ⟨hempty, hlast, heq⟩ | ⟨hover, s, ⟨hanswer, heq⟩ | ⟨hanswer, heq⟩⟩
      · simp only [if_pos (And.intro hempty hlast)]
        obtain ⟨f, complete, handed, hruns, hrest⟩ :=
          ih (c := c.pass m) hc (by show _ ≤ fuel + (m.stop + 1); omega)
        exact ⟨f, complete, handed, ReflTransGen.head ⟨hc, heq⟩ hruns, hrest⟩
      · simp only [if_neg hover]
        refine ⟨c.refuse m s, false, [m], ReflTransGen.single ⟨hc, heq⟩, rfl,
          c.spans_refuse m s, ?_,
          List.prefix_append [m] _, nofun⟩
        rw [deliver, hanswer]
        rfl
      · simp only [if_neg hover]
        have hresume := lt_resume hfind
        obtain ⟨f, complete, handed, hruns, hresult, hspans, hdeliver, hprefix, hall⟩ :=
          ih (c := c.accept m s) hc (by show _ ≤ fuel + resume m; omega)
        refine ⟨f, complete, m :: handed, ReflTransGen.head ⟨hc, heq⟩ hruns, hresult, ?_, ?_,
          List.cons_prefix_cons.2 ⟨rfl, hprefix⟩, fun h => congrArg (m :: ·) (hall h)⟩
        · rw [hspans, Scanning.spans_accept, List.append_assoc]
          rfl
        · rw [deliver, hanswer]
          exact hdeliver

/-- A scan for a receiver ends, with the answer that the list of all matches gives. -/
theorem runs_scan (d : Database) (data : Bytes) (receive : Span → σ → σ × Bool) (s : σ) :
    ∃ (c : Scanning σ) (complete : Bool), d.Runs data receive { receiver := s } c ∧
      c.result = some complete ∧ d.scanInto data receive s = (c.receiver, complete) ∧
      c.spans <+: d.scan data ∧ (complete = true → c.spans = d.scan data) := by
  have hfuel : data.size + 2 ≤ data.size + 2 + ({ receiver := s } : Scanning σ).pos := Nat.le_refl _
  obtain ⟨c, complete, handed, hruns, hresult, hspans, hdeliver, hprefix, hall⟩ :=
    runs_scanFrom d data receive rfl hfuel
  obtain rfl : c.spans = handed := hspans
  exact ⟨c, complete, hruns, hresult, hdeliver, hprefix, hall⟩

/-- A receiver that never says stop ends no scan. -/
theorem Orderly.complete {complete : Bool} (h : Orderly data receive c)
    (hresult : c.result = some complete) (hnever : ∀ m s, (receive m s).2 = false) :
    complete = true := by
  by_contra hstop
  rw [Bool.eq_false_iff.2 hstop] at hresult
  obtain ⟨m, hm⟩ := h.refused.1 hresult
  obtain ⟨s, hs⟩ := h.answered m true hm
  rw [hnever] at hs
  cases hs

/-! ## The law -/

/-- Every scan of every database ends. It hands over matches that lie in the text and follow one
another, none of them an empty match where the last one ended. It is incomplete just if the receiver
said stop. What was handed over by then begins the list of all matches, and a receiver that never
says stop gets that list. -/
theorem scan_disciplined (d : Database) (data : Bytes) (receive : Span → σ → σ × Bool) (s : σ) :
    ∃ (c : Scanning σ) (complete : Bool), d.Runs data receive { receiver := s } c ∧
      c.result = some complete ∧ d.scanInto data receive s = (c.receiver, complete) ∧
      (∀ m ∈ c.spans, m.start ≤ m.stop ∧ m.stop ≤ data.size) ∧ c.spans.IsChain Follows ∧
      (complete = false ↔ ∃ m, (m, true) ∈ c.calls) ∧ c.spans <+: d.scan data ∧
      ((∀ m s', (receive m s').2 = false) → c.spans = d.scan data) := by
  obtain ⟨c, complete, hruns, hresult, hinto, hprefix, hall⟩ := runs_scan d data receive s
  have horderly : Orderly data receive c := (Orderly.start s).runs hruns
  have hstop : complete = false ↔ ∃ m, (m, true) ∈ c.calls := by
    rw [← horderly.refused, hresult, Option.some.injEq]
  exact ⟨c, complete, hruns, hresult, hinto, horderly.within, horderly.follows, hstop, hprefix,
    fun hnever => hall (horderly.complete hresult hnever)⟩

end Database

end ByteRegex
