-- Where the walk over a set is used: a byte node gets one edge for each run of
-- its set, and the classes of bytes are noted member by member.
import ByteRegex.Proofs.Alphabet.ByteClasses
import ByteRegex.Proofs.ByteSet.Runs
import ByteRegex.Proofs.Nfa.Build

namespace ByteRegex.ByteSet

open Alphabet Nfa

/-- A state has got some more edges, behind those that it had. Nothing else has changed. -/
structure Appends (a a' : Arena) (s : Nat) (es : List Edge) : Prop where
  size : a'.size = a.size
  edges : (stateIn a' s).edges = (stateIn a s).edges ++ es.toArray
  accept : (stateIn a' s).accept = (stateIn a s).accept
  others : ∀ t, t ≠ s → stateIn a' t = stateIn a t

theorem forM_addEdge_total {α : Type} (l : List α) (g : α → Edge) (s : Nat) (a : Arena) :
    ∃ a', (l.forM fun r => addEdge s (g r)) a = .ok ((), a') := by
  induction l generalizing a with
  | nil => exact ⟨a, rfl⟩
  | cons r l ih => exact ih (a.addEdge s (g r))

theorem addByteSet_appends (s : ByteSet) (target : Nat) {a : Arena} {source : Nat}
    (hsource : source < a.size) : ∃ a', addByteSet source s target a = .ok ((), a') ∧
      Appends a a' source (s.runs.map fun r => .bytes r.1 r.2 target) := by
  obtain ⟨a', h⟩ := forM_addEdge_total s.runs (fun r => .bytes r.1 r.2 target) source a
  obtain ⟨hsize, hstate⟩ := forM_addEdge_ok h hsource
  have hsource := hstate source
  rw [if_pos rfl] at hsource
  exact ⟨a', h, hsize, by rw [hsource], by rw [hsource], fun t ht => by rw [hstate, if_neg ht]⟩

theorem byteTarget?_runs (s : ByteSet) (target : Nat) (b : UInt8) :
    (∃ e ∈ s.runs.map fun r => Edge.bytes r.1 r.2 target,
      Dfa.Subset.byteTarget? b e = some target) ↔ s.test b = true := by
  rw [← exists_mem_runs]
  simp [Dfa.Subset.byteTarget?]

theorem getD_symbolClassesOf_iff {classes : List ByteSet} (h : Classes classes) {b : UInt8}
    {i : Nat} : (symbolClassesOf classes).getD b.toNat 0 = i ↔
      ∃ c, classes[i]? = some c ∧ c.test b = true := by
  constructor
  · rintro rfl
    exact getD_symbolClassesOf h b
  · rintro ⟨c, hc, hb⟩
    exact getD_symbolClassesOf_eq h.apart hc hb

/-- The walk from the least member to the next one visits all members of a set in ascending order
and then ends. So a state gets one edge for each maximal run, in ascending order, and a byte is on
one of these edges just if it is a member. Disjoint classes that hold all bytes give each byte the
place of its class. -/
theorem walk_exact (s : ByteSet) (target : Nat) {a : Arena} {source : Nat}
    (hsource : source < a.size) {classes : List ByteSet} (hclasses : Classes classes) :
    ((∀ l, Visits s s.first? l ↔ l = s.toList) ∧ s.toList.Pairwise (· < ·) ∧
      ∀ b, b ∈ s.toList ↔ s.test b = true) ∧
    ((∀ l, FindsRuns s s.first? l ↔ l = s.runs) ∧ s.runs.Pairwise (fun r r' => r.2 < r'.1) ∧
      ∀ lo hi, (lo, hi) ∈ s.runs ↔ s.IsRun lo hi) ∧
    (∃ a', addByteSet source s target a = .ok ((), a') ∧
      Appends a a' source (s.runs.map fun r => .bytes r.1 r.2 target)) ∧
    (∀ b, (∃ e ∈ s.runs.map fun r => Edge.bytes r.1 r.2 target,
      Dfa.Subset.byteTarget? b e = some target) ↔ s.test b = true) ∧
    ∀ b i, (symbolClassesOf classes).getD b.toNat 0 = i ↔
      ∃ c, classes[i]? = some c ∧ c.test b = true := by
  have hruns := s.runsFrom_runs
  refine ⟨⟨fun l => visits_iff, s.ascending_toList, s.mem_toList⟩, ⟨fun l => findsRuns_iff,
    hruns.gap.imp fun hgap => ?_, fun lo hi => hruns.mem_iff⟩, addByteSet_appends s target hsource,
    byteTarget?_runs s target, fun b i => getD_symbolClassesOf_iff hclasses⟩
  exact UInt8.lt_iff_toNat_lt.2 (Nat.lt_of_succ_lt hgap)

/-- Two bytes on both sides of a border between words, and the last byte. -/
def bordering : ByteSet := ofPred fun c => c == 63 || c == 64 || c == 255

theorem classes_bordering : Classes [bordering, bordering.compl] where
  cover b := by
    rcases Bool.eq_false_or_eq_true (bordering.test b) with h | h
    · exact ⟨bordering, by simp, h⟩
    · exact ⟨bordering.compl, by simp, by simp [h]⟩
  apart := List.pairwise_pair.2 fun b hb hc => by simp [hb] at hc
  inhabited s hs := by
    rcases List.mem_pair.1 hs with rfl | rfl
    · exact ⟨63, by simp [bordering]⟩
    · exact ⟨0, by simp [bordering]⟩

/-- The run of the two bytes goes across the border. -/
theorem walk_exact_bordering : Visits bordering bordering.first? [63, 64, 255] ∧
    FindsRuns bordering bordering.first? [(63, 64), (255, 255)] ∧
    (symbolClassesOf [bordering, bordering.compl]).getD 64 0 = 0 ∧
    ∃ a', addByteSet 0 bordering 0 #[{}] = .ok ((), a') ∧
      (stateIn a' 0).edges = #[.bytes 63 64 0, .bytes 255 255 0] := by
  obtain ⟨⟨hvisits, _⟩, ⟨hfinds, _⟩, ⟨a', ha', happends⟩, _, hclass⟩ :=
    walk_exact bordering 0 (a := #[{}]) (by decide : 0 < 1) classes_bordering
  have hlist : bordering.toList = [63, 64, 255] := by decide +kernel
  have hruns : bordering.runs = [(63, 64), (255, 255)] := by decide +kernel
  rw [hruns] at happends
  exact ⟨(hvisits _).2 hlist.symm, (hfinds _).2 hruns.symm,
    (hclass 64 0).2 ⟨bordering, rfl, by simp [bordering]⟩, a', ha', happends.edges⟩

end ByteRegex.ByteSet
