-- A depth-first walk over the nodes below a bound. It follows the successors
-- of a node in their order, and may stop at a node.
import Std.Data.HashSet

namespace ByteRegex.Walk

/-! ## The measure of a walk -/

/-- The weights of the members of a list, added up. -/
def total (weight : Nat → Nat) : List Nat → Nat
  | [] => 0
  | v :: rest => weight v + total weight rest

/-- What a node can add to the walk: nothing once it has been seen. -/
def weight (succ : Nat → List Nat) (seen : Std.HashSet Nat) (v : Nat) : Nat :=
  if seen.contains v then 0 else (succ v).length + 1

/-- What the nodes that are not yet seen can still add to the walk. -/
def pending (succ : Nat → List Nat) (bound : Nat) (seen : Std.HashSet Nat) : Nat :=
  total (weight succ seen) (List.range bound)

theorem total_mono {f g : Nat → Nat} (hle : ∀ w, g w ≤ f w) (l : List Nat) :
    total g l ≤ total f l := by
  induction l with
  | nil => exact Nat.le_refl 0
  | cons w l ih => exact Nat.add_le_add (hle w) ih

theorem total_add_le {f g : Nat → Nat} (hle : ∀ w, g w ≤ f w) {v : Nat} (hv : g v = 0)
    {l : List Nat} (hmem : v ∈ l) : total g l + f v ≤ total f l := by
  induction l with
  | nil => simp at hmem
  | cons w l ih =>
    simp only [total]
    rcases List.mem_cons.1 hmem with rfl | h
    · have := total_mono hle l
      omega
    · have := ih h
      have := hle w
      omega

theorem weight_insert_le (succ : Nat → List Nat) (seen : Std.HashSet Nat) (v w : Nat) :
    weight succ (seen.insert v) w ≤ weight succ seen w := by
  by_cases hw : w ∈ seen <;> by_cases hvw : v = w <;> simp [weight, hw, hvw]

theorem pending_insert (succ : Nat → List Nat) {bound v : Nat} {seen : Std.HashSet Nat}
    (hv : v < bound) (hs : seen.contains v = false) :
    pending succ bound (seen.insert v) + ((succ v).length + 1) ≤ pending succ bound seen := by
  have h := total_add_le (weight_insert_le succ seen v) (by simp [weight])
    (List.mem_range.2 hv)
  simpa [pending, weight, hs] using h

/-! ## The walk -/

/-- Walks from the nodes on a stack, and adds each node to the order when it
is first met. A node for which `stop` holds is the last. -/
def visit (succ : Nat → List Nat) (stop : Nat → Bool) (bound : Nat) (stack : List Nat)
    (seen : Std.HashSet Nat) (order : Array Nat) : Array Nat :=
  match stack with
  | [] => order
  | v :: rest =>
    if h : v < bound ∧ seen.contains v = false then
      if stop v then order.push v
      else
        have := pending_insert succ h.1 h.2
        visit succ stop bound (succ v ++ rest) (seen.insert v) (order.push v)
    else visit succ stop bound rest seen order
termination_by pending succ bound seen + stack.length
decreasing_by
  · simp only [List.length_append, List.length_cons]
    omega
  · simp

/-- The nodes that a walk from `starts` meets, in that order, up to the first
for which `stop` holds. -/
def orderUntil (succ : Nat → List Nat) (stop : Nat → Bool) (bound : Nat) (starts : List Nat) :
    List Nat :=
  (visit succ stop bound starts ∅ #[]).toList

/-- The nodes that can be reached from `starts`. -/
def reachable (succ : Nat → List Nat) (bound : Nat) (starts : List Nat) : Std.HashSet Nat :=
  Std.HashSet.ofList (orderUntil succ (fun _ => false) bound starts)

end ByteRegex.Walk
