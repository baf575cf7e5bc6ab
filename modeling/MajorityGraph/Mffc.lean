import Std.Data.HashMap
import MajorityGraph.LogicNetwork

/-! Maximum fan-out-free cones bounded by leaves: the gates used only, transitively, by a root. -/

namespace MajorityGraph

namespace Mffc

variable {ν : Type} [LogicNetwork ν]

open LogicNetwork

/-- Uses of a gate not yet accounted for by the cone, keyed by node id. -/
abbrev Counts := Std.HashMap Nat Nat

/-- Counts down the uses of the fan-ins of `n`; the gates whose count reaches zero join the
cone and are returned in fan-in order. -/
def release (ntk : ν) (leaves : Array Node) (n : Node) (counts : Counts) :
    Except Fault (List Node × Counts) := do
  let fs ← fanins ntk n
  let mut joined := []
  let mut counts := counts
  for f in fs do
    let child := f.node
    if !(← isGate ntk child) || leaves.contains child then continue
    let refs ← match counts.get? child.id with
      | some r => pure r
      | none => fanoutSize ntk child
    if refs == 0 then throw .counterUnderflow
    counts := counts.insert child.id (refs - 1)
    if refs - 1 == 0 then joined := joined ++ [child]
  pure (joined, counts)

/-- The growth of the cone: pops a member and adds the fan-ins it releases. -/
def grow (ntk : ν) (leaves : Array Node) :
    Nat → List Node → Array Node → Counts → Except Fault (Array Node)
  | 0, _, _, _ => .error .boundExceeded
  | _, [], cone, _ => .ok cone
  | fuel + 1, n :: stack, cone, counts => do
    let (joined, counts) ← release ntk leaves n counts
    grow ntk leaves fuel (joined.reverse ++ stack) (cone ++ joined.toArray) counts

/-- The gates of the cone of `root` bounded by `leaves`, root first. -/
def nodes (ntk : ν) (root : Node) (leaves : Array Node) : Except Fault (Array Node) :=
  grow ntk leaves (idBound ntk + 2) [root] #[root] {}

/-- The number of gates in the cone of `root` bounded by `leaves`, root included. -/
def size (ntk : ν) (root : Node) (leaves : Array Node) : Except Fault Nat :=
  (·.size) <$> nodes ntk root leaves

end Mffc

end MajorityGraph
