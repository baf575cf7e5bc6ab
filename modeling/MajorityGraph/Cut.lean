import Std.Data.HashMap
import MajorityGraph.LogicNetwork

/-!
Reconvergence-driven cuts: from the root's fan-ins, a leaf is replaced by its fan-ins while the
cut stays within its limit, the leaf adding the fewest new leaves first.
-/

namespace MajorityGraph

/-- The leaf limit of cuts. -/
structure CutLimit where
  maxLeaves : Nat
deriving Repr

namespace CutLimit

/-- A limit of `k` leaves; a cut needs room for at least one. -/
def new (k : Nat) : Except Fault CutLimit :=
  if k > 0 then .ok ⟨k⟩ else .error .cutWithoutLeaves

/-- The limit used when none is given: eight leaves. -/
def standard : CutLimit := ⟨8⟩

variable {ν : Type} [LogicNetwork ν]

open LogicNetwork

/-- The non-constant fan-ins of `n` not yet visited, in fan-in order. -/
def freshFanins (ntk : ν) (visited : Std.HashMap Nat Unit) (n : Node) :
    Except Fault (List Node) := do
  let fs ← fanins ntk n
  pure ((fs.map (·.node)).filter fun m => m.id != 0 && !visited.contains m.id)

/-- Marks nodes visited and appends the first visit of each to the leaves. -/
def addLeaves (visited : Std.HashMap Nat Unit) (leaves : Array Node) (ns : List Node) :
    Std.HashMap Nat Unit × Array Node :=
  ns.foldl (fun (v, ls) m => if v.contains m.id then (v, ls) else (v.insert m.id (), ls.push m))
    (visited, leaves)

/-- The first leaf of least expansion cost among the leaves that are not inputs, with its
position and cost. -/
def cheapestLeaf (ntk : ν) (visited : Std.HashMap Nat Unit) (leaves : Array Node) :
    Except Fault (Option (Nat × Nat)) := do
  let mut best : Option (Nat × Nat) := none
  for i in List.range leaves.size do
    let leaf := leaves.getD i default
    if ← isPi ntk leaf then continue
    let cost := (← freshFanins ntk visited leaf).length
    match best with
    | some (_, c) => if cost < c then best := some (i, cost)
    | none => best := some (i, cost)
  pure best

/-- The growth of a cut: expands the cheapest leaf while the cut stays within the limit. -/
def grow (lim : CutLimit) (ntk : ν) (root : Node) :
    Nat → Std.HashMap Nat Unit → Array Node → Logged (Array Node)
  | 0, _, _ => orFail (.error .boundExceeded)
  | fuel + 1, visited, leaves => do
    match ← orFail (cheapestLeaf ntk visited leaves) with
    | none => pure leaves
    | some (pos, cost) =>
      if leaves.size - 1 + cost > lim.maxLeaves then return leaves
      let leaf := leaves.getD pos default
      let leaves := leaves.eraseIdxIfInBounds pos
      logAt .trace s!"cut({root.display}): expand {leaf.display} (cost {cost})"
      let fresh ← orFail (freshFanins ntk visited leaf)
      let (visited, leaves) := addLeaves visited leaves fresh
      grow lim ntk root fuel visited leaves

/-- A cut of `root` within the limit, unless the root alone has more non-constant fan-ins, in
increasing node order. -/
def compute (lim : CutLimit) (ntk : ν) (root : Node) : Logged (Array Node) := do
  let visited : Std.HashMap Nat Unit := ({} : Std.HashMap Nat Unit).insert root.id ()
  let first ← orFail (freshFanins ntk visited root)
  let (visited, leaves) := addLeaves visited #[] first
  let leaves ← grow lim ntk root (idBound ntk + 2) visited leaves
  pure (leaves.toList.mergeSort fun a b => a.id ≤ b.id).toArray

end CutLimit

end MajorityGraph
