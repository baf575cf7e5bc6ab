import Std.Data.HashMap
import MajorityGraph.LogicNetwork

/-!
Simulation of networks by truth tables, over the inputs or over the leaves of a window or a cut.
-/

namespace MajorityGraph

namespace Simulation

variable {ν : Type} [LogicNetwork ν]

open LogicNetwork

/-- Tables of nodes, keyed by node id. -/
abbrev Values := Std.HashMap Nat TruthTable

/-- State of the walk that lists gates in topological order. -/
structure TopoWalk where
  done : Std.HashMap Nat Unit
  inProgress : Std.HashMap Nat Unit
  order : Array Node

/-- The depth-first walk below one output: a node is listed when the walk returns to it, after
its fan-ins; the stack holds nodes with a flag telling whether their fan-ins were pushed. -/
def topoFrom (ntk : ν) : Nat → List (Node × Bool) → TopoWalk → Except Fault TopoWalk
  | 0, _, _ => .error .boundExceeded
  | _, [], w => .ok w
  | fuel + 1, (n, expanded) :: stack, w =>
    if expanded then
      let w := { w with inProgress := w.inProgress.erase n.id }
      let w := if w.done.contains n.id then w
        else { w with done := w.done.insert n.id (), order := w.order.push n }
      topoFrom ntk fuel stack w
    else do
      if w.done.contains n.id then return ← topoFrom ntk fuel stack w
      if !(← isGate ntk n) then return ← topoFrom ntk fuel stack w
      if w.inProgress.contains n.id then throw (.cycleThrough n)
      let w := { w with inProgress := w.inProgress.insert n.id () }
      let fs ← fanins ntk n
      let pushed := fs.reverse.filter fun f => !w.done.contains f.node.id
      let stack := pushed.reverse.map (fun f => (f.node, false)) ++ (n, true) :: stack
      topoFrom ntk fuel stack w

/-- The live gates reachable from the outputs, each after all of its fan-ins, in the order a
depth-first walk over the outputs returns to them. -/
def topologicalOrder (ntk : ν) : Except Fault (Array Node) := do
  let fuel := 4 * idBound ntk + 4
  let w ← (pos ntk).foldlM (fun w po => topoFrom ntk (fuel + 1) [(po.node, false)] w)
    ⟨{}, {}, #[]⟩
  pure w.order

/-- The table of a signal from the table of its node. -/
def signalValue (values : Values) (f : Signal) : Except Fault TruthTable :=
  match values.get? f.node.id with
  | some t => .ok (if f.isComplemented then t.not else t)
  | none => .error .missingEntry

/-- The table of node `n` from the tables of its fan-ins. -/
def evaluate (ntk : ν) (n : Node) (values : Values) : Except Fault TruthTable := do
  let fs ← fanins ntk n
  let ts ← fs.mapM fun f => match values.get? f.node.id with
    | some t => .ok t
    | none => .error .missingEntry
  compute ntk n ts

/-- Constant 0 for the constant node and projections for the given variables, in order. -/
def startValues (numVars : Nat) (vars : Array Node) : Except Fault Values := do
  let zero ← TruthTable.constant numVars false
  let mut values : Values := ({} : Values).insert 0 zero
  for i in List.range vars.size do
    values := values.insert (vars.getD i default).id (← TruthTable.nthVar numVars i)
  pure values

/-- The table of every constant, input and gate reachable from the outputs, over the inputs. -/
def simulateNodes (ntk : ν) : Except Fault Values := do
  let values ← startValues (numPis ntk) (pis ntk)
  (← topologicalOrder ntk).foldlM (fun values n => do
    pure (values.insert n.id (← evaluate ntk n values))) values

/-- The table of every output, over the inputs. -/
def simulate (ntk : ν) : Except Fault (Array TruthTable) := do
  let values ← simulateNodes ntk
  (pos ntk).mapM (signalValue values)

/-- The walk of `simulateCut`: a node whose fan-ins are all known is evaluated when the walk
returns to it; an input reached this way is outside the cut. -/
def cutWalk (ntk : ν) : Nat → List (Node × Bool) → Values → Except Fault Values
  | 0, _, _ => .error .boundExceeded
  | _, [], values => .ok values
  | fuel + 1, (n, expanded) :: stack, values => do
    if values.contains n.id then return ← cutWalk ntk fuel stack values
    if expanded then
      return ← cutWalk ntk fuel stack (values.insert n.id (← evaluate ntk n values))
    if ← isPi ntk n then throw (.inputOutsideCut n)
    let fs ← fanins ntk n
    let pushed := (fs.filter fun f => !values.contains f.node.id).map (·.node, false)
    cutWalk ntk fuel (pushed.reverse ++ (n, true) :: stack) values

/-- The function of `root` over the cut `leaves`, leaf `i` being variable `i`, with the tables
of every node between the leaves and the root. -/
def simulateCut (ntk : ν) (leaves : Array Node) (root : Node) :
    Except Fault (TruthTable × Values) := do
  let values ← startValues leaves.size leaves
  let values ← cutWalk ntk (4 * idBound ntk + 4) [(root, false)] values
  match values.get? root.id with
  | some t => pure (t, values)
  | none => throw .missingEntry

/-- The functions of `nodes` over the cut `leaves`, evaluated in the given order. -/
def simulateWindow (ntk : ν) (leaves : Array Node) (nodes : Array Node) : Except Fault Values := do
  let values ← startValues leaves.size leaves
  nodes.foldlM (fun values n => do pure (values.insert n.id (← evaluate ntk n values))) values

/-- The entries of a table map in increasing node order. -/
def sortedEntries (values : Values) : Array (Node × TruthTable) :=
  (values.toArray.qsort (fun a b => a.1 < b.1)).map fun e => (⟨e.1⟩, e.2)

end Simulation

end MajorityGraph
