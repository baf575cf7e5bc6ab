import Std.Data.HashMap
import MajorityGraph.LogicNetwork
import MajorityGraph.Journal

/-!
Cone-of-influence views: a network restricted to the transitive fan-in of some pivots, with
the inputs it reaches as leaves and its nodes numbered densely.
-/

namespace MajorityGraph

/-- A cone-of-influence view of a network. -/
structure ConeView where
  net : Network
  pivots : Array Node
  wrap : Bool
  leaves : Array Node
  inner : Array Node
  outputs : Array Signal
  nodes : Array Node
  indices : Std.HashMap Nat Nat

namespace ConeView

/-- Nodes met by depth-first walks from the pivots in order, fan-ins in order, each once and
the constant left out; the walk stops at inputs. -/
def collectFrom (net : Network) :
    Nat → List Node → Std.HashMap Nat Unit → Array Node →
      Except Fault (Std.HashMap Nat Unit × Array Node)
  | 0, _, _, _ => .error .boundExceeded
  | _, [], visited, acc => .ok (visited, acc)
  | fuel + 1, n :: stack, visited, acc => do
    if visited.contains n.id then return ← collectFrom net fuel stack visited acc
    let visited := visited.insert n.id ()
    if n.id == 0 then return ← collectFrom net fuel stack visited acc
    let acc := acc.push n
    if ← net.isPi n then return ← collectFrom net fuel stack visited acc
    let fs ← net.fanins n
    let pushed := (fs.reverse.filter fun f => !visited.contains f.node.id).map (·.node)
    collectFrom net fuel (pushed.reverse ++ stack) visited acc

/-- Colours of the topological sort: not met, on the current path, finished. -/
inductive Colour where
  | white
  | gray
  | black
deriving DecidableEq

/-- The depth-first sort of the inner nodes: a node is listed when all its fan-ins are
finished. The stack holds nodes with the position of the next fan-in to visit. -/
def sortFrom (net : Network) (wrap : Bool) :
    Nat → List (Node × Nat) → Std.HashMap Nat Colour → Array Node →
      Except Fault (Std.HashMap Nat Colour × Array Node)
  | 0, _, _, _ => .error .boundExceeded
  | _, [], colour, order => .ok (colour, order)
  | fuel + 1, (n, i) :: stack, colour, order => do
    let fs ← net.fanins n
    match fs[i]? with
    | some f =>
      let child := f.node
      match colour.get? child.id with
      | some .white =>
        sortFrom net wrap fuel ((child, 0) :: (n, i + 1) :: stack)
          (colour.insert child.id .gray) order
      | some .gray =>
        if wrap then sortFrom net wrap fuel ((n, i + 1) :: stack) colour order
        else .error (.coneCycleThrough child)
      | _ => sortFrom net wrap fuel ((n, i + 1) :: stack) colour order
    | none => sortFrom net wrap fuel stack (colour.insert n.id .black) (order.push n)

/-- The inner nodes in topological order; the constant and the leaves count as finished. -/
def topologicalSort (net : Network) (wrap : Bool) (leaves inner : Array Node) :
    Except Fault (Array Node) := do
  let mut colour : Std.HashMap Nat Colour := ({} : Std.HashMap Nat Colour).insert 0 .black
  for n in leaves do colour := colour.insert n.id .black
  for n in inner do colour := colour.insert n.id .white
  let mut order := #[]
  for start in inner do
    if colour.get? start.id != some .white then continue
    let (c, o) ← sortFrom net wrap (5 * inner.size + 5) [(start, 0)]
      (colour.insert start.id .gray) order
    colour := c
    order := o
  pure order

/-- The view of `net` with the given pivots; with `wrap`, a cycle among the inner nodes is
skipped instead of refused. -/
def make (net : Network) (pivots : Array Node) (wrap : Bool) : Logged ConeView := do
  let fuel := pivots.size + 4 * net.size + 4
  let (_, collected) ← orFail (pivots.foldlM
    (fun (visited, acc) p => collectFrom net fuel [p] visited acc) (({} : Std.HashMap Nat Unit), #[]))
  let isPivot (n : Node) := pivots.contains n
  let mut leaves := #[]
  let mut inner := #[]
  for n in collected do
    if ← orFail (net.isPi n) then leaves := leaves.push n
    else if !isPivot n then inner := inner.push n
  let mut seen : Std.HashMap Nat Unit := {}
  for p in pivots do
    if p.id != 0 then
      if !(← orFail (net.isPi p)) && !seen.contains p.id then
        seen := seen.insert p.id ()
        inner := inner.push p
  let ordered ← orFail (topologicalSort net wrap leaves inner)
  let nodes := #[Node.constant] ++ leaves ++ ordered
  let indices := (List.range nodes.size).foldl
    (fun m i => m.insert (nodes.getD i default).id i) ({} : Std.HashMap Nat Nat)
  logAt .debug s!"CoiView: {pivots.size} pivots, {leaves.size} leaves, {ordered.size} inner nodes"
  pure ⟨net, pivots, wrap, leaves, ordered, pivots.map (Signal.make · false), nodes, indices⟩

/-- Whether the view holds a node. -/
def contains (v : ConeView) (n : Node) : Bool := v.indices.contains n.id

/-- Whether a node is a leaf: its position lies after the constant and within the leaves. -/
def isLeaf (v : ConeView) (n : Node) : Bool :=
  match v.indices.get? n.id with
  | some i => 1 ≤ i && i < 1 + v.leaves.size
  | none => false

/-- The position of a node in the view. -/
def nodeToIndex (v : ConeView) (n : Node) : Except Fault Nat :=
  match v.indices.get? n.id with
  | some i => .ok i
  | none => .error (.nodeNotInView n)

/-- The node at a position of the view. -/
def indexToNode (v : ConeView) (i : Nat) : Except Fault Node :=
  match v.nodes[i]? with
  | some n => .ok n
  | none => .error (.indexOutOfBounds v.nodes.size i)

/-- Fan-ins in the view: none for a leaf, the network's otherwise. -/
def fanins (v : ConeView) (n : Node) : Except Fault (List Signal) :=
  if v.isLeaf n then .ok [] else v.net.fanins n

end ConeView

instance : LogicNetwork ConeView where
  size v := v.nodes.size
  idBound v := v.net.size
  numPis v := v.leaves.size
  numPos v := v.outputs.size
  numGates v := v.inner.size
  isPi v n := pure (v.isLeaf n)
  isDead v n := v.net.isDead n
  fanins v n := v.fanins n
  fanoutSize v n := v.net.fanoutSize n
  pis v := v.leaves
  pos v := v.outputs
  nodeToIndex v n := v.nodeToIndex n
  indexToNode v i := v.indexToNode i
  gates v := v.inner
  compute v n values := v.net.computeGate n values

end MajorityGraph
