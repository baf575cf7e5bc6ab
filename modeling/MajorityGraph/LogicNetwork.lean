import MajorityGraph.Network.Basic
import MajorityGraph.TruthTable.Basic

/-!
What read-only algorithms need of a network, provided by a majority-inverter graph and by a
cone-of-influence view over one.
-/

namespace MajorityGraph

/-- A network that algorithms can read. Queries on a node may fail when the node is unknown. -/
class LogicNetwork (ν : Type) where
  /-- Number of nodes, counted by the dense numbering. -/
  size : ν → Nat
  /-- A bound on every node id that the network's queries can reach. -/
  idBound : ν → Nat
  numPis : ν → Nat
  numPos : ν → Nat
  numGates : ν → Nat
  isPi : ν → Node → Except Fault Bool
  isDead : ν → Node → Except Fault Bool
  /-- Fan-ins in order; none for constants and inputs. -/
  fanins : ν → Node → Except Fault (List Signal)
  fanoutSize : ν → Node → Except Fault Nat
  pis : ν → Array Node
  pos : ν → Array Signal
  nodeToIndex : ν → Node → Except Fault Nat
  indexToNode : ν → Nat → Except Fault Node
  /-- The live gates. -/
  gates : ν → Array Node
  /-- The function of a gate from the functions of its fan-ins, before their polarities. -/
  compute : ν → Node → List TruthTable → Except Fault TruthTable

namespace LogicNetwork

variable {ν : Type} [LogicNetwork ν]

/-- Whether a node is a gate: neither the constant nor an input. -/
def isGate (ntk : ν) (n : Node) : Except Fault Bool := do
  if n.id == 0 then pure false else do pure !(← isPi ntk n)

end LogicNetwork

namespace Network

/-- The function of gate `n` of a network: the majority of its fan-in functions, a complemented
fan-in negated. -/
def computeGate (net : Network) (n : Node) (values : List TruthTable) : Except Fault TruthTable := do
  let fs ← net.fanins n
  match fs, values with
  | [sa, sb, sc], [ta, tb, tc] =>
    let pol (s : Signal) (t : TruthTable) := if s.isComplemented then t.not else t
    TruthTable.maj (pol sa ta) (pol sb tb) (pol sc tc)
  | _, _ => throw (.notMajority n fs.length)

end Network

instance : LogicNetwork Network where
  size net := net.size
  idBound net := net.size
  numPis net := net.numPis
  numPos net := net.numPos
  numGates net := net.numGates
  isPi net n := net.isPi n
  isDead net n := net.isDead n
  fanins net n := net.fanins n
  fanoutSize net n := net.fanoutSize n
  pis net := net.inputs
  pos net := net.outputs
  nodeToIndex _ n := pure n.id
  indexToNode _ i := Node.ofIndex i
  gates net := net.gates
  compute net n values := net.computeGate n values

end MajorityGraph
