import MajorityGraph.Journal
import MajorityGraph.Network.NodeData
import MajorityGraph.UniqueTable

/-!
Majority-inverter graphs: hash-consed three-input majority gates with complemented edges and
fan-out bookkeeping; a node taken out stays, dead, until the network is rebuilt.
-/

-- Powers of naturals are computed by `Nat.pow`, whatever algebraic instances are in scope.
attribute [local instance (1100)] instPowNat

namespace MajorityGraph

instance : BucketHash NodeData := ⟨NodeData.hash⟩

/-- The uses of a node: its fan-out count, the gates that use it (once per fan-in slot), and
whether the node is dead. -/
structure NodeRefs where
  fanout : Nat
  parents : Array Node
  dead : Bool
deriving Repr, Inhabited

/-- The largest fan-out count: the counter is a 32-bit word. -/
def NodeRefs.maxFanout : Nat := 2 ^ (32 : Nat) - 1

/-- A majority-inverter graph. -/
structure Network where
  table : UniqueTable NodeData
  refs : Array NodeRefs
  inputs : Array Node
  outputs : Array Signal
  numGates : Nat

namespace Network

/-- A network holding only the constant node, whose unique table starts with `2 ^ bits`
buckets. -/
def withBucketBits (bits : Nat) : Except Fault Network := do
  let table ← UniqueTable.new bits
  let (_, table) := table.add NodeData.constant
  pure ⟨table, #[⟨0, #[], false⟩], #[], #[], 0⟩

/-- The bucket bits of a fresh network when none are asked for. -/
def defaultBucketBits : Nat := 12

/-- The network holding only the constant node, with the default bucket count. -/
def empty : Network :=
  ⟨(UniqueTable.add ⟨#[], {}, defaultBucketBits, 0⟩ NodeData.constant).2, #[⟨0, #[], false⟩],
    #[], #[], 0⟩

/-- Number of node ids, dead nodes included. -/
def size (net : Network) : Nat := net.table.size

/-- Number of primary inputs. -/
def numPis (net : Network) : Nat := net.inputs.size

/-- Number of primary outputs. -/
def numPos (net : Network) : Nat := net.outputs.size

/-- Number of gates taken out and not yet compacted away: the nodes besides the constant, the
inputs and the live gates. The count must not run below zero. -/
def numDead (net : Network) : Except Fault Nat :=
  if 1 + net.inputs.size + net.numGates ≤ net.size then
    .ok (net.size - 1 - net.inputs.size - net.numGates)
  else .error .counterUnderflow

/-- The record of a node that the network has. -/
def data (net : Network) (n : Node) : Except Fault NodeData :=
  match net.table.cells[n.id]? with
  | some c => .ok c.value
  | none => .error (.nodeMissing n)

/-- The uses of a node that the network has. -/
def refsOf (net : Network) (n : Node) : Except Fault NodeRefs :=
  if n.id < net.size then
    match net.refs[n.id]? with
    | some r => .ok r
    | none => .error (.nodeMissing n)
  else .error (.nodeMissing n)

/-- Changes the uses of a node that the network has. -/
def modifyRefs (net : Network) (n : Node) (f : NodeRefs → NodeRefs) : Except Fault Network := do
  let _ ← net.refsOf n
  let ⟨table, refs, inputs, outputs, numGates⟩ := net
  pure ⟨table, refs.modify n.id f, inputs, outputs, numGates⟩

/-- Changes the unique table of node records. -/
def updateTable (net : Network)
    (f : UniqueTable NodeData → Except Fault (UniqueTable NodeData)) : Except Fault Network := do
  let ⟨table, refs, inputs, outputs, numGates⟩ := net
  pure ⟨← f table, refs, inputs, outputs, numGates⟩

/-- Whether a node is the constant. -/
def isConstant (n : Node) : Bool := n.id == 0

/-- Whether a node is a primary input. -/
def isPi (net : Network) (n : Node) : Except Fault Bool := do
  pure ((← net.data n).kind == .input)

/-- Whether a node is a gate: neither the constant nor an input. -/
def isGate (net : Network) (n : Node) : Except Fault Bool := do
  if isConstant n then pure false else do pure !(← net.isPi n)

/-- Whether a node was taken out. -/
def isDead (net : Network) (n : Node) : Except Fault Bool := do
  pure (← net.refsOf n).dead

/-- The fan-ins of a node in stored order: three for a gate, dead or alive, none otherwise. -/
def fanins (net : Network) (n : Node) : Except Fault (List Signal) := do
  let d ← net.data n
  pure (if d.isGate then d.fanins.toList else [])

/-- The fan-out count of a node. -/
def fanoutSize (net : Network) (n : Node) : Except Fault Nat := do
  pure (← net.refsOf n).fanout

/-- The gates that use a node, once per fan-in slot, in the order of the uses. -/
def parents (net : Network) (n : Node) : Except Fault (Array Node) := do
  pure (← net.refsOf n).parents

/-- Whether the stored record of id `i` is a live gate. -/
def isLiveGateId (net : Network) (i : Nat) : Bool :=
  match net.table.cells[i]?, net.refs[i]? with
  | some c, some r => c.value.isGate && !r.dead
  | _, _ => false

/-- The live gates in increasing id order. -/
def gates (net : Network) : Array Node :=
  ((List.range' 1 (net.size - 1)).filter net.isLiveGateId).toArray.map (⟨·⟩)

/-- The network as a record: `Mig { size: 5, pis: 2, pos: 1, gates: 1 }`. -/
def debugText (net : Network) : String :=
  s!"Mig \x7b size: {net.size}, pis: {net.numPis}, pos: {net.numPos}, gates: {net.numGates} \x7d"

/-- Counts one more use of a node that the network has, and changes its uses by `f`; a count
already at the counter's largest value overflows. -/
def addUse (net : Network) (n : Node) (f : NodeRefs → NodeRefs) : Except Fault Network := do
  let r ← net.refsOf n
  if NodeRefs.maxFanout ≤ r.fanout then throw .sumOverflow
  net.modifyRefs n fun r => f { r with fanout := r.fanout + 1 }

/-- Adds one use of `child` by the gate `parent`. -/
def addReference (net : Network) (child parent : Node) : Except Fault Network :=
  net.addUse child fun r => { r with parents := r.parents.push parent }

/-- Removes the last element after moving it to position `i`: the order that removal by
swapping leaves. -/
def swapRemove {α : Type} [Inhabited α] (xs : Array α) (i : Nat) : Array α :=
  if i + 1 < xs.size then (xs.set! i (xs.getD (xs.size - 1) default)).pop else xs.pop

/-- Removes one use of `child` by `parent`: the count drops, and the first entry of `parent`
among the parents is removed by swapping. -/
def removeReference (net : Network) (child parent : Node) : Except Fault Network := do
  let r ← net.refsOf child
  if r.fanout == 0 then throw (.fanoutUnderflow child)
  net.modifyRefs child fun r =>
    let ⟨fanout, parents, dead⟩ := r
    let parents := match parents.findIdx? (· == parent) with
      | some i => swapRemove parents i
      | none => parents
    ⟨fanout - 1, parents, dead⟩

/-- The network with one more primary input, on the node whose index is the network's size,
and that input's plain signal. -/
def addInput (net : Network) : Signal × Network :=
  let ⟨table, refs, inputs, outputs, numGates⟩ := net
  let (i, table) := table.add NodeData.input
  (Signal.make ⟨i⟩ false, ⟨table, refs.push ⟨0, #[], false⟩, inputs.push ⟨i⟩, outputs, numGates⟩)

/-- Adds a primary input and returns its plain signal; the index of the new node must name a
node. -/
def createPi (net : Network) : Except Fault (Signal × Network) := do
  let _ ← Node.ofIndex net.size
  pure net.addInput

/-- Adds a primary output and returns its position; the output counts as a use of its node. -/
def createPo (net : Network) (f : Signal) : Except Fault (Nat × Network) := do
  let ⟨table, refs, inputs, outputs, numGates⟩ ← net.addUse f.node id
  pure (outputs.size, ⟨table, refs, inputs, outputs.push f, numGates⟩)

end Network

/-- Work on a network that writes to a journal and may stop with a fault. -/
abbrev NetM := StateT Network Logged

end MajorityGraph
