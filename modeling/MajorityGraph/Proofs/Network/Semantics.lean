import MajorityGraph.Proofs.Network.WellFormed
import MajorityGraph.Proofs.Network.Normalize

/-!
What a network computes: valuations consistent with its gates, and networks that grow into
others while keeping them.
-/

namespace MajorityGraph

/-- Valuations that agree below `k` give a signal on a node below `k` one value. -/
theorem Signal.eval_congr {val val' : Node → Bool} {k : Nat}
    (agree : ∀ n : Node, n.id < k → val' n = val n) {s : Signal} (below : s.node.id < k)
    : s.eval val' = s.eval val := by
  simp [Signal.eval, agree s.node below]

/-- Valuations that agree on the fan-in nodes give the fan-ins one majority. -/
theorem Fanins.eval_congr_of_mem {val val' : Node → Bool} {f : Fanins}
    (agree : ∀ s ∈ f.toList, val' s.node = val s.node) : f.eval val' = f.eval val := by
  simp only [Fanins.eval, Signal.eval, agree f.a (by simp [Fanins.toList]),
    agree f.b (by simp [Fanins.toList]), agree f.c (by simp [Fanins.toList])]

/-- Valuations that agree below `k` give fan-ins on nodes below `k` one majority. -/
theorem Fanins.eval_congr {val val' : Node → Bool} {k : Nat}
    (agree : ∀ n : Node, n.id < k → val' n = val n) {f : Fanins}
    (below : ∀ s ∈ f.toList, s.node.id < k) : f.eval val' = f.eval val :=
  Fanins.eval_congr_of_mem fun s member => agree s.node (below s member)

namespace Network

/-- A valuation of the nodes that agrees with the network under the input assignment `x`. -/
structure Consistent (net : Network) (x : Nat → Bool) (val : Node → Bool) : Prop where
  constant : val ⟨0⟩ = false
  inputs : ∀ i n, net.inputs[i]? = some n → val n = x i
  gates : ∀ g f, net.gateFanins g = some f → val g = f.eval val

/-- A node with a record is a node of the network. -/
theorem lt_size_of_valueAt {net : Network} {i : Nat} {d : NodeData}
    (value : net.table.valueAt i = some d) : i < net.size := by
  simp only [UniqueTable.valueAt, Option.map_eq_some_iff] at value
  obtain ⟨c, cell, _⟩ := value
  exact (Array.getElem?_eq_some_iff.mp cell).1

/-- `net'` keeps every node of `net`, with the same record, liveness and inputs and outputs;
it may have more nodes after them. -/
structure Grows (net net' : Network) : Prop where
  size : net.size ≤ net'.size
  gates : ∀ n, n.id < net.size → net'.gateFanins n = net.gateFanins n
  live : ∀ n, net.Live n → net'.Live n
  inputs : net'.inputs = net.inputs
  outputs : net'.outputs = net.outputs
  values : ∀ i, i < net.size → net'.table.valueAt i = net.table.valueAt i

theorem Grows.refl (net : Network) : Grows net net :=
  ⟨Nat.le_refl _, fun _ _ => rfl, fun _ live => live, rfl, rfl, fun _ _ => rfl⟩

theorem Grows.trans {net net' net'' : Network} (first : Grows net net') (second : Grows net' net'')
    : Grows net net'' :=
  ⟨Nat.le_trans first.size second.size,
    fun n lt => (second.gates n (Nat.lt_of_lt_of_le lt first.size)).trans (first.gates n lt),
    fun n live => second.live n (first.live n live), second.inputs.trans first.inputs,
    second.outputs.trans first.outputs,
    fun i lt => (second.values i (Nat.lt_of_lt_of_le lt first.size)).trans (first.values i lt)⟩

/-- Every record of a gate in `net` is still the record of a gate in `net'`: a step may change
the fan-ins of a gate, never make it an input or the constant. -/
def KeepsGateRecords (net net' : Network) : Prop :=
  ∀ i d, net.table.valueAt i = some d → d.isGate = true →
    ∃ d', net'.table.valueAt i = some d' ∧ d'.isGate = true

theorem KeepsGateRecords.refl (net : Network) : KeepsGateRecords net net :=
  fun _ d value isGate => ⟨d, value, isGate⟩

theorem KeepsGateRecords.trans {net net' net'' : Network} (first : KeepsGateRecords net net')
    (second : KeepsGateRecords net' net'') : KeepsGateRecords net net'' := by
  intro i d value isGate
  obtain ⟨d', value', isGate'⟩ := first i d value isGate
  exact second i d' value' isGate'

/-- A step that keeps the records of the nodes of `net` keeps the records of its gates. -/
theorem KeepsGateRecords.of_values {net net' : Network}
    (values : ∀ i, i < net.size → net'.table.valueAt i = net.table.valueAt i)
    : KeepsGateRecords net net' :=
  fun i d value isGate => ⟨d, (values i (lt_size_of_valueAt value)).trans value, isGate⟩

-----------------------------------------------------------------------------------------
-- What the meaning rests on
-----------------------------------------------------------------------------------------

/-- What the meaning of a network rests on, also while a substitution leaves gates unlinked:
every node has its record and its uses, node 0 is the constant, the unique table indexes its
linked cells and links only live gates, the inputs, the outputs and the fan-ins of live gates
name nodes of the network, and only gates are recorded as parents. -/
structure Sound (net : Network) : Prop where
  sizes : net.refs.size = net.table.cells.size
  constant : net.table.valueAt 0 = some NodeData.constant
  indexed : net.table.Indexed
  linkedGate : ∀ i, net.table.linkedAt i = true → (net.gateFanins ⟨i⟩).isSome
  inputsBelow : ∀ n ∈ net.inputs, n.id < net.size
  outputsBelow : ∀ s ∈ net.outputs, s.node.id < net.size
  faninsBelow : ∀ g f, net.gateFanins g = some f → ∀ s ∈ f.toList, s.node.id < net.size
  parentsGates : ∀ (n : Node) r (g : Node), net.refs[n.id]? = some r → g ∈ r.parents →
    ∃ d, net.table.valueAt g.id = some d ∧ d.isGate = true

/-- The constant is a node of every sound network. -/
theorem Sound.size_pos {net : Network} (sound : net.Sound) : 0 < net.size :=
  lt_size_of_valueAt sound.constant

theorem Coherent.sound {net : Network} (coherent : net.Coherent) : net.Sound where
  sizes := coherent.sizes
  constant := coherent.constant
  indexed := coherent.indexed
  linkedGate := coherent.linkedGate
  inputsBelow n member := lt_size_of_valueAt ((coherent.inputs n).mp member)
  outputsBelow s member := coherent.lt_size_of_live (coherent.outputsLive s member)
  faninsBelow g f gate s member := coherent.lt_size_of_live (coherent.faninsLive g f gate s member)
  parentsGates n r g uses member := by
    -- a recorded parent uses the node in a fan-in slot, so it is a live gate
    have counted : 0 < net.slots g n := by
      rw [← coherent.parents n r g uses]
      exact Array.count_pos_iff.mpr member
    unfold slots at counted
    cases gate : net.gateFanins g with
    | none => simp [gate] at counted
    | some f =>
        obtain ⟨c, _, cell, _, value, _⟩ := gateFanins_eq_some.mp gate
        exact ⟨c.value, by simp [UniqueTable.valueAt, cell], by
          simp [value, NodeData.majority, NodeData.isGate]⟩

/-- A change of uses and outputs that keeps the records, the inputs and the live gates keeps a
network sound, when its outputs stay on its nodes and only gates are recorded as parents. -/
theorem Sound.of_uses {net net' : Network} (sound : net.Sound) (table : net'.table = net.table)
    (inputs : net'.inputs = net.inputs) (sizes : net'.refs.size = net.refs.size)
    (gates : ∀ n, net'.gateFanins n = net.gateFanins n)
    (outputsBelow : ∀ s ∈ net'.outputs, s.node.id < net.size)
    (parentsGates : ∀ (n : Node) r (g : Node), net'.refs[n.id]? = some r → g ∈ r.parents →
      ∃ d, net.table.valueAt g.id = some d ∧ d.isGate = true)
    : net'.Sound := by
  have size : net'.size = net.size := by simp only [Network.size, table]
  refine {
    sizes := by rw [sizes, table, sound.sizes]
    constant := by rw [table]; exact sound.constant
    indexed := by rw [table]; exact sound.indexed
    linkedGate := fun i linked => ?_
    inputsBelow := fun n member => ?_
    outputsBelow := fun s member => size ▸ outputsBelow s member
    faninsBelow := fun g f gate s member => ?_
    parentsGates := fun n r g uses member => table ▸ parentsGates n r g uses member }
  · rw [gates]
    rw [table] at linked
    exact sound.linkedGate i linked
  · rw [size]
    rw [inputs] at member
    exact sound.inputsBelow n member
  · rw [size]
    rw [gates] at gate
    exact sound.faninsBelow g f gate s member

-----------------------------------------------------------------------------------------
-- Following a step
-----------------------------------------------------------------------------------------

/-- `net'` under `val'` follows `net` under `val`: it is sound, keeps the inputs, the outputs,
every node of `net` with its value and every gate as a gate, and `val'` is consistent with it. -/
structure Follows (x : Nat → Bool) (net : Network) (val : Node → Bool) (net' : Network)
    (val' : Node → Bool) : Prop where
  sound : net'.Sound
  consistent : net'.Consistent x val'
  size : net.size ≤ net'.size
  agree : ∀ n : Node, n.id < net.size → val' n = val n
  inputs : net'.inputs = net.inputs
  outputs : net'.outputs = net.outputs
  gateRecords : KeepsGateRecords net net'

theorem Follows.refl {x : Nat → Bool} {net : Network} {val : Node → Bool} (sound : net.Sound)
    (consistent : net.Consistent x val) : Follows x net val net val :=
  ⟨sound, consistent, Nat.le_refl _, fun _ _ => rfl, rfl, rfl, KeepsGateRecords.refl net⟩

theorem Follows.trans {x : Nat → Bool} {net net' net'' : Network} {val val' val'' : Node → Bool}
    (first : Follows x net val net' val') (second : Follows x net' val' net'' val'')
    : Follows x net val net'' val'' :=
  ⟨second.sound, second.consistent, Nat.le_trans first.size second.size,
    fun n lt => (second.agree n (Nat.lt_of_lt_of_le lt first.size)).trans (first.agree n lt),
    second.inputs.trans first.inputs, second.outputs.trans first.outputs,
    first.gateRecords.trans second.gateRecords⟩

/-- A signal on a node of `net` has the same value after a step that `net'` follows. -/
theorem Follows.eval {x : Nat → Bool} {net net' : Network} {val val' : Node → Bool}
    (follows : Follows x net val net' val') {s : Signal} (below : s.node.id < net.size)
    : s.eval val' = s.eval val :=
  Signal.eval_congr follows.agree below

end Network

end MajorityGraph
