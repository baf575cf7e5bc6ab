import MajorityGraph.Network.Build
import MajorityGraph.Proofs.UniqueTable.Links

/-!
Well-formed networks: exact use counts, live uses, every live gate linked once in normal form,
an exact gate count and no cycle.
-/

namespace MajorityGraph

namespace Network

-----------------------------------------------------------------------------------------
-- Views of a network
-----------------------------------------------------------------------------------------

/-- The fan-ins of node `n` when it is a live gate: a majority record whose node is not dead. -/
def gateFanins (net : Network) (n : Node) : Option Fanins :=
  match net.table.cells[n.id]?, net.refs[n.id]? with
  | some c, some r => if c.value.isGate && !r.dead then some c.value.fanins else none
  | _, _ => none

/-- A node is live when the network has its uses and it was not taken out: the constant, an
input or a gate that is not dead. -/
def Live (net : Network) (n : Node) : Prop := ∃ r, net.refs[n.id]? = some r ∧ r.dead = false

/-- How many fan-in slots of `g` use node `n`, when `g` is a live gate; none otherwise. -/
def slots (net : Network) (g n : Node) : Nat :=
  match net.gateFanins g with
  | some f => f.toList.countP (·.node = n)
  | none => 0

/-- How many outputs use node `n`. -/
def outputUses (net : Network) (n : Node) : Nat := net.outputs.toList.countP (·.node = n)

/-- The number of live gates. -/
def liveGateCount (net : Network) : Nat :=
  ((List.range net.size).filter fun i => (net.gateFanins ⟨i⟩).isSome).length

/-- `rank` falls from every live gate to each of its fan-ins. -/
def Ranked (net : Network) (rank : Node → Nat) : Prop :=
  ∀ g f, net.gateFanins g = some f → ∀ s ∈ f.toList, rank s.node < rank g

-----------------------------------------------------------------------------------------
-- Well-formedness
-----------------------------------------------------------------------------------------

/-- Every use count of the network fits its 32-bit counter. -/
def FanoutFits (net : Network) : Prop :=
  ∀ (n : Node) r, net.refs[n.id]? = some r → r.fanout ≤ NodeRefs.maxFanout

/-- A network whose bookkeeping agrees with its gates, while live gates may wait unlinked: node
ids and use counts fit their words, the use counts are exact, every use names a live node, the unique table links live gates only, in
normal form and once each, the gate count is exact, and the fan-in relation has no cycle. -/
structure Coherent (net : Network) : Prop where
  /-- Every node has its record and its uses, and its index fits a node id. -/
  sizes : net.refs.size = net.table.cells.size
  fits : net.size ≤ Node.maxId + 1
  /-- Node 0 is the constant, and no other node is. -/
  constant : net.table.valueAt 0 = some NodeData.constant
  onlyConstant : ∀ i d, net.table.valueAt i = some d → d.kind = .constant → i = 0
  /-- The inputs are listed once each, and they are exactly the nodes with an input record. -/
  inputsNodup : net.inputs.toList.Nodup
  inputs : ∀ n, n ∈ net.inputs ↔ net.table.valueAt n.id = some NodeData.input
  inputRecord : ∀ i d, net.table.valueAt i = some d → d.kind = .input → d = NodeData.input
  /-- The fan-out of a node counts its outputs and its parents, and the parents hold each live
  gate once per fan-in slot on the node. -/
  fanout : ∀ n r, net.refs[n.id]? = some r → r.fanout = net.outputUses n + r.parents.size
  fanoutFits : net.FanoutFits
  parents : ∀ n r g, net.refs[n.id]? = some r → r.parents.count g = net.slots g n
  /-- Outputs and the fan-ins of live gates name live nodes. -/
  outputsLive : ∀ s ∈ net.outputs, net.Live s.node
  faninsLive : ∀ g f, net.gateFanins g = some f → ∀ s ∈ f.toList, net.Live s.node
  /-- The linked cells are live gates, stored in normal form, once each. -/
  linkedGate : ∀ i, net.table.linkedAt i = true → (net.gateFanins ⟨i⟩).isSome
  normal : ∀ g f, net.gateFanins g = some f → net.table.linkedAt g.id = true →
    f.normalize = .gate f false
  distinct : ∀ g h f, net.gateFanins g = some f → net.gateFanins h = some f →
    net.table.linkedAt g.id = true → net.table.linkedAt h.id = true → g = h
  indexed : net.table.Indexed
  /-- The gate count is the number of live gates. -/
  numGates : net.numGates = net.liveGateCount
  /-- Every fan-in of a live gate ranks below the gate. -/
  acyclic : ∃ rank, net.Ranked rank

/-- A network whose bookkeeping agrees with its gates: coherent, with every live gate linked, so
that the live gates are stored in normal form, once each, and are exactly the linked cells. -/
structure WellFormed (net : Network) : Prop extends net.Coherent where
  allLinked : ∀ g f, net.gateFanins g = some f → net.table.linkedAt g.id = true

-----------------------------------------------------------------------------------------
-- Reading the views
-----------------------------------------------------------------------------------------

theorem gateFanins_eq_some {net : Network} {n : Node} {f : Fanins}
    : net.gateFanins n = some f ↔
        ∃ c r, net.table.cells[n.id]? = some c ∧ net.refs[n.id]? = some r ∧
          c.value = NodeData.majority f ∧ r.dead = false := by
  unfold gateFanins
  cases cell : net.table.cells[n.id]? with
  | none => simp
  | some c =>
      cases uses : net.refs[n.id]? with
      | none => simp
      | some r =>
          obtain ⟨⟨kind, fanins⟩, next, linked⟩ := c
          obtain ⟨fanout, parents, dead⟩ := r
          cases kind <;> cases dead <;> simp [NodeData.isGate, NodeData.majority]

/-- The live gates read through the values of the unique table. -/
theorem gateFanins_eq (net : Network) (n : Node)
    : net.gateFanins n = match net.table.valueAt n.id, net.refs[n.id]? with
      | some v, some r => if v.isGate && !r.dead then some v.fanins else none
      | _, _ => none := by
  unfold gateFanins UniqueTable.valueAt
  cases net.table.cells[n.id]? <;> cases net.refs[n.id]? <;> rfl

/-- A live gate is a node of the network. -/
theorem lt_size_of_gateFanins {net : Network} {n : Node} {f : Fanins}
    (gate : net.gateFanins n = some f) : n.id < net.size := by
  obtain ⟨c, _, cell, _⟩ := gateFanins_eq_some.mp gate
  exact (Array.getElem?_eq_some_iff.mp cell).1

/-- A live gate is a live node. -/
theorem live_of_gateFanins {net : Network} {n : Node} {f : Fanins}
    (gate : net.gateFanins n = some f) : net.Live n := by
  obtain ⟨_, r, _, uses, _, alive⟩ := gateFanins_eq_some.mp gate
  exact ⟨r, uses, alive⟩

/-- Nothing past the last node is a live gate. -/
theorem gateFanins_eq_none {net : Network} {n : Node} (beyond : net.size ≤ n.id)
    : net.gateFanins n = none := by
  cases gate : net.gateFanins n with
  | none => rfl
  | some f => exact absurd (lt_size_of_gateFanins gate) (Nat.not_lt.mpr beyond)

/-- A live node is a node of the network. -/
theorem Coherent.lt_size_of_live {net : Network} (coherent : net.Coherent) {n : Node}
    (live : net.Live n) : n.id < net.size := by
  obtain ⟨r, uses, _⟩ := live
  have := (Array.getElem?_eq_some_iff.mp uses).1
  rw [coherent.sizes] at this
  exact this

/-- No output uses a node past the last one. -/
theorem Coherent.outputUses_eq_zero {net : Network} (coherent : net.Coherent) {n : Node}
    (beyond : net.size ≤ n.id) : net.outputUses n = 0 := by
  rw [outputUses, List.countP_eq_zero]
  intro s member same
  have := coherent.lt_size_of_live (coherent.outputsLive s (Array.mem_toList_iff.mp member))
  simp only [decide_eq_true_eq] at same
  rw [same] at this
  omega

/-- No gate uses a node past the last one. -/
theorem Coherent.slots_eq_zero {net : Network} (coherent : net.Coherent) (g : Node) {n : Node}
    (beyond : net.size ≤ n.id) : net.slots g n = 0 := by
  unfold slots
  cases gate : net.gateFanins g with
  | none => rfl
  | some f =>
      simp only
      rw [List.countP_eq_zero]
      intro s member same
      have := coherent.lt_size_of_live (coherent.faninsLive g f gate s member)
      simp only [decide_eq_true_eq] at same
      rw [same] at this
      omega

/-- A network one node larger, with the same live gates below the new node, counts the new
node as a live gate or not. -/
theorem liveGateCount_extend {net net' : Network} (size : net'.size = net.size + 1)
    (same : ∀ i < net.size, net'.gateFanins ⟨i⟩ = net.gateFanins ⟨i⟩)
    : net'.liveGateCount =
        net.liveGateCount + if (net'.gateFanins ⟨net.size⟩).isSome then 1 else 0 := by
  unfold liveGateCount
  rw [size, List.range_succ, List.filter_append, List.length_append]
  have below : (List.range net.size).filter (fun i => (net'.gateFanins ⟨i⟩).isSome) =
      (List.range net.size).filter (fun i => (net.gateFanins ⟨i⟩).isSome) :=
    List.filter_congr fun i member => by rw [same i (List.mem_range.mp member)]
  rw [below]
  split <;> simp [*]

-----------------------------------------------------------------------------------------
-- The empty network
-----------------------------------------------------------------------------------------

/-- The empty network has no live gate: its one node is the constant. -/
theorem gateFanins_empty (n : Node) : Network.empty.gateFanins n = none := by
  cases gate : Network.empty.gateFanins n with
  | none => rfl
  | some f =>
      obtain ⟨c, r, cell, _, value, _⟩ := gateFanins_eq_some.mp gate
      have zero : n.id = 0 := by
        have := (Array.getElem?_eq_some_iff.mp cell).1
        simp [Network.empty, UniqueTable.add] at this
        exact this
      simp [Network.empty, UniqueTable.add, zero] at cell
      rw [← cell] at value
      cases value

theorem valueAt_empty (i : Nat)
    : Network.empty.table.valueAt i = if i = 0 then some NodeData.constant else none := by
  by_cases zero : i = 0
  · simp [zero, UniqueTable.valueAt, Network.empty, UniqueTable.add]
  · have : Network.empty.table.cells[i]? = none := by
      simp [Network.empty, UniqueTable.add]
      omega
    simp [UniqueTable.valueAt, this, zero]

/-- The empty network is well formed. -/
theorem wellFormed_empty : Network.empty.WellFormed := by
  have cells : Network.empty.table.cells = #[⟨NodeData.constant, 0, false⟩] := rfl
  refine {
    sizes := rfl
    fits := by rw [size, UniqueTable.size, cells]; decide
    constant := rfl
    onlyConstant := fun i d value _ => ?_
    inputsNodup := List.nodup_nil
    inputs := fun n => ?_
    inputRecord := fun i d value kind => ?_
    fanout := fun n r uses => ?_
    fanoutFits := fun n r uses => by
      obtain rfl : r = ⟨0, #[], false⟩ := by simpa [Network.empty] using Array.mem_of_getElem? uses
      exact Nat.zero_le _
    parents := fun n r g uses => ?_
    outputsLive := fun s member => by simp [Network.empty] at member
    faninsLive := fun g f gate => by simp [gateFanins_empty] at gate
    normal := fun g f gate => by simp [gateFanins_empty] at gate
    distinct := fun g h f gate => by simp [gateFanins_empty] at gate
    linkedGate := fun i linked => ?_
    indexed := (UniqueTable.Indexed.empty defaultBucketBits).add _
    numGates := ?_
    acyclic := ⟨fun _ => 0, fun g f gate => by simp [gateFanins_empty] at gate⟩
    allLinked := fun g f gate => by simp [gateFanins_empty] at gate }
  · rw [valueAt_empty] at value
    split at value
    · assumption
    · cases value
  · have none : Network.empty.inputs = #[] := rfl
    rw [none, valueAt_empty]
    split <;> simp [NodeData.constant, NodeData.input]
  · rw [valueAt_empty] at value
    split at value
    · cases value
      cases kind
    · cases value
  · have zero : n.id = 0 := by
      have := (Array.getElem?_eq_some_iff.mp uses).1
      simp [Network.empty] at this
      exact this
    simp [Network.empty, zero] at uses
    subst uses
    simp [outputUses, Network.empty]
  · have zero : n.id = 0 := by
      have := (Array.getElem?_eq_some_iff.mp uses).1
      simp [Network.empty] at this
      exact this
    simp [Network.empty, zero] at uses
    subst uses
    simp [slots, gateFanins_empty]
  · have unlinked : Network.empty.table.linkedAt i = false := by
      by_cases zero : i = 0
      · simp [zero, UniqueTable.linkedAt, Network.empty, UniqueTable.add]
      · have : Network.empty.table.cells[i]? = none := by
          simp [Network.empty, UniqueTable.add]
          omega
        simp [UniqueTable.linkedAt, this]
    simp [unlinked] at linked
  · show 0 = _
    rw [liveGateCount, eq_comm, List.length_eq_zero_iff, List.filter_eq_nil_iff]
    intro i _
    simp [gateFanins_empty]

-----------------------------------------------------------------------------------------
-- Adding an input
-----------------------------------------------------------------------------------------

section AddInput

variable (net : Network)

@[simp] theorem addInput_fst : net.addInput.1 = Signal.make ⟨net.size⟩ false := rfl

@[simp] theorem table_addInput : net.addInput.2.table = (net.table.add NodeData.input).2 := rfl

@[simp] theorem refs_addInput : net.addInput.2.refs = net.refs.push ⟨0, #[], false⟩ := rfl

@[simp] theorem inputs_addInput : net.addInput.2.inputs = net.inputs.push ⟨net.size⟩ := rfl

@[simp] theorem outputs_addInput : net.addInput.2.outputs = net.outputs := rfl

@[simp] theorem numGates_addInput : net.addInput.2.numGates = net.numGates := rfl

@[simp] theorem size_addInput : net.addInput.2.size = net.size + 1 := by
  simp [size, UniqueTable.size]

variable {net}

/-- An input is not a gate, so adding one leaves the live gates. -/
theorem WellFormed.gateFanins_addInput (wf : net.WellFormed) (n : Node)
    : net.addInput.2.gateFanins n = net.gateFanins n := by
  by_cases old : n.id < net.size
  · have refs : n.id < net.refs.size := by rw [wf.sizes]; exact old
    have cells : n.id < net.table.cells.size := old
    have cell : net.addInput.2.table.cells[n.id]? = net.table.cells[n.id]? := by
      simp [Array.getElem?_push, Nat.ne_of_lt cells]
    have uses : net.addInput.2.refs[n.id]? = net.refs[n.id]? := by
      simp [Array.getElem?_push, Nat.ne_of_lt refs]
    simp only [gateFanins, cell, uses]
  · rw [gateFanins_eq_none (Nat.not_lt.mp old)]
    cases gate : net.addInput.2.gateFanins n with
    | none => rfl
    | some f =>
        obtain ⟨c, r, cell, _, value, _⟩ := gateFanins_eq_some.mp gate
        have here : n.id = net.size := by
          have := (Array.getElem?_eq_some_iff.mp cell).1
          simp [size, UniqueTable.size] at this old ⊢
          omega
        simp [here, size, UniqueTable.size] at cell
        rw [← cell] at value
        cases value

/-- A node of the network is live after adding an input exactly when it was; the new input is
live. -/
theorem WellFormed.live_addInput (wf : net.WellFormed) (n : Node)
    : net.addInput.2.Live n ↔ net.Live n ∨ n.id = net.size := by
  have refs : net.refs.size = net.size := wf.sizes
  simp only [Live, refs_addInput, Array.getElem?_push, refs]
  split
  · rename_i here
    simp [here]
  · rename_i other
    simp [other]

theorem WellFormed.refs_addInput (wf : net.WellFormed) (n : Node)
    : net.addInput.2.refs[n.id]? =
        if n.id = net.size then some ⟨0, #[], false⟩ else net.refs[n.id]? := by
  have refs : net.refs.size = net.size := wf.sizes
  simp only [Network.refs_addInput, Array.getElem?_push, refs]

/-- Adding an input whose index fits a node id keeps a network well formed. -/
theorem WellFormed.addInput (wf : net.WellFormed) (room : net.size ≤ Node.maxId) :
    net.addInput.2.WellFormed := by
  have gates := wf.gateFanins_addInput
  have slotsSame : ∀ g n, net.addInput.2.slots g n = net.slots g n := fun g n => by
    simp only [slots, gates]
  have values : ∀ i, net.addInput.2.table.valueAt i =
      if i = net.size then some NodeData.input else net.table.valueAt i := fun i => by
    rw [table_addInput, UniqueTable.valueAt_add]
    rfl
  have linkedOld : ∀ i, net.addInput.2.table.linkedAt i = true → net.table.linkedAt i = true := by
    intro i linked
    rw [table_addInput, UniqueTable.linkedAt_add] at linked
    split at linked
    · cases linked
    · exact linked
  have inputBelow : ∀ n ∈ net.inputs, n.id < net.size := fun n member => by
    have := (wf.inputs n).mp member
    simp only [UniqueTable.valueAt, Option.map_eq_some_iff] at this
    obtain ⟨c, cell, _⟩ := this
    exact (Array.getElem?_eq_some_iff.mp cell).1
  refine {
    sizes := by simp [wf.sizes]
    fits := by rw [size_addInput]; exact Nat.succ_le_succ room
    constant := ?_
    onlyConstant := fun i d value kind => ?_
    inputsNodup := ?_
    inputs := fun n => ?_
    inputRecord := fun i d value kind => ?_
    fanout := fun n r uses => ?_
    fanoutFits := fun n r uses => ?_
    parents := fun n r g uses => ?_
    outputsLive := fun s member => (wf.live_addInput s.node).mpr (.inl (wf.outputsLive s member))
    faninsLive := fun g f gate s member => (wf.live_addInput s.node).mpr
      (.inl (wf.faninsLive g f (by rw [← gates]; exact gate) s member))
    normal := fun g f gate linked => wf.normal g f (by rw [← gates]; exact gate) (linkedOld _ linked)
    distinct := fun g h f gate other linkedG linkedH =>
      wf.distinct g h f (by rw [← gates]; exact gate) (by rw [← gates]; exact other)
        (linkedOld _ linkedG) (linkedOld _ linkedH)
    linkedGate := fun i linked => by rw [gates]; exact wf.linkedGate i (linkedOld i linked)
    indexed := wf.indexed.add _
    numGates := ?_
    acyclic := ?_
    allLinked := fun g f gate => ?_ }
  · have hasConstant : 0 < net.size := by
      have := wf.constant
      simp only [UniqueTable.valueAt, Option.map_eq_some_iff] at this
      obtain ⟨c, cell, _⟩ := this
      exact (Array.getElem?_eq_some_iff.mp cell).1
    rw [values, if_neg (Nat.ne_of_lt hasConstant), wf.constant]
  · rw [values] at value
    split at value
    · cases value
      cases kind
    · exact wf.onlyConstant i d value kind
  · rw [inputs_addInput, Array.toList_push]
    refine List.nodup_append.mpr ⟨wf.inputsNodup, by simp, fun a old b new => ?_⟩
    have below := inputBelow a (Array.mem_toList_iff.mp old)
    simp only [List.mem_singleton] at new
    subst new
    intro same
    rw [same] at below
    exact Nat.lt_irrefl _ below
  · rw [inputs_addInput, Array.mem_push, values]
    split
    · rename_i here
      simp only [iff_true]
      exact Or.inr (by cases n; simp_all)
    · rename_i other
      rw [← wf.inputs]
      constructor
      · rintro (member | rfl)
        · exact member
        · exact absurd rfl other
      · exact .inl
  · rw [values] at value
    split at value
    · cases value
      rfl
    · exact wf.inputRecord i d value kind
  · rw [wf.refs_addInput] at uses
    split at uses
    · rename_i here
      cases uses
      simp [outputUses, ← wf.outputUses_eq_zero (Nat.le_of_eq here.symm)]
    · exact wf.fanout n r uses
  · rw [wf.refs_addInput] at uses
    split at uses
    · cases uses
      exact Nat.zero_le _
    · exact wf.fanoutFits n r uses
  · rw [slotsSame]
    rw [wf.refs_addInput] at uses
    split at uses
    · rename_i here
      cases uses
      simp [wf.slots_eq_zero g (Nat.le_of_eq here.symm)]
    · exact wf.parents n r g uses
  · rw [numGates_addInput, wf.numGates,
      liveGateCount_extend (size_addInput net) (fun i _ => gates ⟨i⟩), gates,
      @gateFanins_eq_none net ⟨net.size⟩ (Nat.le_refl _)]
    rfl
  · obtain ⟨rank, ranked⟩ := wf.acyclic
    exact ⟨rank, fun g f gate => ranked g f (by rw [← gates]; exact gate)⟩
  · rw [gates] at gate
    rw [table_addInput, UniqueTable.linkedAt_add,
      if_neg (Nat.ne_of_lt (show g.id < net.table.cells.size from lt_size_of_gateFanins gate))]
    exact wf.allLinked g f gate

/-- Adding an input succeeds exactly while the index of the new node fits a node id. -/
theorem createPi_eq_ok_iff {p : Signal × Network} :
    net.createPi = .ok p ↔ net.size ≤ Node.maxId ∧ net.addInput = p := by
  by_cases room : net.size ≤ Node.maxId <;>
    simp [createPi, Node.ofIndex, room, bind, Except.bind, pure, Except.pure]

theorem createPi_eq_ok (room : net.size ≤ Node.maxId) : net.createPi = .ok net.addInput :=
  createPi_eq_ok_iff.mpr ⟨room, rfl⟩

end AddInput

-----------------------------------------------------------------------------------------
-- Room to grow
-----------------------------------------------------------------------------------------

/-- Room for `k` more nodes and `k` more uses of each node. A node id has 31 bits and a use
count 32, and a step that would grow either past its word stops with a fault. -/
def Room (net : Network) (k : Nat) : Prop :=
  net.size + k ≤ Node.maxId + 1 ∧
    ∀ (n : Node) r, net.refs[n.id]? = some r → r.fanout + k ≤ NodeRefs.maxFanout

theorem maxId_le_maxFanout : Node.maxId ≤ NodeRefs.maxFanout := by decide

theorem Room.mono {net : Network} {k j : Nat} (room : net.Room k) (le : j ≤ k) : net.Room j :=
  ⟨Nat.le_trans (Nat.add_le_add_left le _) room.1,
    fun n r uses => Nat.le_trans (Nat.add_le_add_left le _) (room.2 n r uses)⟩

/-- The empty network has room for as many nodes as a node id can name. -/
theorem room_empty {k : Nat} (le : k ≤ Node.maxId) : Network.empty.Room k := by
  refine ⟨by rw [Nat.add_comm]; exact Nat.add_le_add_right le 1, fun n r uses => ?_⟩
  obtain rfl : r = ⟨0, #[], false⟩ := by simpa [Network.empty] using Array.mem_of_getElem? uses
  rw [Nat.zero_add]
  exact Nat.le_trans le maxId_le_maxFanout

/-- An input takes one node of the room and no use. -/
theorem Room.addInput {net : Network} {k : Nat} (room : net.Room (k + 1)) :
    net.addInput.2.Room k := by
  refine ⟨by rw [size_addInput]; have := room.1; omega, fun n r uses => ?_⟩
  rw [refs_addInput, Array.getElem?_push] at uses
  split at uses
  · cases uses
    have := room.1
    show 0 + k ≤ _
    exact Nat.le_trans (by omega) maxId_le_maxFanout
  · have := room.2 n r uses
    omega

/-- The networks of two and three inputs, on nodes 1 to 3, from which the examples start. -/
theorem wellFormed_twoInputs : (Network.empty.addInput.2.addInput.2).WellFormed :=
  (wellFormed_empty.addInput (by decide)).addInput (by decide)

theorem wellFormed_threeInputs : (Network.empty.addInput.2.addInput.2.addInput.2).WellFormed :=
  wellFormed_twoInputs.addInput (by decide)

theorem gateFanins_twoInputs (g : Node) :
    (Network.empty.addInput.2.addInput.2).gateFanins g = none := by
  rw [(wellFormed_empty.addInput (by decide)).gateFanins_addInput,
    wellFormed_empty.gateFanins_addInput, gateFanins_empty]

theorem gateFanins_threeInputs (g : Node) :
    (Network.empty.addInput.2.addInput.2.addInput.2).gateFanins g = none := by
  rw [wellFormed_twoInputs.gateFanins_addInput, gateFanins_twoInputs]

theorem room_twoInputs {k : Nat} (le : k + 2 ≤ Node.maxId) :
    (Network.empty.addInput.2.addInput.2).Room k :=
  (room_empty le).addInput.addInput

theorem room_threeInputs {k : Nat} (le : k + 3 ≤ Node.maxId) :
    (Network.empty.addInput.2.addInput.2.addInput.2).Room k :=
  (room_empty le).addInput.addInput.addInput

theorem Room.size_le {net : Network} {k : Nat} (room : net.Room (k + 1)) :
    net.size ≤ Node.maxId := by
  have := room.1
  omega

theorem Room.fanout_lt {net : Network} {k : Nat} (room : net.Room (k + 1)) (n : Node)
    {r : NodeRefs} (uses : net.refs[n.id]? = some r) : r.fanout < NodeRefs.maxFanout := by
  have := room.2 n r uses
  omega

/-- `k` inputs added one by one to the empty network leave it well formed, with room for `j`
more nodes and uses when node ids have room for all of them. -/
theorem wellFormed_addInputs {j : Nat} : ∀ k, k + j ≤ Node.maxId →
    (Nat.repeat (fun net : Network => net.addInput.2) k Network.empty).WellFormed ∧
      (Nat.repeat (fun net : Network => net.addInput.2) k Network.empty).Room j
  | 0, fits => ⟨wellFormed_empty, room_empty (by omega)⟩
  | k + 1, fits => by
    obtain ⟨wf, room⟩ := wellFormed_addInputs (j := j + 1) k (by omega)
    exact ⟨wf.addInput room.size_le, room.addInput⟩

/-- A step that changes the uses of one node, adding at most `j` to its count, spends at most
`j` of the room. -/
theorem Room.modify {net net' : Network} {k j i : Nat} {g : NodeRefs → NodeRefs}
    (room : net.Room (k + j)) (size : net'.size = net.size) (refs : net'.refs = net.refs.modify i g)
    (grows : ∀ r, (g r).fanout ≤ r.fanout + j) : net'.Room k := by
  refine ⟨by rw [size]; have := room.1; omega, fun n r uses => ?_⟩
  rw [refs, Array.getElem?_modify] at uses
  split at uses
  · obtain ⟨r₀, found, rfl⟩ := Option.map_eq_some_iff.mp uses
    have := room.2 n r₀ found
    have := grows r₀
    omega
  · have := room.2 n r uses
    omega

theorem Room.of_refs {net net' : Network} {k : Nat} (room : net.Room k) (size : net'.size = net.size)
    (refs : net'.refs = net.refs) : net'.Room k :=
  ⟨by rw [size]; exact room.1, fun n r uses => room.2 n r (by rw [← refs]; exact uses)⟩

-----------------------------------------------------------------------------------------
-- Changing the uses of a node
-----------------------------------------------------------------------------------------

theorem refsOf_eq_ok {net : Network} {n : Node} {r : NodeRefs}
    : net.refsOf n = .ok r ↔ n.id < net.size ∧ net.refs[n.id]? = some r := by
  unfold refsOf
  split
  · rename_i lt
    cases uses : net.refs[n.id]? <;> simp [lt]
  · rename_i ge
    simp [ge]

/-- The uses of a live node of a well-formed network can be read. -/
theorem Coherent.refsOf_live {net : Network} (coherent : net.Coherent) {n : Node}
    (live : net.Live n) : ∃ r, net.refsOf n = .ok r ∧ r.dead = false := by
  obtain ⟨r, uses, alive⟩ := live
  exact ⟨r, refsOf_eq_ok.mpr ⟨coherent.lt_size_of_live ⟨r, uses, alive⟩, uses⟩, alive⟩

/-- Changing the uses of a node that the network has changes only them. -/
theorem modifyRefs_eq_ok {net : Network} {n : Node} {r : NodeRefs} (g : NodeRefs → NodeRefs)
    (found : net.refsOf n = .ok r)
    : net.modifyRefs n g = .ok { net with refs := net.refs.modify n.id g } := by
  simp [modifyRefs, found, bind, Except.bind, pure, Except.pure]

/-- Changing the uses of one node keeps every count within its counter when the changed count
stays within it. -/
theorem FanoutFits.modify {net net' : Network} (fits : net.FanoutFits) {i : Nat}
    {g : NodeRefs → NodeRefs} (refs : net'.refs = net.refs.modify i g)
    (changed : ∀ r, net.refs[i]? = some r → (g r).fanout ≤ NodeRefs.maxFanout) : net'.FanoutFits := by
  intro n r uses
  rw [refs, Array.getElem?_modify] at uses
  split at uses
  · rename_i here
    obtain ⟨r₀, uses₀, rfl⟩ := Option.map_eq_some_iff.mp uses
    exact changed r₀ (here ▸ uses₀)
  · exact fits n r uses

/-- A change of uses that keeps the dead flag keeps the live gates. -/
theorem gateFanins_of_modify {net net' : Network} {i : Nat} {g : NodeRefs → NodeRefs}
    (table : net'.table = net.table) (refs : net'.refs = net.refs.modify i g)
    (keepsDead : ∀ r, (g r).dead = r.dead) (n : Node)
    : net'.gateFanins n = net.gateFanins n := by
  unfold gateFanins
  simp only [table, refs, Array.getElem?_modify]
  by_cases same : i = n.id
  · simp only [same, if_true]
    cases net.table.cells[n.id]? <;> cases net.refs[n.id]? <;> simp [keepsDead]
  · simp only [same, if_false]

/-- A change of uses that keeps the dead flag keeps the live nodes. -/
theorem live_of_modify {net net' : Network} {i : Nat} {g : NodeRefs → NodeRefs}
    (refs : net'.refs = net.refs.modify i g) (keepsDead : ∀ r, (g r).dead = r.dead) (n : Node)
    : net'.Live n ↔ net.Live n := by
  unfold Live
  simp only [refs, Array.getElem?_modify]
  by_cases same : i = n.id
  · simp only [same, if_true]
    cases net.refs[n.id]? <;> simp [keepsDead]
  · simp only [same, if_false]

/-- A change of uses and outputs that keeps the records, the inputs, the gate count, the live
gates and every live node keeps a network coherent, once its uses are exact again and its
outputs name live nodes. -/
theorem Coherent.of_uses {net net' : Network} (coherent : net.Coherent)
    (table : net'.table = net.table) (inputs : net'.inputs = net.inputs)
    (numGates : net'.numGates = net.numGates) (sizes : net'.refs.size = net.refs.size)
    (gates : ∀ n, net'.gateFanins n = net.gateFanins n) (lives : ∀ n, net.Live n → net'.Live n)
    (outputsLive : ∀ s ∈ net'.outputs, net'.Live s.node)
    (fanout : ∀ n r, net'.refs[n.id]? = some r → r.fanout = net'.outputUses n + r.parents.size)
    (fanoutFits : net'.FanoutFits)
    (parents : ∀ n r g, net'.refs[n.id]? = some r → r.parents.count g = net'.slots g n)
    : net'.Coherent := by
  have size : net'.size = net.size := by simp only [size, table]
  refine {
    sizes := by rw [sizes, table, coherent.sizes]
    fits := by rw [size]; exact coherent.fits
    constant := by rw [table]; exact coherent.constant
    onlyConstant := by rw [table]; exact coherent.onlyConstant
    inputsNodup := by rw [inputs]; exact coherent.inputsNodup
    inputs := by rw [inputs, table]; exact coherent.inputs
    inputRecord := by rw [table]; exact coherent.inputRecord
    fanout := fanout
    fanoutFits := fanoutFits
    parents := parents
    outputsLive := outputsLive
    faninsLive := fun g f gate s member =>
      lives s.node (coherent.faninsLive g f (by rw [← gates]; exact gate) s member)
    normal := fun g f gate => by rw [table]; exact coherent.normal g f (by rw [← gates]; exact gate)
    distinct := fun g h f gate other => by
      rw [table]
      exact coherent.distinct g h f (by rw [← gates]; exact gate) (by rw [← gates]; exact other)
    linkedGate := fun i => by rw [table, gates]; exact coherent.linkedGate i
    indexed := by rw [table]; exact coherent.indexed
    numGates := by
      rw [numGates, coherent.numGates, liveGateCount, liveGateCount, size]
      simp only [gates]
    acyclic := by
      obtain ⟨rank, ranked⟩ := coherent.acyclic
      exact ⟨rank, fun g f gate => ranked g f (by rw [← gates]; exact gate)⟩ }

-----------------------------------------------------------------------------------------
-- Adding an output
-----------------------------------------------------------------------------------------

section CreatePo

variable {net : Network}

/-- Counting one more use of a node succeeds exactly when the network has the node and its
count is below the counter's largest value. -/
theorem addUse_eq_ok_iff {n : Node} {g : NodeRefs → NodeRefs} {net' : Network} :
    net.addUse n g = .ok net' ↔ ∃ r, net.refsOf n = .ok r ∧ r.fanout < NodeRefs.maxFanout ∧
      net' = ⟨net.table, net.refs.modify n.id fun r => g { r with fanout := r.fanout + 1 },
        net.inputs, net.outputs, net.numGates⟩ := by
  unfold addUse
  cases found : net.refsOf n with
  | error e => simp [bind, Except.bind]
  | ok r =>
      by_cases full : NodeRefs.maxFanout ≤ r.fanout
      · have notLess := Nat.not_lt.mpr full
        simp [bind, Except.bind, full, throw, throwThe, MonadExceptOf.throw, notLess]
      · simp [bind, Except.bind, full, modifyRefs_eq_ok _ found, eq_comm]
        omega

theorem addUse_eq_ok {n : Node} {g : NodeRefs → NodeRefs} {r : NodeRefs}
    (found : net.refsOf n = .ok r) (room : r.fanout < NodeRefs.maxFanout) :
    net.addUse n g = .ok ⟨net.table, net.refs.modify n.id fun r => g { r with fanout := r.fanout + 1 },
      net.inputs, net.outputs, net.numGates⟩ :=
  addUse_eq_ok_iff.mpr ⟨r, found, room, rfl⟩

/-- Adding an output on a node that the network has counts one more use of the node, while its
count is below the counter's largest value. -/
theorem createPo_eq_ok_iff {f : Signal} {k : Nat} {net' : Network} :
    net.createPo f = .ok (k, net') ↔ ∃ r, net.refsOf f.node = .ok r ∧
      r.fanout < NodeRefs.maxFanout ∧ k = net.outputs.size ∧
      net' = ⟨net.table, net.refs.modify f.node.id fun r => { r with fanout := r.fanout + 1 },
        net.inputs, net.outputs.push f, net.numGates⟩ := by
  unfold createPo
  cases used : net.addUse f.node id with
  | error e =>
      simp only [bind, Except.bind, reduceCtorEq, false_iff, not_exists, not_and]
      intro r found room
      rw [addUse_eq_ok found room] at used
      cases used
  | ok net₁ =>
      obtain ⟨r, found, room, rfl⟩ := addUse_eq_ok_iff.mp used
      simp [bind, Except.bind, pure, Except.pure, found, room, eq_comm]

theorem createPo_eq_ok {f : Signal} {r : NodeRefs} (found : net.refsOf f.node = .ok r)
    (room : r.fanout < NodeRefs.maxFanout)
    : net.createPo f = .ok (net.outputs.size,
        ⟨net.table, net.refs.modify f.node.id fun r => { r with fanout := r.fanout + 1 },
          net.inputs, net.outputs.push f, net.numGates⟩) :=
  createPo_eq_ok_iff.mpr ⟨r, found, room, rfl, rfl⟩

/-- An output spends one use of the room. -/
theorem Room.createPo {k : Nat} (room : net.Room (k + 1)) {f : Signal} {i : Nat} {net' : Network}
    (created : net.createPo f = .ok (i, net')) : net'.Room k := by
  obtain ⟨r, -, -, -, rfl⟩ := createPo_eq_ok_iff.mp created
  exact room.modify (g := fun r => { r with fanout := r.fanout + 1 }) rfl rfl fun r => Nat.le_refl _

/-- Adding an output on a live node with room for one more use keeps a network well formed. -/
theorem WellFormed.createPo (wf : net.WellFormed) {f : Signal} (live : net.Live f.node)
    (room : ∀ r, net.refs[f.node.id]? = some r → r.fanout < NodeRefs.maxFanout)
    : ∃ net', net.createPo f = .ok (net.outputs.size, net') ∧ net'.WellFormed := by
  obtain ⟨r, found, _⟩ := wf.refsOf_live live
  refine ⟨_, createPo_eq_ok found (room r (refsOf_eq_ok.mp found).2), ?_⟩
  have keepsDead : ∀ r : NodeRefs, ({ r with fanout := r.fanout + 1 } : NodeRefs).dead = r.dead :=
    fun _ => rfl
  generalize same : (⟨net.table, net.refs.modify f.node.id fun r => { r with fanout := r.fanout + 1 },
    net.inputs, net.outputs.push f, net.numGates⟩ : Network) = net'
  have refs : net'.refs = net.refs.modify f.node.id fun r => { r with fanout := r.fanout + 1 } := by
    rw [← same]
  have gates := gateFanins_of_modify (by rw [← same]) refs keepsDead
  have lives := live_of_modify refs keepsDead
  have uses : ∀ n, net'.outputUses n = net.outputUses n + if f.node = n then 1 else 0 :=
    fun n => by
      rw [← same]
      simp [outputUses, List.countP_append]
  have table : net'.table = net.table := by rw [← same]
  refine ⟨wf.toCoherent.of_uses table (by rw [← same]) (by rw [← same]) (by rw [refs]; simp)
    gates (fun n alive => (lives n).mpr alive)
    (fun s member => ?_) (fun n r' found => ?_) ?_ (fun n r' g found => ?_),
    fun g f' gate => ?_⟩
  · rw [lives]
    rw [← same] at member
    simp only [Array.mem_push] at member
    rcases member with old | rfl
    · exact wf.outputsLive s old
    · exact live
  · rw [uses]
    simp only [refs, Array.getElem?_modify] at found
    by_cases same : f.node = n
    · subst same
      simp only [if_true] at found
      cases uses₀ : net.refs[f.node.id]? with
      | none => simp [uses₀] at found
      | some r₀ =>
          simp only [uses₀, Option.map_some, Option.some.injEq] at found
          subst found
          simp [wf.fanout f.node r₀ uses₀]
          omega
    · have other : f.node.id ≠ n.id := fun ids => same (show f.node = n from congrArg Node.mk ids)
      simp only [other, if_false] at found
      simp [same, wf.fanout n r' found]
  · exact wf.fanoutFits.modify refs room
  · have slotsSame : net'.slots g n = net.slots g n := by simp only [slots, gates]
    rw [slotsSame]
    simp only [refs, Array.getElem?_modify] at found
    split at found
    · obtain ⟨r₀, uses₀, rfl⟩ := Option.map_eq_some_iff.mp found
      exact wf.parents n r₀ g uses₀
    · exact wf.parents n r' g found
  · rw [table]
    exact wf.allLinked g f' (by rw [← gates]; exact gate)

end CreatePo

end Network

end MajorityGraph
