import MajorityGraph.Proofs.Simulation.TopologicalOrder
import MajorityGraph.Proofs.Network.Reach

/-!
On a coherent network `topologicalOrder` lists exactly the live gates reachable from the
outputs, each once and after its gate fan-ins.
-/

namespace MajorityGraph

namespace Network

open Simulation LogicNetwork

variable {net : Network}

/-- On a live node of a coherent network, the walk's gate test tells the live gates. -/
theorem Coherent.isGate_eq (coherent : net.Coherent) {n : Node} (live : net.Live n) :
    LogicNetwork.isGate net n = .ok (net.gateFanins n).isSome := by
  have below := coherent.lt_size_of_live live
  obtain ⟨r, uses, alive⟩ := live
  obtain ⟨c, cell⟩ : ∃ c, net.table.cells[n.id]? = some c :=
    ⟨_, Array.getElem?_eq_getElem below⟩
  have value : net.table.valueAt n.id = some c.value := by simp [UniqueTable.valueAt, cell]
  have gate : net.gateFanins n = if c.value.isGate then some c.value.fanins else none := by
    simp [gateFanins, cell, uses, alive]
  have pi : LogicNetwork.isPi net n = .ok (c.value.kind == .input) := by
    show net.isPi n = _
    simp [Network.isPi, Network.data, cell, bind, Except.bind, pure, Except.pure]
  show (if n.id == 0 then pure false else do pure !(← LogicNetwork.isPi net n)) = _
  by_cases zero : n.id = 0
  · -- node 0 holds the constant record, which is no gate
    have constant : c.value = NodeData.constant := by
      have := coherent.constant
      rw [← zero, value] at this
      exact Option.some.inj this
    simp [zero, gate, constant, NodeData.isGate, NodeData.constant, pure, Except.pure]
  · have notConstant : c.value.kind ≠ .constant := fun kind =>
      zero (coherent.onlyConstant n.id c.value value kind)
    simp only [zero, beq_iff_eq, if_false, pi, gate]
    cases kind : c.value.kind with
    | constant => exact absurd kind notConstant
    | input => simp [NodeData.isGate, kind, bind, Except.bind, pure, Except.pure]
    | majority => simp [NodeData.isGate, kind, bind, Except.bind, pure, Except.pure]

/-- The walk reads the stored fan-ins of a live gate. -/
theorem fanins_of_gateFanins {n : Node} {f : Fanins} (gate : net.gateFanins n = some f) :
    LogicNetwork.fanins net n = .ok f.toList := by
  obtain ⟨c, _, cell, _, value, _⟩ := gateFanins_eq_some.mp gate
  show net.fanins n = _
  simp [Network.fanins, Network.data, cell, value, NodeData.majority, NodeData.isGate, bind,
    Except.bind, pure, Except.pure]

/-- A coherent network is walkable on its live nodes, ranked by its fan-in ranking. -/
theorem Coherent.walkable (coherent : net.Coherent) {rank : Node → Nat} (ranked : net.Ranked rank) :
    Walkable net net.Live rank where
  answers n live := by
    rw [coherent.isGate_eq live]
    cases (net.gateFanins n).isSome
    · exact .inr rfl
    · exact .inl rfl
  fanins n live gateTest := by
    rw [coherent.isGate_eq live] at gateTest
    obtain ⟨f, gate⟩ := Option.isSome_iff_exists.mp (Except.ok.inj gateTest)
    refine ⟨f.toList, fanins_of_gateFanins gate, by simp [Fanins.toList], ?_⟩
    intro s member
    exact ⟨coherent.faninsLive n f gate s member, ranked n f gate s member⟩
  bound n live _ := coherent.lt_size_of_live live
  outputs s member := coherent.outputsLive s member

/-- From a live node, the walk's paths are the paths down the fan-ins of live gates. -/
theorem Coherent.below_iff (coherent : net.Coherent) {a b : Node} (live : net.Live a) :
    Below net a b ↔ net.Reaches a b := by
  constructor
  · intro path
    induction path with
    | refl => exact .refl _
    | fanin gateTest fanned member _ ih =>
      rw [coherent.isGate_eq live] at gateTest
      obtain ⟨f, gate⟩ := Option.isSome_iff_exists.mp (Except.ok.inj gateTest)
      rw [fanins_of_gateFanins gate] at fanned
      cases fanned
      exact .fanin gate member (ih (coherent.faninsLive _ f gate _ member))
  · intro path
    induction path with
    | refl => exact .refl _
    | fanin gate member _ ih =>
      have gateTest := coherent.isGate_eq live
      rw [gate] at gateTest
      exact .fanin gateTest (fanins_of_gateFanins gate) member
        (ih (coherent.faninsLive _ _ gate _ member))

/-- On a coherent network the walk lists exactly the live gates reachable from the outputs, each
once and after all of its gate fan-ins. -/
theorem Coherent.topologicalOrder (coherent : net.Coherent) :
    ∃ order, Simulation.topologicalOrder net = .ok order ∧
      Topological net net.Live order.toList ∧
      ∀ m, m ∈ order.toList ↔ (net.gateFanins m).isSome ∧ ∃ s ∈ net.outputs, net.Reaches s.node m := by
  obtain ⟨rank, ranked⟩ := coherent.acyclic
  obtain ⟨order, walk, topological, listed⟩ := topologicalOrder_spec (coherent.walkable ranked)
  refine ⟨order, walk, topological, fun m => ?_⟩
  rw [listed]
  constructor
  · rintro ⟨gateTest, s, output, path⟩
    have liveS := coherent.outputsLive s output
    have liveM := ((coherent.walkable ranked).below path liveS).1
    rw [coherent.isGate_eq liveM] at gateTest
    exact ⟨Except.ok.inj gateTest, s, output, (coherent.below_iff liveS).1 path⟩
  · rintro ⟨gate, s, output, path⟩
    have liveS := coherent.outputsLive s output
    obtain ⟨f, gate'⟩ := Option.isSome_iff_exists.mp gate
    rw [coherent.isGate_eq (live_of_gateFanins gate'), gate]
    exact ⟨rfl, s, output, (coherent.below_iff liveS).2 path⟩

/-- In the walk's order, a gate fan-in of a listed gate comes earlier. -/
theorem Coherent.fanin_earlier (coherent : net.Coherent) {order : List Node}
    (topological : Topological net net.Live order) {k : Nat} (lt : k < order.length) {f : Fanins}
    (gate : net.gateFanins order[k] = some f) {s : Signal} (member : s ∈ f.toList)
    (isGate : (net.gateFanins s.node).isSome) : ∃ j < k, order[j]? = some s.node := by
  have split : order = order.take k ++ order[k] :: order.drop (k + 1) := by
    rw [List.getElem_cons_drop, List.take_append_drop]
  have earlier := topological.before _ _ _ split _ (fanins_of_gateFanins gate) s member
    (by rw [coherent.isGate_eq (coherent.faninsLive _ f gate s member), isGate])
  obtain ⟨j, lt', same⟩ := List.getElem_of_mem earlier
  simp only [List.length_take] at lt'
  refine ⟨j, by omega, ?_⟩
  rw [← same, List.getElem_take]
  exact List.getElem?_eq_getElem _

end Network

end MajorityGraph
