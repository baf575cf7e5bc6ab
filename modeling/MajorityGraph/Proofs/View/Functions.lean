import MajorityGraph.Proofs.Simulation.Cuts
import MajorityGraph.Proofs.View.Soundness
import MajorityGraph.Proofs.Simulation.Exact
import MajorityGraph.Proofs.TruthTable.Algebra
import MajorityGraph.Proofs.Cut.Growth

/-!
Simulating the cone view of live pivots gives the pivots' functions over the view's leaves
(`simulate_gives_pivot_functions`).
-/

namespace MajorityGraph

namespace Network

open Simulation TruthTable

variable {net : Network} {rank : Node → Nat}

/-- Inputs added one by one to the empty network: the network is well formed, has that many
inputs, and every one of them is live. -/
theorem wellFormed_inputs (k : Nat) (fits : k ≤ Node.maxId) :
    (Nat.repeat (fun net : Network => net.addInput.2) k Network.empty).WellFormed ∧
      (Nat.repeat (fun net : Network => net.addInput.2) k Network.empty).numPis = k ∧
      ∀ p ∈ (Nat.repeat (fun net : Network => net.addInput.2) k Network.empty).inputs,
        (Nat.repeat (fun net : Network => net.addInput.2) k Network.empty).Live p := by
  induction k with
  | zero => exact ⟨wellFormed_empty, rfl, by simp [Nat.repeat, empty]⟩
  | succ k ih =>
    obtain ⟨wf, count, live⟩ := ih (by omega)
    refine ⟨(wellFormed_addInputs (j := 0) (k + 1) fits).1, by simpa [Nat.repeat, numPis] using count,
      fun p member => ?_⟩
    simp only [Nat.repeat, inputs_addInput, Array.mem_push] at member
    show (Nat.repeat (fun net : Network => net.addInput.2) k Network.empty).addInput.2.Live p
    rw [wf.live_addInput]
    rcases member with old | new
    · exact .inl (live p old)
    · exact .inr (by rw [new])

end Network

namespace ConeView

open Simulation LogicNetwork TruthTable
open Network (leafCode leafCode_lt testBit_leafCode)

variable {v : ConeView} {collected : Array Node}

/-! ### Tables of a view are values over its leaves -/

/-- Over a built view of a coherent network with no dead node below its outputs, the table of a
node below an output is a table over the leaves whose bit at the code of the leaves' values is
the node's value, under every consistent valuation. The induction is on the table's rules. -/
theorem Built.value_of_denotes (built : Built v collected) (coherent : v.net.Coherent)
    (live : LiveBelowOutputs v) {n : Node} {t : TruthTable} (denotes : Denotes v n t)
    (below : BelowOutput v n) :
    Valid v.leaves.size t ∧ ∀ x val, v.net.Consistent x val → val n = t.bit (leafCode v.leaves val) := by
  induction denotes with
  | constant =>
    refine ⟨zeros_valid _, fun x val consistent => ?_⟩
    rw [bit_zeros]
    exact consistent.constant
  | @input i n t member run =>
    have leaf : v.leaves[i]? = some n := member
    obtain ⟨lt, rfl⟩ := Array.getElem?_eq_some_iff.mp leaf
    have run : nthVar v.leaves.size i = .ok t := run
    refine ⟨nthVar_valid run, fun x val _ => ?_⟩
    rw [bit_nthVar run leafCode_lt, testBit_leafCode lt]
  | @gate g fs t tab gate fanned tables run ih =>
    -- a gate of the view is a live majority gate of the network, with the same fan-ins
    obtain ⟨-, d, read⟩ := Network.data_of_isDead (live g below)
    have majority := built.majority_of_below coherent.shaped below gate read
    have stored : v.net.gateFanins g = some d.fanins :=
      Network.gateFanins_of_data read (by rw [majority]; rfl) (Network.live_of_isDead (live g below))
    have storedFanins : v.net.fanins g = .ok d.fanins.toList := Network.fanins_of_gateFanins stored
    have viewFanins : LogicNetwork.fanins v g = .ok d.fanins.toList :=
      (fanins_of_isGate gate).trans storedFanins
    rw [viewFanins] at fanned
    cases fanned
    have run : d.fanins.majTable tab = .ok t := by
      rw [← Network.computeGate_eq_majTable storedFanins]
      exact run
    have fanins := fun s member => ih s member (below.fanin gate viewFanins member)
    obtain ⟨t', run', valid⟩ := Fanins.majTable_valid fun s member => (fanins s member).1
    rw [run] at run'
    cases run'
    exact ⟨valid, fun x val consistent => consistent.value_of_majTable stored
      (fun s member => (fanins s member).1) (fun s member => (fanins s member).2 x val consistent) run⟩

/-! ### Simulating a view -/

/-- Simulating the view of live pivots gives the pivots' functions over its leaves. On a
well-formed network every input assignment has a consistent valuation, and the view of any live
pivots is built. When it has at most `maxVars` leaves its simulation gives one table per pivot,
and under every consistent valuation `val` the table of pivot `k`, read at the code
`Σ i, val leaf_i * 2 ^ i` of the leaves' values, is the pivot's value; with more leaves the
simulation refuses with too many variables. -/
theorem simulate_gives_pivot_functions {net : Network} (wf : net.WellFormed) (pivots : Array Node)
    (live : ∀ p ∈ pivots, net.Live p) :
    (∀ x, ∃ val, net.Consistent x val) ∧
      ∃ v, Logged.Yields (make net pivots false) v ∧
        (v.leaves.size ≤ maxVars → ∃ tables : Array TruthTable, Simulation.simulate v = .ok tables ∧
          tables.size = pivots.size ∧ ∀ (k : Nat) (p : Node) (t : TruthTable), pivots[k]? = some p → tables[k]? = some t →
            ∀ x val, net.Consistent x val →
              t.getBit (∑ i ∈ Finset.range v.leaves.size, (val (v.leaves.getD i default)).toNat * 2 ^ i) =
                .ok (val p)) ∧
        (maxVars < v.leaves.size → Simulation.simulate v = .error (.tooManyVariables v.leaves.size)) := by
  have coherent := wf.toCoherent
  obtain ⟨rank, ranked⟩ := coherent.acyclic
  obtain ⟨v, yields, -⟩ := make_sound coherent pivots live false
  obtain ⟨j', run⟩ := yields (Journal.start none)
  obtain ⟨rfl, rfl, collected, built⟩ := make_built run
  obtain ⟨liveBelow, rankedBelow⟩ := built.live_ranked_below_outputs coherent ranked live
  refine ⟨coherent.exists_consistent, v, yields, fun narrow => ?_, fun wide =>
    Simulation.simulate_of_wide (show maxVars < LogicNetwork.numPis v from wide)⟩
  obtain ⟨-, tables, simulated, size, outputs⟩ :=
    (built.simulable coherent.shaped rankedBelow liveBelow narrow).simulatesExactly
  -- output `k` of the view is pivot `k`, uncomplemented
  have output : ∀ (k : Nat) (p : Node), v.pivots[k]? = some p →
      (pos v)[k]? = some (Signal.make p false) := by
    intro k p pivot
    show v.outputs[k]? = _
    rw [built.outputs, Array.getElem?_map, pivot]
    rfl
  have count : tables.size = v.pivots.size := by
    rw [size]
    show v.outputs.size = _
    rw [built.outputs, Array.size_map]
  refine ⟨tables, simulated, count, fun k p t pivot table x val consistent => ?_⟩
  obtain ⟨t', denotes, found⟩ := outputs k _ (output k p pivot)
  rw [Signal.node_make] at denotes
  have same : t = t' := by
    rw [table] at found
    simpa [Signal.onTable] using found
  subst same
  have below : BelowOutput v p :=
    ⟨_, Array.mem_of_getElem? (output k p pivot), by simpa using (Below.refl p : Below v p p)⟩
  obtain ⟨valid, law⟩ := built.value_of_denotes coherent liveBelow ((denotes t).mpr rfl) below
  rw [← Network.leafCode_eq_sum, getBit_of_lt valid.fits leafCode_lt, law x val consistent]

/-- The view of the majority of three inputs, taken from its gate, simulates to the majority. -/
theorem simulate_gives_pivot_functions_of_majority :
    ∃ s net, NetM.Returns (Network.createMaj (Signal.make ⟨1⟩ false) (Signal.make ⟨2⟩ false)
        (Signal.make ⟨3⟩ false)) Network.empty.addInput.2.addInput.2.addInput.2 s net ∧
      net.WellFormed ∧ (∀ p ∈ #[s.node], net.Live p) ∧
      (∀ x, ∃ val, net.Consistent x val) ∧
      ∃ v, Logged.Yields (make net #[s.node] false) v ∧
        (v.leaves.size ≤ maxVars → ∃ tables : Array TruthTable, Simulation.simulate v = .ok tables ∧
          tables.size = (#[s.node] : Array Node).size ∧ ∀ (k : Nat) (p : Node) (t : TruthTable), (#[s.node] : Array Node)[k]? = some p →
            tables[k]? = some t → ∀ x val, net.Consistent x val →
              t.getBit (∑ i ∈ Finset.range v.leaves.size, (val (v.leaves.getD i default)).toNat * 2 ^ i) =
                .ok (val p)) ∧
        (maxVars < v.leaves.size → Simulation.simulate v = .error (.tooManyVariables v.leaves.size)) := by
  have wf₀ : (Network.empty.addInput.2.addInput.2.addInput.2).WellFormed :=
    Network.wellFormed_threeInputs
  have live : ∀ t ∈ [Signal.make ⟨1⟩ false, Signal.make ⟨2⟩ false, Signal.make ⟨3⟩ false],
      (Network.empty.addInput.2.addInput.2.addInput.2).Live t.node :=
    Network.live_three ⟨_, rfl, rfl⟩ ⟨_, rfl, rfl⟩ ⟨_, rfl, rfl⟩
  obtain ⟨s, net, run⟩ := wf₀.createMaj_returns live (Network.room_threeInputs (by decide))
  obtain ⟨wf, -, f, gate, -⟩ := wf₀.createMaj_gate live (by decide) run
  have pivotsLive : ∀ p ∈ #[s.node], net.Live p := by
    intro p member
    obtain rfl : p = s.node := by simpa using member
    exact Network.live_of_gateFanins gate
  exact ⟨s, net, run, wf, pivotsLive, simulate_gives_pivot_functions wf _ pivotsLive⟩

/-- Above `maxVars` leaves a view is not simulated: the view of all twenty-five inputs of a
well-formed network, each live, has twenty-five leaves, and its simulation refuses with too many
variables instead of giving the pivots' functions. -/
theorem simulate_view_refuses_twenty_five_leaves :
    ∃ net : Network, net = Nat.repeat (fun net : Network => net.addInput.2) 25 Network.empty ∧
      net.WellFormed ∧ (∀ p ∈ net.inputs, net.Live p) ∧
      ∃ v, Logged.Yields (make net net.inputs false) v ∧ v.leaves.size = 25 ∧
        Simulation.simulate v = .error (.tooManyVariables 25) := by
  obtain ⟨wf, count, live⟩ := Network.wellFormed_inputs 25 (by decide)
  have coherent := wf.toCoherent
  obtain ⟨v, yields, sound⟩ := make_sound coherent _ live false
  obtain ⟨j', run⟩ := yields (Journal.start none)
  obtain ⟨same, -, collected, built⟩ := make_built run
  -- every input is a pivot, hence a leaf: it is a node of the view, not the constant, not inner
  have leaf : ∀ p ∈ (Nat.repeat (fun net : Network => net.addInput.2) 25 Network.empty).inputs,
      p ∈ v.leaves := by
    intro p input
    have node := (sound.mem_nodes p).mpr (.inr ⟨p, input, .refl p⟩)
    rw [sound.nodes_eq] at node
    rcases Array.mem_append.mp node with front | inner
    · rcases Array.mem_append.mp front with constant | leaf
      · rw [Array.mem_singleton.mp constant] at input
        exact absurd input coherent.constant_not_input
      · exact leaf
    · exact absurd input ((sound.mem_inner p).mp inner).2.1
  have atLeast := (List.subperm_of_subset coherent.inputsNodup fun p member =>
    Array.mem_toList_iff.mpr (leaf p (Array.mem_toList_iff.mp member))).length_le
  have atMost := built.numPis_le (same ▸ coherent.shaped)
  have leaves : v.leaves.size = 25 := by
    rw [same] at atMost
    simp only [Array.length_toList] at atLeast
    change v.leaves.size ≤ _ at atMost
    rw [count] at atMost
    rw [show (Nat.repeat (fun net : Network => net.addInput.2) 25 Network.empty).inputs.size = 25
      from count] at atLeast
    omega
  refine ⟨_, rfl, wf, live, v, yields, leaves, ?_⟩
  have wide : maxVars < LogicNetwork.numPis v := by
    show maxVars < v.leaves.size
    rw [leaves]
    decide
  rw [Simulation.simulate_of_wide wide]
  exact congrArg (fun k => Except.error (Fault.tooManyVariables k)) leaves

end ConeView

end MajorityGraph
