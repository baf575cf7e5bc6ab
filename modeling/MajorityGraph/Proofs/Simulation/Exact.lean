import Mathlib.Data.List.Perm.Subperm
import MajorityGraph.Proofs.Simulation.ConeViews
import MajorityGraph.Proofs.Network.Substitution
import MajorityGraph.Proofs.View.Soundness

/-! Simulation is exact on networks and on the cone views built over them (`simulate_exact`). -/

namespace MajorityGraph

open Simulation LogicNetwork

namespace Network

variable {net : Network}

/-- A fan-in of a live node of a coherent network is live and ranked below it: a node with a
fan-in holds a gate record, and a live gate record is a live gate. -/
theorem Coherent.fanin_live (coherent : net.Coherent) {rank : Node → Nat} (ranked : net.Ranked rank)
    {g : Node} (live : net.Live g) {fs : List Signal} (fanned : net.fanins g = .ok fs) {f : Signal}
    (member : f ∈ fs) : net.Live f.node ∧ rank f.node < rank g := by
  obtain ⟨-, d, read⟩ := data_of_isDead (coherent.isDead_of_live live)
  rw [show net.fanins g = _ from fanins_of_data read] at fanned
  cases fanned
  by_cases gate : d.isGate = true
  · rw [if_pos gate] at member
    have stored := gateFanins_of_data read gate live
    exact ⟨coherent.faninsLive g d.fanins stored f member, ranked g d.fanins stored f member⟩
  · rw [if_neg gate] at member
    exact absurd member List.not_mem_nil

variable {ν : Type} [LogicNetwork ν] {ntk : ν} {rank : Node → Nat}

/-- Below a live node of a coherent network, a walk that follows the network's fan-ins meets
live nodes only. -/
theorem Coherent.live_below (coherent : net.Coherent) (ranked : net.Ranked rank)
    (follows : ∀ g fs, LogicNetwork.isGate ntk g = .ok true → LogicNetwork.fanins ntk g = .ok fs →
      net.fanins g = .ok fs)
    {a b : Node} (path : Below ntk a b) (live : net.Live a) : net.Live b := by
  induction path with
  | refl => exact live
  | fanin gate fanned member _ ih =>
    exact ih (coherent.fanin_live ranked live (follows _ _ gate fanned) member).1

/-- Whatever follows the fan-ins of a coherent network from live outputs has no dead node and no
cycle below its outputs. -/
theorem Coherent.below_outputs (coherent : net.Coherent) (ranked : net.Ranked rank)
    (follows : ∀ g fs, LogicNetwork.isGate ntk g = .ok true → LogicNetwork.fanins ntk g = .ok fs →
      net.fanins g = .ok fs)
    (outputs : ∀ s ∈ LogicNetwork.pos ntk, net.Live s.node)
    (dead : ∀ n, LogicNetwork.isDead ntk n = net.isDead n) :
    LiveBelowOutputs ntk ∧ RankedBelowOutputs ntk rank := by
  have live : ∀ m, BelowOutput ntk m → net.Live m := by
    rintro m ⟨s, output, path⟩
    exact coherent.live_below ranked follows path (outputs s output)
  refine ⟨fun m below => ?_, fun g below gate fs fanned f member => ?_⟩
  · rw [dead]
    exact coherent.isDead_of_live (live m below)
  · exact (coherent.fanin_live ranked (live g below) (follows g fs gate fanned) member).2

/-- A coherent network has no dead node and no cycle below its outputs. -/
theorem Coherent.live_ranked_below_outputs (coherent : net.Coherent) (ranked : net.Ranked rank) :
    LiveBelowOutputs net ∧ RankedBelowOutputs net rank :=
  coherent.below_outputs ranked (fun _ _ _ fanned => fanned) coherent.outputsLive fun _ => rfl

end Network

namespace ConeView

variable {v : ConeView} {collected : Array Node} {rank : Node → Nat}

/-- A view built over a coherent network from live pivots has no dead node and no cycle below
its outputs. -/
theorem Built.live_ranked_below_outputs (built : Built v collected) (coherent : v.net.Coherent)
    (ranked : v.net.Ranked rank) (pivots : ∀ p ∈ v.pivots, v.net.Live p) :
    LiveBelowOutputs v ∧ RankedBelowOutputs v rank := by
  refine coherent.below_outputs ranked (fun g fs gate fanned => ?_) (fun s output => ?_)
    fun _ => rfl
  · rw [← fanins_of_isGate gate]
    exact fanned
  · change s ∈ v.outputs at output
    rw [built.outputs] at output
    obtain ⟨p, pivot, rfl⟩ := Array.mem_map.mp output
    rw [Signal.node_make]
    exact pivots p pivot

/-- A built view has at most as many leaves as the network has inputs: its leaves are distinct
inputs of the network. -/
theorem Built.numPis_le (built : Built v collected) (shaped : v.net.Shaped) :
    LogicNetwork.numPis v ≤ v.net.numPis := by
  have inputs : ∀ n ∈ v.leaves.toList, n ∈ v.net.inputs.toList := fun n leaf =>
    Array.mem_toList_iff.mpr
      (shaped.mem_inputs_of_isPi (built.classified.inputs n (Array.mem_toList_iff.mp leaf)))
  have le := (List.subperm_of_subset built.leaves_nodup inputs).length_le
  show v.leaves.size ≤ v.net.inputs.size
  simpa using le

end ConeView

/-- Simulation is exact on a shaped network, and on a view built over one, with no cycle and no
dead node below the outputs and at most `maxVars` inputs. -/
theorem simulate_exact :
    (∀ (net : Network) (rank : Node → Nat), net.Shaped → RankedBelowOutputs net rank →
      LiveBelowOutputs net → net.numPis ≤ TruthTable.maxVars → SimulatesExactly net) ∧
    ∀ (net : Network) (pivots : Array Node) (wrap : Bool) (j j' : Journal) (v : ConeView)
      (rank : Node → Nat), net.Shaped → (ConeView.make net pivots wrap).runFrom j = (.ok v, j') →
      RankedBelowOutputs v rank → LiveBelowOutputs v → LogicNetwork.numPis v ≤ TruthTable.maxVars →
      SimulatesExactly v := by
  refine ⟨fun net rank shaped ranked live width => (shaped.simulable ranked live width).simulatesExactly,
    fun net pivots wrap j j' v rank shaped run ranked live width => ?_⟩
  obtain ⟨same, -, collected, built⟩ := ConeView.make_built run
  exact (built.simulable (same ▸ shaped) ranked live width).simulatesExactly

/-- Simulation is exact on the network of `(a ∧ b) ∧ (a ∨ b)` with an output on its top gate,
and on the view of that network from the top gate and `a ∨ b`, which holds all three gates. -/
theorem simulate_exact_of_and_or :
    ∃ net : Network, net.gateFanins ⟨5⟩ = some ⟨⟨0⟩, ⟨6⟩, ⟨8⟩⟩ ∧
      net.outputs = #[Signal.make ⟨5⟩ false] ∧ net.Shaped ∧
      (∃ rank, RankedBelowOutputs net rank ∧ LiveBelowOutputs net ∧
        net.numPis ≤ TruthTable.maxVars ∧ SimulatesExactly net) ∧
      ∃ v j', (ConeView.make net #[⟨5⟩, ⟨4⟩] false).runFrom (Journal.start none) = (.ok v, j') ∧
        ⟨3⟩ ∈ v.inner ∧ ⟨4⟩ ∈ v.inner ∧ ⟨5⟩ ∈ v.inner ∧
        ∃ rank, RankedBelowOutputs v rank ∧ LiveBelowOutputs v ∧
          LogicNetwork.numPis v ≤ TruthTable.maxVars ∧ SimulatesExactly v := by
  obtain ⟨-, -, -, net, -, -, -, -, wf, gate₃, gate₄, gate₅, -, outputs, inputs, -, -, -⟩ :=
    Network.andOr_network
  have shaped := wf.toCoherent.shaped
  have width : net.numPis ≤ TruthTable.maxVars := by
    rw [Network.numPis, inputs]
    decide
  obtain ⟨rank, ranked⟩ := wf.acyclic
  refine ⟨net, gate₅, outputs, shaped, ?_, ?_⟩
  · -- the network with its output
    obtain ⟨live, ranked'⟩ := wf.toCoherent.live_ranked_below_outputs ranked
    exact ⟨rank, ranked', live, width, simulate_exact.1 net rank shaped ranked' live width⟩
  · -- the view of the top gate and `a ∨ b`
    have pivotsLive : ∀ p ∈ #[(⟨5⟩ : Node), ⟨4⟩], net.Live p := by
      intro p member
      simp only [List.mem_toArray, List.mem_cons, List.not_mem_nil, or_false] at member
      rcases member with rfl | rfl
      exacts [Network.live_of_gateFanins gate₅, Network.live_of_gateFanins gate₄]
    obtain ⟨v, yields, sound⟩ := ConeView.make_sound wf.toCoherent _ pivotsLive false
    obtain ⟨j', run⟩ := yields (Journal.start none)
    obtain ⟨same, pivots, collected, built⟩ := ConeView.make_built run
    obtain ⟨live, ranked'⟩ := built.live_ranked_below_outputs (same ▸ wf.toCoherent) (same ▸ ranked)
      (by rw [pivots, same]; exact pivotsLive)
    have widthV : LogicNetwork.numPis v ≤ TruthTable.maxVars :=
      Nat.le_trans (built.numPis_le (same ▸ shaped)) (by rw [same]; exact width)
    -- a gate below the pivots is an inner node of the view
    have inner : ∀ g : Node, g.id ≠ 0 → g ∉ net.inputs → net.Reaches ⟨5⟩ g → g ∈ v.inner :=
      fun g nonzero notInput path => (sound.mem_inner g).mpr
        ⟨fun constant => nonzero (congrArg Node.id constant), notInput, ⟨5⟩, by simp, path⟩
    have notInput : ∀ g : Node, 2 < g.id → g ∉ net.inputs := fun g far input => by
      rw [inputs] at input
      simp only [List.mem_toArray, List.mem_cons, List.not_mem_nil, or_false] at input
      rcases input with rfl | rfl <;> simp at far
    refine ⟨v, j', run, inner ⟨3⟩ (by decide) (notInput _ (by decide))
        (.fanin gate₅ (s := ⟨6⟩) (by simp [Fanins.toList]) (.refl _)),
      inner ⟨4⟩ (by decide) (notInput _ (by decide))
        (.fanin gate₅ (s := ⟨8⟩) (by simp [Fanins.toList]) (.refl _)),
      inner ⟨5⟩ (by decide) (notInput _ (by decide)) (.refl _),
      rank, ranked', live, widthV, simulate_exact.2 _ _ _ _ _ v rank shaped run ranked' live widthV⟩

/-- Above `maxVars` inputs the simulation refuses even a well-formed network: with 25 inputs and
an output on the first, it reports too many variables instead of the output's table. -/
theorem simulate_refuses_twenty_five_inputs :
    ∃ net : Network, (Nat.repeat (fun net : Network => net.addInput.2) 25 Network.empty).createPo
        (Signal.make ⟨1⟩ false) = .ok (0, net) ∧ net.WellFormed ∧ net.numPis = 25 ∧
      Simulation.simulate net = .error (.tooManyVariables 25) := by
  obtain ⟨wf, room⟩ := Network.wellFormed_addInputs (j := 1) 25 (by decide)
  have first : (Nat.repeat (fun net : Network => net.addInput.2) 25 Network.empty).Live ⟨1⟩ :=
    ⟨_, rfl, rfl⟩
  obtain ⟨net, added, wf'⟩ :=
    wf.createPo (f := Signal.make ⟨1⟩ false) (by simpa using first) fun _ => room.fanout_lt _
  have inputs : net.numPis = 25 := by
    obtain ⟨r, found, -⟩ := wf.refsOf_live first
    rw [Network.createPo_eq_ok (by simpa using found)
      (room.fanout_lt _ (Network.refsOf_eq_ok.mp found).2)] at added
    cases added
    rfl
  refine ⟨net, added, wf', inputs, ?_⟩
  rw [Network.simulate_of_gt (by rw [inputs]; decide), inputs]

end MajorityGraph
