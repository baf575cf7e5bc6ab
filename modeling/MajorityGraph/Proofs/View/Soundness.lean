import MajorityGraph.Proofs.View.Preorder
import MajorityGraph.Proofs.View.Sort
import MajorityGraph.Proofs.Network.Cleanup

/-! A cone view is a sound window of its network (`make_sound`). -/

namespace MajorityGraph

namespace Network

variable {net : Network} {n : Node}

/-- On a coherent network the input test of a live node answers whether it is an input. -/
theorem Coherent.isPi_eq (coherent : net.Coherent) (live : net.Live n) :
    net.isPi n = .ok (decide (n ∈ net.inputs)) := by
  by_cases input : n ∈ net.inputs
  · rw [coherent.isPi_input input, decide_eq_true input]
  · obtain ⟨pi, read⟩ := coherent.isPi_live live
    cases pi with
    | true => exact absurd (coherent.shaped.mem_inputs_of_isPi read) input
    | false => rw [read, decide_eq_false input]

end Network

namespace ConeView

open Network

variable {net : Network}

/-! ### Sorting the collected nodes -/

/-- Sorting collected live nodes: the leaves are the inputs among them, in order, and the inner
nodes the others that are not pivots. -/
theorem partition_yields (coherent : net.Coherent) (pivots : Array Node) {collected : Array Node}
    (live : ∀ m ∈ collected, net.Live m) :
    ∃ s : Array Node × Array Node, Logged.Yields (forIn collected ((#[], #[]) : Array Node × Array Node)
        fun n s => do
          let pi ← orFail (net.isPi n)
          if pi then pure (ForInStep.yield (s.1.push n, s.2))
          else if !pivots.contains n then pure (ForInStep.yield (s.1, s.2.push n))
          else pure (ForInStep.yield (s.1, s.2))) s ∧
      s.1.toList = collected.toList.filter (· ∈ net.inputs) ∧
      ∀ m, m ∈ s.2 ↔ m ∈ collected ∧ m ∉ net.inputs ∧ m ∉ pivots := by
  rw [← Array.forIn_toList]
  refine Logged.yields_forIn (fun k (s : Array Node × Array Node) =>
      s.1.toList = (collected.toList.take k).filter (· ∈ net.inputs) ∧
        ∀ m, m ∈ s.2 ↔ m ∈ collected.toList.take k ∧ m ∉ net.inputs ∧ m ∉ pivots)
    (fun k lt s ⟨leaves, inner⟩ => ?_) ⟨rfl, by simp⟩ fun s ⟨leaves, inner⟩ => ?_
  · have read := coherent.isPi_eq (live _ (Array.mem_toList_iff.mp (List.getElem_mem lt)))
    have taken : collected.toList.take (k + 1) = collected.toList.take k ++ [collected.toList[k]] := by
      rw [List.take_add_one, List.getElem?_eq_getElem lt, Option.toList_some]
    by_cases input : collected.toList[k] ∈ net.inputs
    · refine ⟨(s.1.push collected.toList[k], s.2), (Logged.yields_orFail read).bind ?_, ?_, fun m => ?_⟩
      · rw [if_pos (decide_eq_true input)]
        exact Logged.yields_pure _
      · rw [Array.toList_push, taken, List.filter_append, leaves, List.filter_singleton,
          decide_eq_true input, cond_true]
      · rw [inner, taken, List.mem_append, List.mem_singleton]
        exact ⟨fun ⟨old, rest⟩ => ⟨.inl old, rest⟩,
          fun ⟨slot, out, other⟩ => ⟨slot.resolve_right fun same => out (same ▸ input), out, other⟩⟩
    · have same₁ : (s.1.toList = (collected.toList.take (k + 1)).filter (· ∈ net.inputs)) := by
        rw [taken, List.filter_append, leaves, List.filter_singleton, decide_eq_false input,
          cond_false, List.append_nil]
      by_cases pivot : collected.toList[k] ∈ pivots
      · refine ⟨(s.1, s.2), (Logged.yields_orFail read).bind ?_, same₁, fun m => ?_⟩
        · rw [if_neg (by simpa using input), if_neg (by simpa using pivot)]
          exact Logged.yields_pure _
        · rw [inner, taken, List.mem_append, List.mem_singleton]
          exact ⟨fun ⟨old, rest⟩ => ⟨.inl old, rest⟩,
            fun ⟨slot, out, other⟩ => ⟨slot.resolve_right fun same => other (same ▸ pivot), out, other⟩⟩
      · refine ⟨(s.1, s.2.push collected.toList[k]), (Logged.yields_orFail read).bind ?_, same₁, fun m => ?_⟩
        · rw [if_neg (by simpa using input), if_pos (by simpa using pivot)]
          exact Logged.yields_pure _
        · rw [Array.mem_push, inner, taken, List.mem_append, List.mem_singleton]
          constructor
          · rintro (⟨old, rest⟩ | rfl)
            · exact ⟨.inl old, rest⟩
            · exact ⟨.inr rfl, input, pivot⟩
          · rintro ⟨old | rfl, out, other⟩
            · exact .inl ⟨old, out, other⟩
            · exact .inr rfl
  · rw [List.take_length] at leaves inner
    exact ⟨leaves, fun m => by rw [inner, Array.mem_toList_iff]⟩

/-- Adding the pivots that are not the constant or inputs to the inner nodes, each once. -/
theorem pivots_yields (coherent : net.Coherent) {pivots : Array Node} (live : ∀ p ∈ pivots, net.Live p)
    (inner : Array Node) :
    ∃ s : Array Node × Std.HashMap Nat Unit, Logged.Yields
        (forIn pivots ((inner, {}) : Array Node × Std.HashMap Nat Unit) fun p s =>
          if p.id != 0 then do
            let pi ← orFail (net.isPi p)
            if !pi && !s.2.contains p.id then pure (ForInStep.yield (s.1.push p, s.2.insert p.id ()))
            else pure (ForInStep.yield (s.1, s.2))
          else pure (ForInStep.yield (s.1, s.2))) s ∧
      ∀ m, m ∈ s.1 ↔ m ∈ inner ∨ m ∈ pivots ∧ m.id ≠ 0 ∧ m ∉ net.inputs := by
  rw [← Array.forIn_toList]
  refine Logged.yields_forIn (fun k (s : Array Node × Std.HashMap Nat Unit) =>
      (∀ m, m ∈ s.1 ↔ m ∈ inner ∨ m ∈ pivots.toList.take k ∧ m.id ≠ 0 ∧ m ∉ net.inputs) ∧
        ∀ i ∈ s.2, ∃ m ∈ s.1, m.id = i)
    (fun k lt s ⟨members, seen⟩ => ?_) ⟨by simp, by simp⟩ fun s ⟨members, _⟩ => ?_
  · obtain ⟨p, found⟩ : ∃ p, pivots.toList[k]? = some p := ⟨_, List.getElem?_eq_getElem lt⟩
    have listed : p = pivots.toList[k] := by simpa [List.getElem?_eq_getElem lt] using found.symm
    rw [← listed]
    have taken : pivots.toList.take (k + 1) = pivots.toList.take k ++ [p] := by
      rw [List.take_add_one, found, Option.toList_some]
    -- the pivot joins the inner nodes unless it is the constant, an input, or there already
    have kept : ∀ {inner' : Array Node}, (∀ m ∈ inner', m ∈ s.1 ∨ m = p ∧ p.id ≠ 0 ∧ p ∉ net.inputs) →
        (∀ m ∈ s.1, m ∈ inner') → (p.id ≠ 0 → p ∉ net.inputs → p ∈ inner') →
        ∀ m, m ∈ inner' ↔ m ∈ inner ∨ m ∈ pivots.toList.take (k + 1) ∧ m.id ≠ 0 ∧ m ∉ net.inputs := by
      intro inner' sub sup joined m
      rw [taken, List.mem_append, List.mem_singleton]
      constructor
      · intro member
        rcases sub m member with old | ⟨rfl, nonzero, out⟩
        · exact ((members m).mp old).imp_right fun ⟨slot, rest⟩ => ⟨.inl slot, rest⟩
        · exact .inr ⟨.inr rfl, nonzero, out⟩
      · rintro (old | ⟨old | rfl, nonzero, out⟩)
        · exact sup m ((members m).mpr (.inl old))
        · exact sup m ((members m).mpr (.inr ⟨old, nonzero, out⟩))
        · exact joined nonzero out
    have unchanged : (p.id ≠ 0 → p ∉ net.inputs → p ∈ s.1) →
        ∀ m, m ∈ s.1 ↔ m ∈ inner ∨ m ∈ pivots.toList.take (k + 1) ∧ m.id ≠ 0 ∧ m ∉ net.inputs :=
      kept (fun _ member => .inl member) fun _ member => member
    by_cases zero : p.id = 0
    · refine ⟨(s.1, s.2), ?_, unchanged fun nonzero => absurd zero nonzero, seen⟩
      rw [if_neg (by simpa using zero)]
      exact Logged.yields_pure _
    have read := coherent.isPi_eq (live p (Array.mem_toList_iff.mp (List.mem_of_getElem? found)))
    by_cases input : p ∈ net.inputs
    · refine ⟨(s.1, s.2), ?_, unchanged fun _ out => absurd input out, seen⟩
      rw [if_pos (by simpa using zero)]
      refine (Logged.yields_orFail read).bind ?_
      rw [if_neg (by simp [input])]
      exact Logged.yields_pure _
    by_cases there : p.id ∈ s.2
    · refine ⟨(s.1, s.2), ?_, unchanged fun _ _ => ?_, seen⟩
      · rw [if_pos (by simpa using zero)]
        refine (Logged.yields_orFail read).bind ?_
        rw [if_neg (by simp [input, there])]
        exact Logged.yields_pure _
      · obtain ⟨m, member, same⟩ := seen p.id there
        exact Node.eq_of_id_eq same ▸ member
    · refine ⟨(s.1.push p, s.2.insert p.id ()), ?_, kept (fun m member => ?_)
        (fun m member => Array.mem_push_of_mem _ member) fun _ _ => Array.mem_push_self,
        fun i marked => ?_⟩
      · rw [if_pos (by simpa using zero)]
        refine (Logged.yields_orFail read).bind ?_
        rw [if_pos (by simp [input, there])]
        exact Logged.yields_pure _
      · rcases Array.mem_push.mp member with old | rfl
        · exact .inl old
        · exact .inr ⟨rfl, zero, input⟩
      · rcases Std.HashMap.mem_insert.mp marked with same | old
        · exact ⟨p, Array.mem_push_self, beq_iff_eq.mp same⟩
        · obtain ⟨m, member, same⟩ := seen i old
          exact ⟨m, Array.mem_push_of_mem _ member, same⟩
  · rw [List.take_length] at members
    exact fun m => by rw [members, Array.mem_toList_iff]

/-! ### Positions -/

/-- A view whose nodes are distinct and whose map holds each node's id at its last position reads
every position back. -/
theorem nodeToIndex_indexToNode {v : ConeView}
    (indices : v.indices = (List.range v.nodes.size).foldl
      (fun m i => m.insert (v.nodes.getD i default).id i) ∅)
    (nodup : v.nodes.toList.Nodup) {i : Nat} (lt : i < v.nodes.size) :
    v.indexToNode i = .ok v.nodes[i] ∧ v.nodeToIndex v.nodes[i] = .ok i := by
  refine ⟨by simp [indexToNode, lt], ?_⟩
  -- no later position holds the same node, since the nodes are distinct
  have found : v.indices[v.nodes[i].id]? = some i := by
    rw [indices, foldl_insert_getElem?]
    refine ⟨lt, by simp [Array.getD_eq_getD_getElem?, lt], fun j after before same => ?_⟩
    have equal : v.nodes[j] = v.nodes[i] :=
      Node.eq_of_id_eq (by simpa [Array.getD_eq_getD_getElem?, before] using same)
    have back : j = i :=
      (@List.Nodup.getElem_inj_iff _ _ nodup j (by simpa using before) i (by simpa using lt)).mp
        (by simpa using equal)
    omega
  simp [nodeToIndex, Std.HashMap.get?_eq_getElem?, found]

/-! ### Sound views -/

/-- `v` is a sound window of `net` from `pivots`: it lists the constant, then the leaves, then the
inner nodes, each once, and these are the constant and the nodes below a pivot; every position
reads back; the leaves are the inputs below the pivots, in depth-first pre-order; the inner nodes
are the other nodes below the pivots but the constant, each after those of its fan-ins that are
not the constant or a leaf; and there is one output per pivot, in order. -/
structure Sound (net : Network) (pivots : Array Node) (v : ConeView) : Prop where
  net_eq : v.net = net
  pivots_eq : v.pivots = pivots
  nodes_eq : v.nodes = #[Node.constant] ++ v.leaves ++ v.inner
  nodup : v.nodes.toList.Nodup
  mem_nodes : ∀ m, m ∈ v.nodes ↔ m = Node.constant ∨ ∃ p ∈ pivots, net.Reaches p m
  positions : ∀ i < v.nodes.size, ∃ m, v.indexToNode i = .ok m ∧ v.nodeToIndex m = .ok i
  preorder : ∃ order, net.Preorder pivots.toList [] order ∧
    v.leaves.toList = order.filter (· ∈ net.inputs)
  mem_inner : ∀ m, m ∈ v.inner ↔ m ≠ Node.constant ∧ m ∉ net.inputs ∧ ∃ p ∈ pivots, net.Reaches p m
  ordered : net.Ordered (fun m => m = Node.constant ∨ m ∈ v.leaves) v.inner
  outputs_eq : v.outputs = pivots.map (Signal.make · false)

/-! ### The inner nodes before the sort -/

section Collected

variable {pivots collected leaves inner₀ inner : Array Node} {visited : Std.HashMap Nat Unit}

/-- The inner nodes before the sort are the collected nodes that are no inputs: the collected
nodes that are not pivots, and the pivots other than the constant, which are collected. -/
theorem inner_iff_collected (coherent : net.Coherent) (state : CollectState net visited collected)
    (walk : net.Preorder pivots.toList [] collected.toList)
    (unpivoted : ∀ m, m ∈ inner₀ ↔ m ∈ collected ∧ m ∉ net.inputs ∧ m ∉ pivots)
    (pivoted : ∀ m, m ∈ inner ↔ m ∈ inner₀ ∨ m ∈ pivots ∧ m.id ≠ 0 ∧ m ∉ net.inputs) :
    ∀ m, m ∈ inner ↔ m ∈ collected ∧ m ∉ net.inputs := by
  intro m
  rw [pivoted, unpivoted]
  constructor
  · rintro (⟨member, out, -⟩ | ⟨pivot, nonzero, out⟩)
    · exact ⟨member, out⟩
    · have listed := (walk.closed coherent).1 m (Array.mem_toList_iff.mpr pivot)
      exact ⟨Array.mem_toList_iff.mp (listed.resolve_right fun same => nonzero (same ▸ rfl)), out⟩
  · rintro ⟨member, out⟩
    by_cases pivot : m ∈ pivots
    · exact .inr ⟨pivot, state.nonzero m member, out⟩
    · exact .inl ⟨member, out, pivot⟩

/-- Leaves and inner nodes that split the collected nodes into inputs and others meet what the
sort asks for: the inner nodes are live gates apart from the leaves, and each fan-in of theirs is
the constant, a leaf or an inner node. -/
theorem sortable_of_collected (coherent : net.Coherent) (state : CollectState net visited collected)
    (walk : net.Preorder pivots.toList [] collected.toList)
    (leafIff : ∀ m, m ∈ leaves ↔ m ∈ collected ∧ m ∈ net.inputs)
    (innerIff : ∀ m, m ∈ inner ↔ m ∈ collected ∧ m ∉ net.inputs) :
    (∀ g ∈ inner, ∃ f, net.gateFanins g = some f) ∧ (∀ g ∈ inner, g ∉ leaves) ∧
      ∀ g ∈ inner, ∀ f, net.gateFanins g = some f →
        ∀ s ∈ f.toList, s.node = Node.constant ∨ s.node ∈ leaves ∨ s.node ∈ inner := by
  refine ⟨fun g member => ?_, fun g member leaf => ((innerIff g).mp member).2 ((leafIff g).mp leaf).2,
    fun g member f gate s slot => ?_⟩
  · obtain ⟨kept, out⟩ := (innerIff g).mp member
    refine coherent.gate_of_live (state.live g kept) (state.nonzero g kept) ?_
    rw [coherent.isPi_eq (state.live g kept), decide_eq_false out]
  · -- a fan-in of a collected gate is collected or the constant
    rcases (walk.closed coherent).2 g (Array.mem_toList_iff.mpr ((innerIff g).mp member).1)
      List.not_mem_nil f gate s slot with below | constant
    · have below := Array.mem_toList_iff.mp below
      by_cases input : s.node ∈ net.inputs
      · exact .inr (.inl ((leafIff _).mpr ⟨below, input⟩))
      · exact .inr (.inr ((innerIff _).mpr ⟨below, input⟩))
    · exact .inl constant

end Collected

/-- The constant, distinct leaves and distinct inner nodes apart from the leaves, neither of them
holding the constant, are distinct. -/
theorem nodup_layout {leaves inner : Array Node} (leavesNodup : leaves.toList.Nodup)
    (innerNodup : inner.toList.Nodup) (constantLeaf : Node.constant ∉ leaves)
    (constantInner : Node.constant ∉ inner) (apart : ∀ m ∈ inner, m ∉ leaves) :
    (#[Node.constant] ++ leaves ++ inner).toList.Nodup := by
  simp only [Array.toList_append, List.nodup_append]
  refine ⟨⟨by simp, leavesNodup, ?_⟩, innerNodup, ?_⟩
  · intro c constant l leaf same
    have : c = Node.constant := by simpa using constant
    exact constantLeaf (this ▸ same ▸ Array.mem_toList_iff.mp leaf)
  · intro m front o listed same
    subst same
    rcases List.mem_append.mp front with constant | leaf
    · have : m = Node.constant := by simpa using constant
      exact constantInner (this ▸ Array.mem_toList_iff.mp listed)
    · exact apart m (Array.mem_toList_iff.mp listed) (Array.mem_toList_iff.mp leaf)

/-- Leaves and inner nodes that split the collected nodes into inputs and others lay out, after
the constant, exactly the constant and the collected nodes. -/
theorem mem_layout_iff {collected leaves inner : Array Node}
    (leafIff : ∀ m, m ∈ leaves ↔ m ∈ collected ∧ m ∈ net.inputs)
    (innerIff : ∀ m, m ∈ inner ↔ m ∈ collected ∧ m ∉ net.inputs) (m : Node) :
    m ∈ #[Node.constant] ++ leaves ++ inner ↔ m = Node.constant ∨ m ∈ collected := by
  simp only [Array.mem_append, Array.mem_singleton, leafIff, innerIff]
  by_cases input : m ∈ net.inputs <;> simp [input]

/-- Building a view of a coherent network from live pivots succeeds from every journal, and the
view is a sound window of the network: the pivots may repeat, and may lie below one another. -/
theorem make_sound (coherent : net.Coherent) (pivots : Array Node) (live : ∀ p ∈ pivots, net.Live p)
    (wrap : Bool) : ∃ v, Logged.Yields (make net pivots wrap) v ∧ Sound net pivots v := by
  obtain ⟨visited, collected, walk, state, preorder⟩ := collectFrom_pivots coherent live
  have collectedIff : ∀ m, m ∈ collected ↔ m ≠ Node.constant ∧ ∃ p ∈ pivots, net.Reaches p m := by
    intro m
    rw [← Array.mem_toList_iff, preorder.mem_iff coherent]
    simp only [Array.mem_toList_iff]
  obtain ⟨⟨leaves, inner₀⟩, partition, leavesEq, unpivoted⟩ :=
    partition_yields coherent pivots state.live
  obtain ⟨⟨inner, seen⟩, pivoted, pivotsIff⟩ := pivots_yields coherent live inner₀
  have leafIff : ∀ m, m ∈ leaves ↔ m ∈ collected ∧ m ∈ net.inputs := by
    intro m
    rw [← Array.mem_toList_iff, leavesEq, List.mem_filter, Array.mem_toList_iff, decide_eq_true_iff]
  have innerIff := inner_iff_collected coherent state preorder unpivoted pivotsIff
  obtain ⟨gates, apart, closed⟩ := sortable_of_collected coherent state preorder leafIff innerIff
  obtain ⟨ordered, sorted, orderedIff, orderedNodup, orderedOrdered⟩ :=
    topologicalSort_spec coherent wrap gates apart closed
  have nodup := nodup_layout (leavesEq ▸ state.nodup.filter _) orderedNodup
    (fun leaf => state.nonzero _ ((leafIff _).mp leaf).1 rfl)
    (fun listed => state.nonzero _ ((innerIff _).mp ((orderedIff _).mp listed)).1 rfl)
    fun m listed => apart m ((orderedIff m).mp listed)
  refine ⟨⟨net, pivots, wrap, leaves, ordered, pivots.map (Signal.make · false),
      #[Node.constant] ++ leaves ++ ordered,
      (List.range (#[Node.constant] ++ leaves ++ ordered).size).foldl
        (fun m i => m.insert ((#[Node.constant] ++ leaves ++ ordered).getD i default).id i) ∅⟩,
    ?_, ⟨rfl, rfl, rfl, nodup, fun m => ?_, fun i lt => ⟨_, nodeToIndex_indexToNode rfl nodup lt⟩,
      ⟨collected.toList, preorder, leavesEq⟩, fun m => ?_, orderedOrdered, rfl⟩⟩
  · exact (Logged.yields_orFail walk).bind (partition.bind (pivoted.bind
      ((Logged.yields_orFail sorted).bind ((Logged.yields_logAt _ _).bind (Logged.yields_pure _)))))
  · show m ∈ #[Node.constant] ++ leaves ++ ordered ↔ _
    rw [mem_layout_iff leafIff (fun m => (orderedIff m).trans (innerIff m)), collectedIff]
    by_cases constant : m = Node.constant <;> simp [constant]
  · show m ∈ ordered ↔ _
    rw [orderedIff, innerIff, collectedIff]
    exact ⟨fun ⟨⟨other, below⟩, out⟩ => ⟨other, out, below⟩,
      fun ⟨other, out, below⟩ => ⟨⟨other, below⟩, out⟩⟩

/-- The view of the majority of three inputs from its gate, given twice. -/
theorem make_sound_of_majority :
    ∃ s net, NetM.Returns (Network.createMaj (Signal.make ⟨1⟩ false) (Signal.make ⟨2⟩ false)
        (Signal.make ⟨3⟩ false)) Network.empty.addInput.2.addInput.2.addInput.2 s net ∧
      net.Coherent ∧ (∀ p ∈ #[s.node, s.node], net.Live p) ∧
      ∃ v, Logged.Yields (make net #[s.node, s.node] false) v ∧ Sound net #[s.node, s.node] v := by
  have wf₀ : (Network.empty.addInput.2.addInput.2.addInput.2).WellFormed :=
    wellFormed_threeInputs
  have live : ∀ t ∈ [Signal.make ⟨1⟩ false, Signal.make ⟨2⟩ false, Signal.make ⟨3⟩ false],
      (Network.empty.addInput.2.addInput.2.addInput.2).Live t.node :=
    live_three ⟨_, rfl, rfl⟩ ⟨_, rfl, rfl⟩ ⟨_, rfl, rfl⟩
  obtain ⟨s, net, run⟩ := wf₀.createMaj_returns live (room_threeInputs (by decide))
  obtain ⟨wf, -, f, gate, -⟩ := wf₀.createMaj_gate live (by decide) run
  have pivotsLive : ∀ p ∈ #[s.node, s.node], net.Live p := by
    intro p member
    obtain rfl : p = s.node := by simpa using member
    exact live_of_gateFanins gate
  exact ⟨s, net, run, wf.toCoherent, pivotsLive, make_sound wf.toCoherent _ pivotsLive false⟩

end ConeView

end MajorityGraph
