import Mathlib.Data.List.Perm.Basic
import MajorityGraph.Cut
import MajorityGraph.Proofs.Network.Cleanup
import MajorityGraph.Proofs.Simulation.Cuts

/-!
The growth of a cut keeps `Growing` at every step and ends within its fuel, with leaves that
separate the root from the inputs (`compute_valid_cut`).
-/

namespace MajorityGraph

namespace Network

open NetM

variable {net net' : Network} {a b c s : Signal}

/-- Over three live nodes, pairwise distinct, `createMaj` returns a live gate over their nodes, in
a well-formed network that grows from the old one. -/
theorem WellFormed.createMaj_gate (wf : net.WellFormed) (live : ∀ t ∈ [a, b, c], net.Live t.node)
    (distinct : ([a, b, c].map Signal.node).Nodup) (run : Returns (Network.createMaj a b c) net s net') :
    net'.WellFormed ∧ Grows net net' ∧ ∃ h, net'.gateFanins s.node = some h ∧
      (h.toList.map Signal.node).Perm ([a, b, c].map Signal.node) := by
  obtain ⟨wf', grows, -⟩ := wf.createMaj live run
  refine ⟨wf', grows, ?_⟩
  rcases createMaj_cases run with ⟨trivial, -⟩ | ⟨f, compl, p, created, gate, added, rfl⟩
  · exact absurd distinct (Fanins.normalize_trivial_iff.mp ⟨s, trivial⟩)
  · obtain ⟨-, isGate, -⟩ := wf.addGate (Fanins.normalize_normalize gate)
      (Fanins.forall_nodes_of_normalize net.Live gate live) added
    rw [Signal.node_make]
    exact ⟨f, isGate, Fanins.nodes_normalize gate⟩

/-- A gate reaches each node of its fan-ins. -/
theorem reaches_of_perm {g : Node} {h : Fanins} {ns : List Node} (gate : net.gateFanins g = some h)
    (nodes : (h.toList.map Signal.node).Perm ns) {n : Node} (member : n ∈ ns) : net.Reaches g n := by
  obtain ⟨t, slot, rfl⟩ := List.mem_map.mp (nodes.symm.subset member)
  exact .fanin gate slot (.refl _)

/-- Chains of majorities: over `2 k + 3` inputs there is a well-formed network of at most
`3 k + 5` nodes with a gate above all of its inputs, and room for `M` more nodes and uses when
the node ids leave it. It starts from the majority of three inputs and takes, `k` times, the
majority of the last gate with two new inputs; each round spends three of the room. -/
theorem exists_chain : ∀ k M : Nat, 3 * k + M + 4 ≤ Node.maxId → ∃ net : Network, net.WellFormed ∧
    net.inputs.size = 2 * k + 3 ∧ net.size ≤ 3 * k + 5 ∧ net.Room M ∧
    ∃ root, (net.gateFanins root).isSome ∧ ∀ p ∈ net.inputs, net.Reaches root p
  | 0, M, bound => by
    have wf₀ : (Network.empty.addInput.2.addInput.2.addInput.2).WellFormed :=
      wellFormed_threeInputs
    have live : ∀ t ∈ [Signal.make ⟨1⟩ false, Signal.make ⟨2⟩ false, Signal.make ⟨3⟩ false],
        (Network.empty.addInput.2.addInput.2.addInput.2).Live t.node :=
      live_three ⟨_, rfl, rfl⟩ ⟨_, rfl, rfl⟩ ⟨_, rfl, rfl⟩
    have emptySize : Network.empty.size = 1 := rfl
    obtain ⟨s, net, run, -, -, -, room⟩ :=
      wf₀.createMaj_step live (room_threeInputs (k := M + 1) (by omega))
    obtain ⟨wf, grows, h, gate, nodes⟩ := wf₀.createMaj_gate live (by decide) run
    have size := (wf₀.createMaj_frame live run).1
    simp only [size_addInput, emptySize] at size
    refine ⟨net, wf, by rw [grows.inputs]; rfl, by omega, room, s.node, by rw [gate]; rfl,
      fun p input => reaches_of_perm gate nodes ?_⟩
    have emptyInputs : Network.empty.inputs = #[] := rfl
    rw [grows.inputs] at input
    simp only [inputs_addInput, size_addInput, emptyInputs, emptySize] at input
    simp only [List.map_cons, List.map_nil, Signal.node_make, List.mem_cons, List.not_mem_nil,
      or_false]
    simpa using input
  | k + 1, M, bound => by
    obtain ⟨net, wf, inputs, size, room, root, isGate, reached⟩ := exists_chain k (M + 3) (by omega)
    obtain ⟨f, rootGate⟩ := Option.isSome_iff_exists.mp isGate
    -- two new inputs, and the majority of the last gate with them
    have room₁ : net.addInput.2.Room (M + 2) := room.addInput
    have wf₁ := wf.addInput room.size_le
    have wf₂ := wf₁.addInput room₁.size_le
    have kept : ∀ g f, net.gateFanins g = some f → net.addInput.2.addInput.2.gateFanins g = some f :=
      fun g f gate => by rw [wf₁.gateFanins_addInput, wf.gateFanins_addInput]; exact gate
    have rootLt := lt_size_of_gateFanins rootGate
    have live : ∀ t ∈ [Signal.make root false, Signal.make ⟨net.size⟩ false,
        Signal.make ⟨net.size + 1⟩ false], net.addInput.2.addInput.2.Live t.node := by
      refine live_three ?_ ?_ ?_ <;> simp only [Signal.node_make]
      · exact (wf₁.live_addInput _).mpr (.inl ((wf.live_addInput _).mpr
          (.inl (live_of_gateFanins rootGate))))
      · exact (wf₁.live_addInput _).mpr (.inl ((wf.live_addInput _).mpr (.inr rfl)))
      · exact (wf₁.live_addInput _).mpr (.inr (by simp))
    have distinct : ([Signal.make root false, Signal.make ⟨net.size⟩ false,
        Signal.make ⟨net.size + 1⟩ false].map Signal.node).Nodup := by
      simp only [List.map_cons, List.map_nil, Signal.node_make, List.nodup_cons, List.mem_cons,
        or_false, List.not_mem_nil, not_false_eq_true, List.nodup_nil, and_true]
      refine ⟨fun same => ?_, fun same => ?_⟩
      · rcases same with same | same <;> rw [same] at rootLt <;> simp at rootLt
      · simp [Node.mk.injEq] at same
    obtain ⟨s, net', run, -, -, -, room'⟩ := wf₂.createMaj_step live room₁.addInput
    obtain ⟨wf', grows, h, gate, nodes⟩ := wf₂.createMaj_gate live distinct run
    have size' := (wf₂.createMaj_frame live run).1
    refine ⟨net', wf', by rw [grows.inputs]; simp [inputs]; omega, by simp at size'; omega, room',
      s.node, by rw [gate]; rfl, fun p input => ?_⟩
    rw [grows.inputs, inputs_addInput, inputs_addInput, Array.mem_push, Array.mem_push] at input
    have keep : ∀ g f, (net.addInput.2.addInput.2).gateFanins g = some f → net'.gateFanins g = some f :=
      fun g f gate' => by rw [grows.gates g (lt_size_of_gateFanins gate')]; exact gate'
    rcases input with (old | first) | second
    · exact (reaches_of_perm gate nodes (by simp)).trans
        (((reached p old).of_kept kept).of_kept keep)
    · exact reaches_of_perm gate nodes (by simp [first])
    · exact reaches_of_perm gate nodes (by simp [second])

end Network

namespace CutLimit

open Network

variable {net : Network} {visited : Std.HashMap Nat Unit}

/-- The fan-in nodes of `ns` that are not the constant and were not visited, in order. -/
def fresh (visited : Std.HashMap Nat Unit) (ns : List Node) : List Node :=
  ns.filter fun m => m.id != 0 && !visited.contains m.id

theorem mem_fresh {ns : List Node} {m : Node} :
    m ∈ fresh visited ns ↔ m ∈ ns ∧ m.id ≠ 0 ∧ m.id ∉ visited := by
  simp [fresh]

/-- The fresh fan-ins of a live gate. -/
theorem freshFanins_of_gateFanins {n : Node} {f : Fanins} (gate : net.gateFanins n = some f) :
    freshFanins net visited n = .ok (fresh visited (f.toList.map (·.node))) := by
  simp only [freshFanins, fanins_of_gateFanins gate, except_ok_bind]
  rfl

/-- What `addLeaves` does: it appends, once each and in order, the nodes whose ids were not
visited, and marks every node visited. -/
theorem addLeaves_spec (visited : Std.HashMap Nat Unit) (leaves : Array Node) (ns : List Node) :
    ∃ added : List Node, (addLeaves visited leaves ns).2 = leaves ++ added.toArray ∧
      added.length ≤ ns.length ∧ added.Nodup ∧ (∀ m ∈ added, m ∈ ns ∧ m.id ∉ visited) ∧
      (∀ m ∈ ns, m.id ∈ visited ∨ m ∈ added) ∧
      ∀ i, i ∈ (addLeaves visited leaves ns).1 ↔ i ∈ visited ∨ ∃ m ∈ added, m.id = i := by
  induction ns generalizing visited leaves with
  | nil => exact ⟨[], by simp [addLeaves], by simp, by simp, by simp, by simp, by simp [addLeaves]⟩
  | cons m rest ih =>
    by_cases seen : m.id ∈ visited
    · -- a visited node is passed over
      have skip : addLeaves visited leaves (m :: rest) = addLeaves visited leaves rest := by
        simp [addLeaves, seen]
      obtain ⟨added, grown, few, nodup, new, covered, marked⟩ := ih visited leaves
      refine ⟨added, by rw [skip, grown], by simp; omega, nodup,
        fun k member => ⟨List.mem_cons_of_mem _ (new k member).1, (new k member).2⟩, ?_,
        fun i => by rw [skip, marked]⟩
      intro k member
      rcases List.mem_cons.mp member with rfl | later
      · exact .inl seen
      · exact covered k later
    · have add : addLeaves visited leaves (m :: rest) =
          addLeaves (visited.insert m.id ()) (leaves.push m) rest := by
        simp [addLeaves, seen]
      have unseen : m.id ∉ visited := seen
      obtain ⟨added, grown, few, nodup, new, covered, marked⟩ := ih (visited.insert m.id ()) (leaves.push m)
      refine ⟨m :: added, by rw [add, grown]; simp, by simp; omega, ?_, ?_, ?_, ?_⟩
      · refine List.nodup_cons.mpr ⟨fun member => ?_, nodup⟩
        exact (new m member).2 Std.HashMap.mem_insert_self
      · intro k member
        rcases List.mem_cons.mp member with rfl | later
        · exact ⟨List.mem_cons_self .., unseen⟩
        · obtain ⟨inRest, notSeen⟩ := new k later
          exact ⟨List.mem_cons_of_mem _ inRest, fun mem => notSeen (Std.HashMap.mem_insert.mpr (.inr mem))⟩
      · intro k member
        rcases List.mem_cons.mp member with rfl | later
        · exact .inr (List.mem_cons_self ..)
        · rcases covered k later with seenNow | fresh
          · rcases Std.HashMap.mem_insert.mp seenNow with same | old
            · exact .inr (Node.eq_of_id_eq (beq_iff_eq.mp same) ▸ List.mem_cons_self ..)
            · exact .inl old
          · exact .inr (List.mem_cons_of_mem _ fresh)
      · intro i
        rw [add, marked, Std.HashMap.mem_insert]
        simp only [List.mem_cons, exists_eq_or_imp, beq_iff_eq]
        constructor
        · rintro ((same | old) | found)
          · exact .inr (.inl same)
          · exact .inl old
          · exact .inr (.inr found)
        · rintro (old | same | found)
          · exact .inl (.inr old)
          · exact .inl (.inl same)
          · exact .inr found

/-- The scan for the leaf to expand after `k` leaves: it has found none only when these are all
inputs, and otherwise a leaf that is no input, with the number of its fresh fan-ins. -/
structure Scanned (net : Network) (visited : Std.HashMap Nat Unit) (leaves : Array Node) (k : Nat)
    (best : Option (Nat × Nat)) : Prop where
  inputs : best = none → ∀ i (lt : i < leaves.size), i < k → net.isPi leaves[i] = .ok true
  chosen : ∀ pos cost, best = some (pos, cost) → ∃ lt : pos < leaves.size,
    net.isPi leaves[pos] = .ok false ∧ ∃ fs, freshFanins net visited leaves[pos] = .ok fs ∧
      cost = fs.length

variable (visited) in
/-- The choice of the leaf to expand: when every leaf is live, the scan succeeds; it finds no
leaf only when all leaves are inputs, and otherwise a leaf that is no input, with the number of
its fresh fan-ins as its cost. -/
theorem cheapestLeaf_spec (coherent : net.Coherent) {leaves : Array Node}
    (live : ∀ l ∈ leaves, net.Live l) :
    ∃ r, cheapestLeaf net visited leaves = .ok r ∧
      (r = none → ∀ l ∈ leaves, net.isPi l = .ok true) ∧
      ∀ pos cost, r = some (pos, cost) → ∃ lt : pos < leaves.size,
        net.isPi leaves[pos] = .ok false ∧ ∃ fs, freshFanins net visited leaves[pos] = .ok fs ∧
          cost = fs.length := by
  unfold cheapestLeaf
  refine forIn_ok_bind (Scanned net visited leaves) ?step ?start ?final
  case start => exact ⟨fun _ _ _ lt => absurd lt (Nat.not_lt_zero _), fun _ _ none => by cases none⟩
  case final =>
    intro best ⟨empty, chosen⟩
    refine ⟨best, rfl, fun isNone l member => ?_, chosen⟩
    obtain ⟨i, lt, rfl⟩ := Array.mem_iff_getElem.mp member
    exact empty isNone i lt (by simpa using lt)
  case step =>
    intro k lt best ⟨empty, chosen⟩
    simp only [List.length_range] at lt
    simp only [List.getElem_range]
    have leaf : leaves.getD k default = leaves[k] := by
      simp [Array.getD_eq_getD_getElem?, Array.getElem?_eq_getElem lt]
    rw [leaf]
    obtain ⟨b, pi⟩ := coherent.isPi_live (live _ (Array.getElem_mem lt))
    have read : LogicNetwork.isPi net leaves[k] = .ok b := pi
    cases b with
    | true =>
      refine ⟨best, by simp [read, bind, Except.bind, pure, Except.pure], fun isNone i lt' before => ?_,
        chosen⟩
      rcases Nat.lt_succ_iff_lt_or_eq.mp before with earlier | rfl
      · exact empty isNone i lt' earlier
      · exact pi
    | false =>
      obtain ⟨d, stored⟩ := coherent.data_of_live (live _ (Array.getElem_mem lt))
      have fanned : freshFanins net visited leaves[k] =
          .ok ((( if d.isGate then d.fanins.toList else []).map (·.node)).filter
            fun m => m.id != 0 && !visited.contains m.id) := by
        simp only [freshFanins]
        rw [show LogicNetwork.fanins net leaves[k] = _ from fanins_of_data stored]
        rfl
      -- the new candidate replaces the best one when it is cheaper, or when there is none
      have this_one : Scanned net visited leaves (k + 1) (some (k, (((if d.isGate then d.fanins.toList else []).map (·.node)).filter
          fun m => m.id != 0 && !visited.contains m.id).length)) :=
        { inputs := fun isNone => nomatch isNone
          chosen := fun pos cost same => by
            cases same
            exact ⟨lt, pi, _, fanned, rfl⟩ }
      cases best with
      | none => exact ⟨_, by simp [read, fanned, bind, Except.bind, pure, Except.pure], this_one⟩
      | some p =>
        obtain ⟨pos, c⟩ := p
        -- a candidate no cheaper than the best one leaves it in place
        have keep : Scanned net visited leaves (k + 1) (some (pos, c)) :=
          { inputs := fun isNone => nomatch isNone
            chosen := chosen }
        by_cases cheaper : (((if d.isGate then d.fanins.toList else []).map (·.node)).filter
            fun m => m.id != 0 && !visited.contains m.id).length < c
        · exact ⟨_, by simp [read, fanned, cheaper, bind, Except.bind, pure, Except.pure], this_one⟩
        · exact ⟨_, by simp [read, fanned, cheaper, bind, Except.bind, pure, Except.pure], keep⟩

/-- Without one of its distinct entries a list holds exactly the others. -/
theorem mem_eraseIdx_iff {l : List Node} (nodup : l.Nodup) {k : Nat} (lt : k < l.length) {m : Node} :
    m ∈ l.eraseIdx k ↔ m ∈ l ∧ m ≠ l[k] := by
  have perm := List.getElem_cons_eraseIdx_perm lt
  have apart := (List.nodup_cons.mp (perm.nodup_iff.mpr nodup)).1
  constructor
  · intro member
    exact ⟨perm.subset (List.mem_cons_of_mem _ member), fun same => apart (same ▸ member)⟩
  · rintro ⟨member, other⟩
    rcases List.mem_cons.mp (perm.symm.subset member) with same | kept
    · exact absurd same other
    · exact kept

/-! ### The invariant of the growth -/

/-- What the growth of a cut of `root` keeps, with `expanded` the leaves replaced so far: the
visited ids are those of the leaves and the replaced nodes, all distinct; the leaves are live
nodes below the root other than the constant, the replaced nodes live gates below it; every
fan-in of a replaced node is the constant or visited; and there are at most `bound` leaves. The
growth starts from the root as the one leaf, replaced first. -/
structure Growing (net : Network) (root : Node) (bound : Nat) (visited : Std.HashMap Nat Unit)
    (leaves : Array Node) (expanded : List Node) : Prop where
  ids : ∀ i, i ∈ visited ↔ (∃ l ∈ leaves, l.id = i) ∨ ∃ e ∈ expanded, e.id = i
  nodup : (leaves.toList ++ expanded).Nodup
  leafOk : ∀ l ∈ leaves, net.Live l ∧ l.id ≠ 0 ∧ net.Reaches root l
  replaced : ∀ e ∈ expanded, (net.gateFanins e).isSome ∧ net.Reaches root e
  closed : ∀ v f, v ∈ expanded → net.gateFanins v = some f →
    ∀ s ∈ f.toList, s.node.id = 0 ∨ s.node.id ∈ visited
  size : leaves.size ≤ bound

variable {root : Node} {bound : Nat} {leaves : Array Node} {expanded : List Node}

/-- Before the growth the root is the one leaf. -/
theorem growing_start (live : net.Live root) (nonzero : root.id ≠ 0) (room : 1 ≤ bound) :
    Growing net root bound (({} : Std.HashMap Nat Unit).insert root.id ()) #[root] [] where
  ids i := by simp
  nodup := by simp
  leafOk l member := by
    rw [List.mem_toArray, List.mem_singleton] at member
    subst member
    exact ⟨live, nonzero, .refl _⟩
  replaced e member := nomatch member
  closed v f member := nomatch member
  size := room

/-- Replacing a leaf that is a live gate by its fresh fan-ins keeps the invariant, with the leaf
now replaced, when the cut stays within the bound. -/
theorem Growing.expand (coherent : net.Coherent) (growing : Growing net root bound visited leaves expanded)
    {pos : Nat} (lt : pos < leaves.size) {f : Fanins} (gate : net.gateFanins leaves[pos] = some f)
    (room : leaves.size - 1 + (fresh visited (f.toList.map (·.node))).length ≤ bound) :
    Growing net root bound
      (addLeaves visited (leaves.eraseIdxIfInBounds pos) (fresh visited (f.toList.map (·.node)))).1
      (addLeaves visited (leaves.eraseIdxIfInBounds pos) (fresh visited (f.toList.map (·.node)))).2
      (leaves[pos] :: expanded) := by
  obtain ⟨added, grown, few, nodupAdded, new, covered, marked⟩ :=
    addLeaves_spec visited (leaves.eraseIdxIfInBounds pos) (fresh visited (f.toList.map (·.node)))
  have ltList : pos < leaves.toList.length := by simpa using lt
  have leafList : leaves.toList[pos] = leaves[pos] := by simp
  -- the remaining leaves are the old ones but the expanded one
  have rest : ∀ m, m ∈ (leaves.eraseIdxIfInBounds pos).toList ↔ m ∈ leaves ∧ m ≠ leaves[pos] := by
    intro m
    rw [Array.toList_eraseIdxIfInBounds, mem_eraseIdx_iff (List.nodup_append.mp growing.nodup).1 ltList,
      leafList, Array.mem_toList_iff]
  -- a new leaf was not visited, so it is neither a leaf nor a replaced node
  have fresh_new : ∀ m ∈ added, m.id ∉ visited := fun m member => (new m member).2
  have leafIds : ∀ l ∈ leaves, l.id ∈ visited := fun l member =>
    (growing.ids _).mpr (.inl ⟨l, member, rfl⟩)
  have expandedIds : ∀ e ∈ expanded, e.id ∈ visited := fun e member =>
    (growing.ids _).mpr (.inr ⟨e, member, rfl⟩)
  have leafBelow := (growing.leafOk _ (Array.getElem_mem lt)).2.2
  have grows : ∀ i ∈ visited, i ∈ (addLeaves visited (leaves.eraseIdxIfInBounds pos)
      (fresh visited (f.toList.map (·.node)))).1 := fun i mem => (marked i).mpr (.inl mem)
  refine ⟨fun i => ?_, ?_, fun l member => ?_, fun e member => ?_, fun v g member gate' s slot => ?_, ?_⟩
  · -- the visited ids
    rw [marked, growing.ids, grown]
    simp only [Array.mem_append, List.mem_toArray, List.mem_cons, exists_eq_or_imp]
    constructor
    · rintro ((⟨l, member, rfl⟩ | ⟨e, member, rfl⟩) | ⟨m, member, rfl⟩)
      · by_cases expandedHere : l = leaves[pos]
        · exact .inr (.inl (by rw [expandedHere]))
        · exact .inl ⟨l, .inl (Array.mem_toList_iff.mp ((rest l).mpr ⟨member, expandedHere⟩)), rfl⟩
      · exact .inr (.inr ⟨e, member, rfl⟩)
      · exact .inl ⟨m, .inr member, rfl⟩
    · rintro (⟨l, (old | member), rfl⟩ | (same | ⟨e, member, rfl⟩))
      · exact .inl (.inl ⟨l, ((rest l).mp (Array.mem_toList_iff.mpr old)).1, rfl⟩)
      · exact .inr ⟨l, member, rfl⟩
      · exact .inl (.inl ⟨_, Array.getElem_mem lt, same⟩)
      · exact .inl (.inr ⟨e, member, rfl⟩)
  · -- all distinct: the expanded leaf moves, and the new leaves were not visited
    rw [grown, Array.toList_append, List.toList_toArray, Array.toList_eraseIdxIfInBounds]
    have perm : (leaves.toList.eraseIdx pos ++ added ++ leaves[pos] :: expanded).Perm
        ((leaves.toList ++ expanded) ++ added) := by
      calc (leaves.toList.eraseIdx pos ++ added ++ leaves[pos] :: expanded)
          _ = leaves.toList.eraseIdx pos ++ added ++ leaves[pos] :: expanded := rfl
          List.Perm _ (leaves[pos] :: (leaves.toList.eraseIdx pos ++ added ++ expanded)) := List.perm_middle
          List.Perm _ (leaves[pos] :: (leaves.toList.eraseIdx pos ++ expanded ++ added)) := by
            refine List.Perm.cons _ ?_
            rw [List.append_assoc, List.append_assoc]
            exact List.Perm.append_left _ List.perm_append_comm
          _ = (leaves.toList[pos] :: leaves.toList.eraseIdx pos) ++ expanded ++ added := by simp
          List.Perm _ ((leaves.toList ++ expanded) ++ added) :=
            ((List.getElem_cons_eraseIdx_perm ltList).append_right _).append_right _
    refine perm.nodup_iff.mpr (List.nodup_append.mpr ⟨growing.nodup, nodupAdded, ?_⟩)
    intro a old b fresh same
    subst same
    rcases List.mem_append.mp old with leaf | replaced
    · exact fresh_new a fresh (leafIds a (Array.mem_toList_iff.mp leaf))
    · exact fresh_new a fresh (expandedIds a replaced)
  · -- the leaves, old and new
    rw [grown] at member
    rcases Array.mem_append.mp member with old | fresh
    · exact growing.leafOk l ((rest l).mp (Array.mem_toList_iff.mpr old)).1
    · obtain ⟨inFresh, -⟩ := new l (by simpa using fresh)
      obtain ⟨slotNode, nonzero, -⟩ := mem_fresh.mp inFresh
      obtain ⟨s, slot, rfl⟩ := List.mem_map.mp slotNode
      exact ⟨coherent.faninsLive _ f gate s slot, nonzero, leafBelow.trans (.fanin gate slot (.refl _))⟩
  · -- the replaced nodes, the expanded leaf among them
    rcases List.mem_cons.mp member with rfl | old
    · exact ⟨by rw [gate]; rfl, leafBelow⟩
    · exact growing.replaced e old
  · -- the fan-ins of the replaced nodes are the constant or visited
    rcases List.mem_cons.mp member with rfl | old
    · rw [gate] at gate'
      cases gate'
      by_cases zero : s.node.id = 0
      · exact .inl zero
      · refine .inr ?_
        by_cases seen : s.node.id ∈ visited
        · exact grows _ seen
        · have inFresh : s.node ∈ fresh visited (f.toList.map (·.node)) :=
            mem_fresh.mpr ⟨List.mem_map_of_mem slot, zero, seen⟩
          rcases covered _ inFresh with old | addedHere
          · exact grows _ old
          · exact (marked _).mpr (.inr ⟨_, addedHere, rfl⟩)
    · exact (growing.closed _ g old gate' s slot).imp_right (grows _)
  · -- the bound: one leaf out, at most its fresh fan-ins in
    rw [grown, Array.size_append, ← Array.eraseIdx_eq_eraseIdxIfInBounds lt, Array.size_eraseIdx]
    simp only [List.size_toArray]
    omega

/-- The replaced nodes are distinct gates, so they are at most the nodes of the network. -/
theorem Growing.replaced_le (growing : Growing net root bound visited leaves expanded) :
    expanded.length ≤ net.size := by
  refine length_le_of_ids_lt (List.nodup_append.mp growing.nodup).2.1 fun e member => ?_
  obtain ⟨f, gate⟩ := Option.isSome_iff_exists.mp (growing.replaced e member).1
  exact lt_size_of_gateFanins gate

/-- A gate has at most three fresh fan-ins. -/
theorem length_fresh_le (visited : Std.HashMap Nat Unit) (f : Fanins) : (fresh visited (f.toList.map (·.node))).length ≤ 3 :=
  (List.length_filter_le _ _).trans (by simp [Fanins.toList])

/-- The fresh fan-ins of a gate are at most its fan-ins on nodes other than the constant. -/
theorem length_fresh_le_countP (visited : Std.HashMap Nat Unit) (f : Fanins) :
    (fresh visited (f.toList.map (·.node))).length ≤ f.toList.countP fun s => s.node.id ≠ 0 := by
  rw [fresh, ← List.countP_eq_length_filter, List.countP_map]
  exact List.countP_mono_left fun s _ kept => by simp_all

/-- The growth ends, with a cut that keeps the invariant and the nodes replaced before, when its
fuel and the replaced nodes together exceed the nodes of the network. It ends when every leaf is
an input, or when one more expansion would take the cut past the limit. -/
theorem grow_yields (coherent : net.Coherent) {lim : CutLimit} (within : lim.maxLeaves ≤ bound) :
    ∀ fuel visited leaves expanded, Growing net root bound visited leaves expanded →
      net.size + 1 ≤ fuel + expanded.length →
      ∃ cut, Logged.Yields (grow lim net root fuel visited leaves) cut ∧
        ∃ v E, Growing net root bound v cut E ∧ expanded ⊆ E ∧
          ((∀ l ∈ cut, net.isPi l = .ok true) ∨ lim.maxLeaves < cut.size + 2)
  | 0, _, _, _, growing, enough => by
    have := growing.replaced_le
    omega
  | fuel + 1, visited, leaves, expanded, growing, enough => by
    obtain ⟨r, scan, inputs, chosen⟩ :=
      cheapestLeaf_spec visited coherent fun l member => (growing.leafOk l member).1
    rw [grow]
    refine Logged.exists_bind ⟨r, Logged.yields_orFail scan, rfl⟩ fun r' same => ?_
    subst same
    rcases r with _ | ⟨pos, cost⟩
    · -- every leaf is an input
      exact ⟨leaves, Logged.yields_pure _, visited, expanded, growing, List.Subset.refl _,
        .inl (inputs rfl)⟩
    obtain ⟨lt, notInput, fs, freshRead, rfl⟩ := chosen pos cost rfl
    have leaf := growing.leafOk _ (Array.getElem_mem lt)
    obtain ⟨f, gate⟩ := coherent.gate_of_live leaf.1 leaf.2.1 notInput
    rw [freshFanins_of_gateFanins gate] at freshRead
    cases freshRead
    dsimp only
    split
    · -- the cheapest expansion would overflow the limit
      rename_i overflow
      have few := length_fresh_le visited f
      exact ⟨leaves, Logged.yields_pure _, visited, expanded, growing, List.Subset.refl _,
        .inr (by omega)⟩
    rename_i room
    obtain ⟨cut, yields, v, E, done, kept, ended⟩ := grow_yields coherent within fuel _ _ _
      (growing.expand coherent lt gate (by omega)) (by simp only [List.length_cons]; omega)
    refine ⟨cut, ?_, v, E, done, fun e member => kept (List.mem_cons_of_mem _ member), ended⟩
    exact (Logged.yields_logAt _ _).bind ((Logged.yields_orFail (freshFanins_of_gateFanins gate)).bind yields)


/-! ### The cut -/

/-- Sorting distinct nodes by id keeps them and orders them strictly. -/
theorem mergeSort_ids {l : List Node} (nodup : l.Nodup) :
    (l.mergeSort fun a b => a.id ≤ b.id).Perm l ∧
      (l.mergeSort fun a b => a.id ≤ b.id).Pairwise fun a b => a.id < b.id := by
  have perm := List.mergeSort_perm l fun a b => decide (a.id ≤ b.id)
  have sorted := @List.pairwise_mergeSort _ (fun a b : Node => decide (a.id ≤ b.id))
    (fun a b c first second => by simp only [decide_eq_true_eq] at first second ⊢; omega)
    (fun a b => by simp only [Bool.or_eq_true, decide_eq_true_eq]; omega) l
  refine ⟨perm, (sorted.and (perm.nodup_iff.mpr nodup)).imp fun ⟨le, apart⟩ => ?_⟩
  simp only [decide_eq_true_eq] at le
  exact Nat.lt_of_le_of_ne le fun same => apart (Node.eq_of_id_eq same)

/-- What a cut of `root` of at most `bound` leaves must be: leaves in increasing order, each a live
node below the root other than the constant and the root, that separate the root from the
inputs. -/
structure ValidCut (net : Network) (root : Node) (bound : Nat) (cut : Array Node) : Prop where
  increasing : cut.toList.Pairwise fun a b => a.id < b.id
  leaves : ∀ l ∈ cut, net.Live l ∧ l.id ≠ 0 ∧ l ≠ root ∧ net.Reaches root l
  size : cut.size ≤ bound
  separates : net.Separates cut root

/-- The cut of a live gate of a coherent network, with room for one leaf at least: the growth
ends with a valid cut of at most the limit or the root's fan-ins on other nodes than the constant
many leaves, which are all inputs unless one more expansion would take the cut past the
limit. -/
theorem compute_spec (coherent : net.Coherent) {lim : CutLimit} (positive : 0 < lim.maxLeaves)
    {f : Fanins} (gate : net.gateFanins root = some f) :
    ∃ cut, Logged.Yields (compute lim net root) cut ∧
      ValidCut net root (max lim.maxLeaves (f.toList.countP fun s => s.node.id ≠ 0)) cut ∧
      ((∀ l ∈ cut, net.isPi l = .ok true) ∨ lim.maxLeaves < cut.size + 2) := by
  have nonzero : root.id ≠ 0 := fun zero => by
    rw [show root = Node.constant from Node.eq_of_id_eq zero, coherent.gateFanins_constant] at gate
    cases gate
  -- the root is the one leaf before the growth, and is replaced first
  have before : Growing net root (max lim.maxLeaves (f.toList.countP fun s => s.node.id ≠ 0))
      (({} : Std.HashMap Nat Unit).insert root.id ()) #[root] [] :=
    growing_start (live_of_gateFanins gate) nonzero (by omega)
  have first := before.expand coherent (show 0 < (#[root] : Array Node).size by simp) gate
    (by simpa using le_max_of_le_right (length_fresh_le_countP _ f))
  have erased : (#[root] : Array Node).eraseIdxIfInBounds 0 = #[] := by
    simp [Array.eraseIdxIfInBounds]
  rw [erased] at first
  obtain ⟨leaves, yields, v, E, growing, rootReplaced, ended⟩ :=
    grow_yields coherent (le_max_left _ _) (net.size + 2) _ _ _ first (by simp)
  have rootIn : root ∈ E := rootReplaced (List.mem_singleton_self _)
  obtain ⟨perm, sorted⟩ := mergeSort_ids (List.nodup_append.mp growing.nodup).1
  have member : ∀ l, l ∈ (leaves.toList.mergeSort fun a b => a.id ≤ b.id).toArray ↔ l ∈ leaves := by
    intro l
    rw [List.mem_toArray, perm.mem_iff, Array.mem_toList_iff]
  have size : (leaves.toList.mergeSort fun a b => a.id ≤ b.id).toArray.size = leaves.size := by
    rw [List.size_toArray, List.length_mergeSort, Array.length_toList]
  refine ⟨_, ?_, ⟨by simpa using sorted, fun l inCut => ?_, size ▸ growing.size, ?_⟩, ?_⟩
  · -- the run: the root's fresh fan-ins, the growth, and the sort
    unfold compute
    exact (Logged.yields_orFail (freshFanins_of_gateFanins gate)).bind
      (yields.bind (Logged.yields_pure _))
  · obtain ⟨live, nonzero, below⟩ := growing.leafOk l ((member l).mp inCut)
    refine ⟨live, nonzero, fun same => ?_, below⟩
    subst same
    exact List.disjoint_of_nodup_append growing.nodup (Array.mem_toList_iff.mpr ((member _).mp inCut))
      rootIn
  · -- the replaced nodes and the constant hold the root and no input, and every fan-in of a
    -- replaced node is one of them or a leaf
    refine separates_of_closed (K := fun g => g ∈ E ∨ g.id = 0) (.inl rootIn) ?_ ?_
    · rintro g (replaced | zero) input
      · obtain ⟨isGate, -⟩ := growing.replaced g replaced
        rw [coherent.gateFanins_input input] at isGate
        cases isGate
      · have constant : g = Node.constant := Node.eq_of_id_eq zero
        exact coherent.constant_not_input (constant ▸ input)
    · rintro g f' (replaced | zero) gate' s slot
      · rcases growing.closed g f' replaced gate' s slot with zero | visited
        · exact .inl (.inr zero)
        · rcases (growing.ids _).mp visited with ⟨l, leaf, same⟩ | ⟨e, replaced', same⟩
          · exact .inr ((member _).mpr (Node.eq_of_id_eq same ▸ leaf))
          · exact .inl (.inl (Node.eq_of_id_eq same ▸ replaced'))
      · rw [show g = Node.constant from Node.eq_of_id_eq zero, coherent.gateFanins_constant] at gate'
        cases gate'
  · rcases ended with inputs | overflow
    · exact .inl fun l inCut => inputs l ((member l).mp inCut)
    · exact .inr (size ▸ overflow)

theorem new_eq_ok {k : Nat} {lim : CutLimit} : CutLimit.new k = .ok lim ↔ 0 < k ∧ lim = ⟨k⟩ := by
  unfold CutLimit.new
  split
  · rename_i positive
    exact ⟨fun same => ⟨positive, (Except.ok.inj same).symm⟩, fun ⟨_, same⟩ => same ▸ rfl⟩
  · rename_i zero
    exact ⟨fun same => (nomatch same), fun ⟨positive, _⟩ => absurd positive zero⟩

/-- A cut computed with a limit of `k ≥ 1` leaves for a live gate of a coherent network is valid,
with at most `k` leaves or the root's fan-ins on other nodes than the constant, and its
simulation never finds an input outside it; over at most `maxVars` leaves the simulation gives
the root a table that composes with the network. -/
theorem compute_valid_cut (coherent : net.Coherent) {k : Nat} {lim : CutLimit}
    (made : CutLimit.new k = .ok lim) {f : Fanins} (gate : net.gateFanins root = some f) :
    ∃ cut, Logged.Yields (compute lim net root) cut ∧
      ValidCut net root (max k (f.toList.countP fun s => s.node.id ≠ 0)) cut ∧
      (∀ p, Simulation.simulateCut net cut root ≠ .error (.inputOutsideCut p)) ∧
      (cut.size ≤ TruthTable.maxVars → ∃ T values,
        Simulation.simulateCut net cut root = .ok (T, values) ∧
        ∀ x val, net.Consistent x val → val root = T.bit (leafCode cut val)) := by
  obtain ⟨positive, rfl⟩ := new_eq_ok.mp made
  obtain ⟨cut, yields, valid, -⟩ := compute_spec coherent positive gate
  have live := live_of_gateFanins gate
  refine ⟨cut, yields, valid, fun p failed => ?_, fun narrow => ?_⟩
  · by_cases narrow : cut.size ≤ TruthTable.maxVars
    · obtain ⟨q, input, path⟩ := ((coherent.simulateCut narrow live).1).mp ⟨p, failed⟩
      exact valid.separates q input path
    · rw [simulateCut_of_wide (Nat.lt_of_not_le narrow)] at failed
      cases failed
  · obtain ⟨T, values, run, -, law⟩ := (coherent.simulateCut narrow live).2 valid.separates
    exact ⟨T, values, run, law⟩


/-- The leaves of a valid cut are distinct, since their ids increase. -/
theorem ValidCut.nodup {bound : Nat} {cut : Array Node} (valid : ValidCut net root bound cut) :
    cut.toList.Nodup :=
  valid.increasing.imp fun lt same => by subst same; omega

/-- A valid cut has no more leaves than the network has nodes. -/
theorem ValidCut.size_le_size (coherent : net.Coherent) {bound : Nat} {cut : Array Node}
    (valid : ValidCut net root bound cut) : cut.size ≤ net.size := by
  rw [← Array.length_toList]
  exact length_le_of_ids_lt valid.nodup fun l member =>
    coherent.lt_size_of_live (valid.leaves l (Array.mem_toList_iff.mp member)).1

/-- Where the limit leaves room for two more leaves than the network has nodes, the growth cannot
stop for want of room, so the cut it ends with holds inputs only. -/
theorem ValidCut.inputs_of_ended (coherent : net.Coherent) {lim : CutLimit} {bound : Nat}
    {cut : Array Node} (valid : ValidCut net root bound cut) (small : net.size + 2 ≤ lim.maxLeaves)
    (ended : (∀ l ∈ cut, net.isPi l = .ok true) ∨ lim.maxLeaves < cut.size + 2) :
    ∀ l ∈ cut, l ∈ net.inputs := by
  rcases ended with inputs | overflow
  · exact fun l member => coherent.shaped.mem_inputs_of_isPi (inputs l member)
  · have := valid.size_le_size coherent
    omega

/-- A valid cut whose leaves are all inputs holds every input that the root reaches: a path to
an input outside the cut would meet no leaf. -/
theorem ValidCut.mem_of_reaches (coherent : net.Coherent) {bound : Nat} {cut : Array Node}
    (valid : ValidCut net root bound cut) (allInputs : ∀ l ∈ cut, l ∈ net.inputs) {p : Node}
    (input : p ∈ net.inputs) (path : net.Reaches root p) : p ∈ cut := by
  by_contra outside
  refine valid.separates p input (path.avoids (fun g f gate leaf => ?_) outside)
  rw [coherent.gateFanins_input (allInputs g leaf)] at gate
  cases gate

/-- The cut of `(a ∧ b) ∧ (a ∨ b)` within the standard limit is its two inputs: the growth
expands both gates below the top gate. -/
theorem andOr_cut :
    ∃ net cut, net.WellFormed ∧ net.gateFanins ⟨3⟩ = some ⟨⟨0⟩, ⟨2⟩, ⟨4⟩⟩ ∧
      net.gateFanins ⟨4⟩ = some ⟨⟨1⟩, ⟨2⟩, ⟨4⟩⟩ ∧ net.gateFanins ⟨5⟩ = some ⟨⟨0⟩, ⟨6⟩, ⟨8⟩⟩ ∧
      net.size = 6 ∧ Logged.Yields (compute standard net ⟨5⟩) cut ∧
      ValidCut net ⟨5⟩ (max 8 ((⟨⟨0⟩, ⟨6⟩, ⟨8⟩⟩ : Fanins).toList.countP fun s => s.node.id ≠ 0))
        cut ∧
      ∀ l, l ∈ cut ↔ l = ⟨1⟩ ∨ l = ⟨2⟩ := by
  obtain ⟨-, -, -, net, -, -, -, -, wf, gate₃, gate₄, gate₅, -, -, inputs, size, -, -⟩ :=
    andOr_network
  have coherent := wf.toCoherent
  obtain ⟨cut, yields, valid, ended⟩ :=
    compute_spec coherent (show 0 < standard.maxLeaves by decide) gate₅
  -- six nodes leave the limit of eight unreached, so the growth ends with inputs only
  have allInputs : ∀ l ∈ cut, l ∈ net.inputs :=
    valid.inputs_of_ended coherent (by rw [size]; decide) ended
  -- both inputs lie below `a ∧ b`, under the top gate
  have below : ∀ p ∈ net.inputs, net.Reaches ⟨5⟩ p := by
    intro p input
    rw [inputs] at input
    simp only [List.mem_toArray, List.mem_cons, List.not_mem_nil, or_false] at input
    rcases input with rfl | rfl
    · exact .fanin gate₅ (s := ⟨6⟩) (by simp [Fanins.toList])
        (.fanin gate₃ (s := ⟨2⟩) (by simp [Fanins.toList]) (.refl _))
    · exact .fanin gate₅ (s := ⟨6⟩) (by simp [Fanins.toList])
        (.fanin gate₃ (s := ⟨4⟩) (by simp [Fanins.toList]) (.refl _))
  have named : ∀ l, l ∈ net.inputs ↔ l = ⟨1⟩ ∨ l = ⟨2⟩ := fun l => by
    rw [inputs]
    simp
  refine ⟨net, cut, wf, gate₃, gate₄, gate₅, size, yields, valid, fun l => ⟨fun leaf =>
    (named l).mp (allInputs l leaf), fun input => ?_⟩⟩
  exact valid.mem_of_reaches coherent allInputs ((named l).mpr input) (below l ((named l).mpr input))

/-- The cut of `(a ∧ b) ∧ (a ∨ b)` within the standard limit: the growth expands both gates below
the top gate, and the cut is the two inputs, over which the top gate's table composes. -/
theorem compute_valid_cut_of_and_or :
    ∃ net : Network, net.Coherent ∧ net.gateFanins ⟨5⟩ = some ⟨⟨0⟩, ⟨6⟩, ⟨8⟩⟩ ∧
      CutLimit.new 8 = .ok standard ∧
      ∃ cut, Logged.Yields (compute standard net ⟨5⟩) cut ∧
        ValidCut net ⟨5⟩ (max 8 ((⟨⟨0⟩, ⟨6⟩, ⟨8⟩⟩ : Fanins).toList.countP fun s => s.node.id ≠ 0))
          cut ∧
        (∀ l, l ∈ cut ↔ l = ⟨1⟩ ∨ l = ⟨2⟩) ∧
        ∃ T values, Simulation.simulateCut net cut ⟨5⟩ = .ok (T, values) ∧
          ∀ x val, net.Consistent x val → val ⟨5⟩ = T.bit (leafCode cut val) := by
  obtain ⟨net, cut, wf, -, -, gate₅, size, yields, -, leaves⟩ := andOr_cut
  have made : CutLimit.new 8 = .ok standard := rfl
  obtain ⟨cut', yields', valid, -, composes⟩ := compute_valid_cut wf.toCoherent made gate₅
  obtain rfl := yields.unique yields'
  have narrow : cut.size ≤ TruthTable.maxVars := by
    have := valid.size_le_size wf.toCoherent
    rw [size] at this
    simp only [TruthTable.maxVars]
    omega
  exact ⟨net, wf.toCoherent, gate₅, made, cut, yields, valid, leaves, composes narrow⟩

/-- The bound on a cut is no bound for its simulation: in a well-formed chain of majorities over 25
inputs, the cut of the last gate with a limit of 64 leaves is all 25 inputs, and its simulation is
refused. -/
theorem compute_cut_exceeds_simulation :
    ∃ net : Network, net.WellFormed ∧ net.inputs.size = 25 ∧ ∃ root, (net.gateFanins root).isSome ∧
      CutLimit.new 64 = .ok ⟨64⟩ ∧ ∃ cut, Logged.Yields (compute ⟨64⟩ net root) cut ∧
        cut.size = 25 ∧ Simulation.simulateCut net cut root = .error (.tooManyVariables 25) := by
  obtain ⟨net, wf, inputs, size, -, root, isGate, reached⟩ := exists_chain 11 0 (by decide)
  obtain ⟨f, gate⟩ := Option.isSome_iff_exists.mp isGate
  obtain ⟨cut, yields, valid, ended⟩ := compute_spec wf.toCoherent (show 0 < (⟨64⟩ : CutLimit).maxLeaves by decide) gate
  -- with room for every node, the growth ends only when every leaf is an input
  have allInputs : ∀ l ∈ cut, l ∈ net.inputs :=
    valid.inputs_of_ended wf.toCoherent (show net.size + 2 ≤ 64 by omega) ended
  -- every input lies below the root, so the leaves, which separate them, are all of them
  have everyInput : ∀ p ∈ net.inputs, p ∈ cut := fun p input =>
    valid.mem_of_reaches wf.toCoherent allInputs input (reached p input)
  have exact : cut.size = 25 := by
    rw [show 25 = 2 * 11 + 3 from rfl, ← inputs, ← Array.length_toList, ← Array.length_toList]
    refine Nat.le_antisymm (valid.nodup.length_le_of_subset fun l member => ?_)
      (wf.inputsNodup.length_le_of_subset fun p member => ?_)
    · exact Array.mem_toList_iff.mpr (allInputs l (Array.mem_toList_iff.mp member))
    · exact Array.mem_toList_iff.mpr (everyInput p (Array.mem_toList_iff.mp member))
  refine ⟨net, wf, inputs, root, isGate, rfl, cut, yields, exact, ?_⟩
  rw [← exact]
  exact simulateCut_of_wide (by rw [exact]; decide) root

end CutLimit

end MajorityGraph
