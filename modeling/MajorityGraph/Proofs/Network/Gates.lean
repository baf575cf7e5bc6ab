import MajorityGraph.Proofs.Network.Semantics
import MajorityGraph.Proofs.Run

/-!
Adding gates: a new gate over normalized fan-ins comes last, linked, with one new use of each
fan-in node; a gate the table holds is returned as it is.
-/

namespace MajorityGraph

/-- One more use of a node, by the gate `p`. -/
def NodeRefs.withUse (p : Node) (r : NodeRefs) : NodeRefs :=
  { r with fanout := r.fanout + 1, parents := r.parents.push p }

@[simp] theorem NodeRefs.dead_withUse (p : Node) (r : NodeRefs) : (r.withUse p).dead = r.dead :=
  rfl

@[simp] theorem NodeRefs.fanout_withUse (p : Node) (r : NodeRefs)
    : (r.withUse p).fanout = r.fanout + 1 := rfl

@[simp] theorem NodeRefs.parents_withUse (p : Node) (r : NodeRefs)
    : (r.withUse p).parents = r.parents.push p := rfl

namespace Network

-----------------------------------------------------------------------------------------
-- Adding uses
-----------------------------------------------------------------------------------------

/-- A use of a node that the network has is recorded on that node alone, while its count is
below the counter's largest value. -/
theorem addReference_eq_ok_iff {net net' : Network} {child parent : Node}
    : net.addReference child parent = .ok net' ↔
        ∃ r, net.refsOf child = .ok r ∧ r.fanout < NodeRefs.maxFanout ∧
          net' = ⟨net.table, net.refs.modify child.id (NodeRefs.withUse parent), net.inputs,
            net.outputs, net.numGates⟩ :=
  addUse_eq_ok_iff

theorem addReference_eq_ok {net : Network} {child parent : Node} {r : NodeRefs}
    (found : net.refsOf child = .ok r) (room : r.fanout < NodeRefs.maxFanout)
    : net.addReference child parent =
        .ok ⟨net.table, net.refs.modify child.id (NodeRefs.withUse parent), net.inputs,
          net.outputs, net.numGates⟩ :=
  addUse_eq_ok found room

/-- Recording a use keeps every use count within its counter. -/
theorem FanoutFits.addReference {net net' : Network} (fits : net.FanoutFits) {child parent : Node}
    (added : net.addReference child parent = .ok net') : net'.FanoutFits := by
  obtain ⟨r, found, room, rfl⟩ := addReference_eq_ok_iff.mp added
  refine fits.modify rfl fun r₀ uses₀ => ?_
  rw [(refsOf_eq_ok.mp found).2] at uses₀
  cases uses₀
  exact room

/-- Room for one more use of a node: the network has it, and its count is below the largest. -/
def UseRoom (net : Network) (n : Node) : Prop :=
  ∃ r, net.refsOf n = .ok r ∧ r.fanout < NodeRefs.maxFanout

/-- Recording the uses of signals on distinct nodes of the network, each with room for one more
use, adds one use to each of these nodes and changes nothing else. -/
theorem foldlM_addReference (p : Node) : ∀ (l : List Signal) (net : Network),
    (l.map Signal.node).Nodup → (∀ s ∈ l, net.UseRoom s.node) →
    ∃ net', l.foldlM (fun net s => net.addReference s.node p) net = .ok net' ∧
      net'.table = net.table ∧ net'.inputs = net.inputs ∧ net'.outputs = net.outputs ∧
      net'.numGates = net.numGates ∧ net'.refs.size = net.refs.size ∧
      ∀ n, net'.refs[n.id]? = (net.refs[n.id]?).map fun r =>
        if n ∈ l.map Signal.node then r.withUse p else r
  | [], net, _, _ => ⟨net, rfl, rfl, rfl, rfl, rfl, rfl, fun n => by simp⟩
  | s :: rest, net, distinct, present => by
      obtain ⟨notLater, restDistinct⟩ := List.nodup_cons.mp distinct
      obtain ⟨r, found, room⟩ := present s (by simp)
      let step : Network := ⟨net.table, net.refs.modify s.node.id (NodeRefs.withUse p),
        net.inputs, net.outputs, net.numGates⟩
      -- the other nodes keep their uses after the first use is recorded
      have stillPresent : ∀ t ∈ rest, step.UseRoom t.node := by
        intro t member
        obtain ⟨r', found', room'⟩ := present t (by simp [member])
        obtain ⟨lt, uses⟩ := refsOf_eq_ok.mp found'
        refine ⟨r', refsOf_eq_ok.mpr ⟨lt, ?_⟩, room'⟩
        have other : s.node.id ≠ t.node.id := fun same =>
          notLater (List.mem_map.mpr ⟨t, member, show t.node = s.node from congrArg Node.mk same.symm⟩)
        simp [step, Array.getElem?_modify, other, uses]
      obtain ⟨net', run, table, inputs, outputs, numGates, size, refs⟩ :=
        foldlM_addReference p rest step restDistinct stillPresent
      refine ⟨net', ?_, table, inputs, outputs, numGates, by rw [size]; simp [step], fun n => ?_⟩
      · simp only [List.foldlM_cons, addReference_eq_ok found room, bind, Except.bind]
        exact run
      · rw [refs n]
        simp only [step, Array.getElem?_modify]
        by_cases here : s.node = n
        · subst here
          have absent : s.node ∉ rest.map Signal.node := notLater
          cases net.refs[s.node.id]? <;> simp [absent]
        · have other : s.node.id ≠ n.id := fun same => here (congrArg Node.mk same)
          cases net.refs[n.id]? <;> simp [other, Ne.symm here]

/-- Recording the uses of signals on distinct nodes succeeds only where each node had room for
one more use. -/
theorem useRoom_of_foldlM_addReference (p : Node) : ∀ (l : List Signal) (net net' : Network),
    (l.map Signal.node).Nodup → l.foldlM (fun net s => net.addReference s.node p) net = .ok net' →
    ∀ s ∈ l, net.UseRoom s.node
  | [], _, _, _, _ => by simp
  | s :: rest, net, net', distinct, run => by
      obtain ⟨notLater, restDistinct⟩ := List.nodup_cons.mp distinct
      simp only [List.foldlM_cons, bind, Except.bind] at run
      split at run
      · cases run
      · rename_i net₁ added
        obtain ⟨r, found, room, rfl⟩ := addReference_eq_ok_iff.mp added
        have later := useRoom_of_foldlM_addReference p rest _ net' restDistinct run
        intro t member
        rcases List.mem_cons.mp member with rfl | member
        · exact ⟨r, found, room⟩
        · -- a later node is another node, whose uses the first record left
          obtain ⟨r', found', room'⟩ := later t member
          obtain ⟨lt, uses⟩ := refsOf_eq_ok.mp found'
          have other : t.node.id ≠ s.node.id := fun same =>
            notLater (List.mem_map.mpr ⟨t, member, congrArg Node.mk same⟩)
          simp only [Array.getElem?_modify, Ne.symm other, if_false] at uses
          exact ⟨r', refsOf_eq_ok.mpr ⟨lt, uses⟩, room'⟩

-----------------------------------------------------------------------------------------
-- Adding a gate over normalized fan-ins
-----------------------------------------------------------------------------------------

/-- A gate that the unique table links is returned, and nothing changes, when its index fits a
node id. -/
theorem addGate_of_find_some {net : Network} {f : Fanins} {i : Nat}
    (found : net.table.find (NodeData.majority f) = some i) (fits : i ≤ Node.maxId)
    : net.addGate f = .ok ((⟨i⟩, false), net) := by
  simp [addGate, UniqueTable.put, found, Node.ofIndex, fits, bind, Except.bind, pure, Except.pure]

/-- A gate that the unique table links is returned only when its index fits a node id. -/
theorem fits_of_addGate_of_find_some {net net' : Network} {f : Fanins} {i : Nat} {p : Node}
    {created : Bool} (found : net.table.find (NodeData.majority f) = some i)
    (added : net.addGate f = .ok ((p, created), net')) : i ≤ Node.maxId := by
  refine Decidable.byContradiction fun beyond => ?_
  simp [addGate, UniqueTable.put, found, Node.ofIndex, beyond, bind, Except.bind] at added

/-- Adding a gate whose record the unique table puts in a new cell: the cell's index must fit a
node id, and each fan-in node then gains one use by the new gate. -/
theorem addGate_of_put {net : Network} {f : Fanins} {t' : UniqueTable NodeData}
    (put : net.table.put (NodeData.majority f) = .ok ((net.size, true), t')) :
    net.addGate f = (do
      let node ← Node.ofIndex net.size
      let net' ← f.toList.foldlM (fun net s => net.addReference s.node node)
        (⟨t', net.refs.push ⟨0, #[], false⟩, net.inputs, net.outputs, net.numGates + 1⟩ : Network)
      pure ((node, true), net')) := by
  unfold addGate
  simp only [put, bind_pure_comp, List.forIn_yield_eq_foldlM, id_map']
  simp [bind, Except.bind, Functor.map, Except.map]

/-- Putting a value that no linked cell holds into a sound network's table makes a new cell
for it. -/
theorem Sound.put_of_find_none {net : Network} (sound : net.Sound) {v : NodeData}
    (missing : net.table.find v = none)
    : ∃ t', net.table.put v = .ok ((net.size, true), t') ∧ t'.Indexed ∧
        t'.cells.size = net.size + 1 ∧
        (∀ i, t'.valueAt i = if i = net.size then some v else net.table.valueAt i) ∧
        ∀ i, t'.linkedAt i = if i = net.size then true else net.table.linkedAt i := by
  have nonempty : net.table.cells.size ≠ 0 := Nat.ne_of_gt sound.size_pos
  obtain ⟨⟨⟨i, created⟩, t'⟩, put⟩ := UniqueTable.put_isOk v nonempty
  obtain ⟨indexed, value, linked, outcome⟩ := sound.indexed.put put
  cases created with
  | false =>
      -- a cell that was there already would have been found
      subst outcome
      obtain ⟨c, cell, _⟩ := UniqueTable.linkedAt_eq_true.mp linked
      have holds : c.value = v := by
        simp only [UniqueTable.valueAt, cell, Option.map_some, Option.some.injEq] at value
        exact value
      exact absurd holds (sound.indexed.find_eq_none missing cell (by simpa [UniqueTable.linkedAt, cell]
        using linked))
  | true =>
      obtain ⟨-, rfl, size, others⟩ := outcome
      refine ⟨t', put, indexed, size, fun j => ?_, fun j => ?_⟩
      · split
        · rename_i here
          rw [here]
          exact value
        · rename_i other
          exact (others j other).1
      · split
        · rename_i here
          rw [here]
          exact linked
        · rename_i other
          exact (others j other).2

-----------------------------------------------------------------------------------------
-- The network after a new gate
-----------------------------------------------------------------------------------------

section NewGate

variable {net net' : Network} {f : Fanins}

/-- What adding a new last gate over `f` does to the records and the uses. -/
structure AddsGate (net net' : Network) (f : Fanins) : Prop where
  indexed : net'.table.Indexed
  size : net'.table.cells.size = net.size + 1
  values : ∀ i, net'.table.valueAt i =
    if i = net.size then some (NodeData.majority f) else net.table.valueAt i
  links : ∀ i, net'.table.linkedAt i = if i = net.size then true else net.table.linkedAt i
  refs : ∀ n, net'.refs[n.id]? = if n.id = net.size then some ⟨0, #[], false⟩ else
    (net.refs[n.id]?).map fun r => if n ∈ f.toList.map Signal.node then r.withUse ⟨net.size⟩ else r
  refsSize : net'.refs.size = net.refs.size + 1
  inputs : net'.inputs = net.inputs
  outputs : net'.outputs = net.outputs
  numGates : net'.numGates = net.numGates + 1
  /-- The new index fits a node id, and each fan-in node had room for one more use. -/
  fits : net.size ≤ Node.maxId
  useRoom : ∀ s ∈ f.toList, ∀ r, net.refs[s.node.id]? = some r → r.fanout < NodeRefs.maxFanout

theorem AddsGate.gateFanins (adds : AddsGate net net' f) (n : Node)
    : net'.gateFanins n = if n.id = net.size then some f else net.gateFanins n := by
  rw [gateFanins_eq, gateFanins_eq, adds.values, adds.refs]
  by_cases here : n.id = net.size
  · simp [here, NodeData.majority, NodeData.isGate]
  · simp only [here, if_false]
    cases net.table.valueAt n.id <;> cases net.refs[n.id]? <;> try rfl
    simp only [Option.map_some]
    split <;> rfl

theorem AddsGate.live (adds : AddsGate net net' f) (n : Node)
    : net'.Live n ↔ net.Live n ∨ n.id = net.size := by
  simp only [Live, adds.refs]
  by_cases here : n.id = net.size
  · simp [here]
  · simp only [here, if_false, or_false]
    cases net.refs[n.id]? <;> simp
    split <;> simp

/-- A network with a new last gate grows from the old one. -/
theorem AddsGate.grows (adds : AddsGate net net' f) : Grows net net' where
  size := by
    show net.table.cells.size ≤ net'.table.cells.size
    rw [adds.size]
    exact Nat.le_succ _
  gates n lt := by rw [adds.gateFanins, if_neg (Nat.ne_of_lt lt)]
  live n alive := (adds.live n).mpr (.inl alive)
  inputs := adds.inputs
  outputs := adds.outputs
  values i lt := by rw [adds.values, if_neg (Nat.ne_of_lt lt)]

/-- A consistent valuation extends to a network with a new last gate over old nodes, by giving
the new node the majority of its fan-ins. -/
theorem AddsGate.consistent (sound : net.Sound) (adds : AddsGate net net' f)
    (below : ∀ s ∈ f.toList, s.node.id < net.size) {x : Nat → Bool} {val val' : Node → Bool}
    (consistent : net.Consistent x val) (newValue : val' ⟨net.size⟩ = f.eval val)
    (agree : ∀ n : Node, n.id < net.size → val' n = val n)
    : net'.Consistent x val' := by
  refine ⟨?_, fun i n input => ?_, fun g f' gate => ?_⟩
  · rw [agree ⟨0⟩ sound.size_pos]
    exact consistent.constant
  · rw [adds.inputs] at input
    rw [agree n (sound.inputsBelow n (Array.mem_of_getElem? input))]
    exact consistent.inputs i n input
  · rw [adds.gateFanins] at gate
    split at gate
    · rename_i here
      cases gate
      have same : g = ⟨net.size⟩ := congrArg Node.mk here
      rw [same, newValue, Fanins.eval_congr agree below]
    · rw [agree g (lt_size_of_gateFanins gate), Fanins.eval_congr agree (sound.faninsBelow g f' gate)]
      exact consistent.gates g f' gate

/-- A network with a new last gate over old nodes stays sound. -/
theorem AddsGate.sound (sound : net.Sound) (adds : AddsGate net net' f)
    (below : ∀ s ∈ f.toList, s.node.id < net.size) : net'.Sound := by
  have size' : net'.size = net.size + 1 := adds.size
  refine {
    sizes := by rw [adds.refsSize, adds.size, sound.sizes]; rfl
    constant := by rw [adds.values, if_neg (Nat.ne_of_lt sound.size_pos)]; exact sound.constant
    indexed := adds.indexed
    linkedGate := fun i linked => ?_
    inputsBelow := fun n member => ?_
    outputsBelow := fun s member => ?_
    faninsBelow := fun g f' gate s member => ?_
    parentsGates := fun n r g uses member => ?_ }
  · rw [adds.links] at linked
    rw [adds.gateFanins]
    by_cases here : i = net.size
    · simp [here]
    · simp only [here, if_false] at linked ⊢
      exact sound.linkedGate i linked
  · rw [adds.inputs] at member
    have := sound.inputsBelow n member
    omega
  · rw [adds.outputs] at member
    have := sound.outputsBelow s member
    omega
  · rw [adds.gateFanins] at gate
    split at gate
    · cases gate
      have := below s member
      omega
    · have := sound.faninsBelow g f' gate s member
      omega
  · -- the only new parent is the new gate
    rw [adds.values]
    rw [adds.refs] at uses
    split at uses
    · cases uses
      simp at member
    · obtain ⟨r₀, uses₀, rfl⟩ := Option.map_eq_some_iff.mp uses
      by_cases isNew : g.id = net.size
      · rw [if_pos isNew]
        exact ⟨_, rfl, rfl⟩
      · rw [if_neg isNew]
        have old : g ∈ r₀.parents := by
          split at member
          · simp only [NodeRefs.parents_withUse, Array.mem_push] at member
            rcases member with member | rfl
            · exact member
            · exact absurd rfl isNew
          · exact member
        exact sound.parentsGates n r₀ g uses₀ old

/-- A new gate takes one node of the room and one use of each of its fan-in nodes. -/
theorem AddsGate.room (adds : AddsGate net net' f) {k : Nat} (room : net.Room (k + 1)) :
    net'.Room k := by
  have size' : net'.size = net.size + 1 := adds.size
  refine ⟨by have := room.1; omega, fun n r uses => ?_⟩
  rw [adds.refs] at uses
  split at uses
  · cases uses
    have := room.1
    show 0 + k ≤ _
    exact Nat.le_trans (by omega) maxId_le_maxFanout
  · obtain ⟨r₀, uses₀, rfl⟩ := Option.map_eq_some_iff.mp uses
    have := room.2 n r₀ uses₀
    split
    · rw [NodeRefs.fanout_withUse]
      omega
    · omega

/-- A ranking extends to a new last gate over old nodes by ranking it above its fan-ins. -/
theorem AddsGate.ranked (sound : net.Sound) (adds : AddsGate net net' f)
    (below : ∀ s ∈ f.toList, s.node.id < net.size) {rank : Node → Nat} (ranked : net.Ranked rank)
    : net'.Ranked fun n => if n.id = net.size then
        rank f.a.node + rank f.b.node + rank f.c.node + 1 else rank n := by
  intro g f' gate s member
  rw [adds.gateFanins] at gate
  split at gate
  · rename_i here
    cases gate
    dsimp only
    rw [if_neg (Nat.ne_of_lt (below s member)), if_pos here]
    simp only [Fanins.toList, List.mem_cons, List.not_mem_nil, or_false] at member
    rcases member with rfl | rfl | rfl <;> omega
  · rename_i old
    dsimp only
    rw [if_neg (Nat.ne_of_lt (sound.faninsBelow g f' gate s member)), if_neg old]
    exact ranked g f' gate s member

/-- A table look-up that finds no record misses every linked live gate over those fan-ins. -/
theorem Coherent.unlinked_of_find_none (coherent : net.Coherent)
    (missing : net.table.find (NodeData.majority f) = none) {g : Node}
    (gate : net.gateFanins g = some f) : net.table.linkedAt g.id = false := by
  obtain ⟨c, r, cell, _, value, _⟩ := gateFanins_eq_some.mp gate
  cases linked : net.table.linkedAt g.id with
  | false => rfl
  | true =>
      have on : c.linked = true := by simpa [UniqueTable.linkedAt, cell] using linked
      exact absurd value (coherent.indexed.find_eq_none missing cell on)

/-- Adding a new last gate over normalized fan-ins on live nodes, which no linked gate has,
keeps a network coherent. -/
theorem Coherent.addsGate (wf : net.Coherent) (adds : AddsGate net net' f)
    (normal : f.normalize = .gate f false) (live : ∀ s ∈ f.toList, net.Live s.node)
    (missing : net.table.find (NodeData.majority f) = none) : net'.Coherent := by
  have gates := adds.gateFanins
  have distinctNodes := Fanins.nodes_nodup_of_normalize normal
  have size' : net'.size = net.size + 1 := adds.size
  have refsSize : net.refs.size = net.size := wf.sizes
  have below : ∀ s ∈ f.toList, s.node.id < net.size := fun s member =>
    wf.lt_size_of_live (live s member)
  have notNew : ∀ s ∈ f.toList, s.node.id ≠ net.size := fun s member =>
    Nat.ne_of_lt (below s member)
  have hasConstant : 0 < net.size := wf.sound.size_pos
  -- the slots of the new gate on a node are its fan-ins on that node; old gates keep theirs
  have slots' : ∀ g n, net'.slots g n = if g.id = net.size then
      (if n ∈ f.toList.map Signal.node then 1 else 0) else net.slots g n := by
    intro g n
    by_cases here : g.id = net.size
    · simp only [slots, gates, here, if_true, Fanins.countP_node_of_nodup distinctNodes]
    · simp only [slots, gates, here, if_false]
  have outputUses' : ∀ n, net'.outputUses n = net.outputUses n := fun n => by
    simp only [outputUses, adds.outputs]
  refine {
    sizes := by rw [adds.refsSize, adds.size, refsSize]
    fits := by rw [size']; exact Nat.succ_le_succ adds.fits
    constant := by rw [adds.values, if_neg (Nat.ne_of_lt hasConstant)]; exact wf.constant
    onlyConstant := fun i d value kind => ?_
    inputsNodup := by rw [adds.inputs]; exact wf.inputsNodup
    inputs := fun n => ?_
    inputRecord := fun i d value kind => ?_
    fanout := fun n r uses => ?_
    fanoutFits := fun n r uses => ?_
    parents := fun n r g uses => ?_
    outputsLive := fun s member => (adds.live s.node).mpr
      (.inl (wf.outputsLive s (by rw [← adds.outputs]; exact member)))
    faninsLive := fun g f' gate s member => ?_
    linkedGate := fun i linked => ?_
    normal := fun g f' gate linked => ?_
    distinct := fun g h f' gate other linkedG linkedH => ?_
    indexed := adds.indexed
    numGates := ?_
    acyclic := ?_ }
  · rw [adds.values] at value
    split at value
    · cases value
      cases kind
    · exact wf.onlyConstant i d value kind
  · rw [adds.inputs, adds.values]
    split
    · rename_i here
      -- an input is an old node
      simp only [NodeData.majority, NodeData.input, Option.some.injEq, NodeData.mk.injEq,
        reduceCtorEq, false_and, iff_false]
      intro member
      have := (wf.inputs n).mp member
      simp only [UniqueTable.valueAt, Option.map_eq_some_iff] at this
      obtain ⟨c, cell, _⟩ := this
      have := (Array.getElem?_eq_some_iff.mp cell).1
      simp only [Network.size, UniqueTable.size] at here
      omega
    · exact wf.inputs n
  · rw [adds.values] at value
    split at value
    · cases value
      cases kind
    · exact wf.inputRecord i d value kind
  · rw [adds.refs] at uses
    rw [outputUses']
    split at uses
    · rename_i here
      cases uses
      simp [wf.outputUses_eq_zero (Nat.le_of_eq here.symm)]
    · obtain ⟨r₀, uses₀, rfl⟩ := Option.map_eq_some_iff.mp uses
      have counted := wf.fanout n r₀ uses₀
      split <;> simp [counted]
      omega
  · rw [adds.refs] at uses
    split at uses
    · cases uses
      exact Nat.zero_le _
    · obtain ⟨r₀, uses₀, rfl⟩ := Option.map_eq_some_iff.mp uses
      split
      · rename_i member
        obtain ⟨s, sMember, rfl⟩ := List.mem_map.mp member
        exact adds.useRoom s sMember r₀ uses₀
      · exact wf.fanoutFits n r₀ uses₀
  · rw [slots']
    rw [adds.refs] at uses
    split at uses
    · rename_i here
      cases uses
      -- nothing uses the new node yet
      have absent : n ∉ f.toList.map Signal.node := fun member => by
        obtain ⟨s, sMember, same⟩ := List.mem_map.mp member
        exact notNew s sMember (by rw [same]; exact here)
      by_cases isNew : g.id = net.size
      · simp [isNew, absent]
      · simp [isNew, wf.slots_eq_zero g (Nat.le_of_eq here.symm)]
    · obtain ⟨r₀, uses₀, rfl⟩ := Option.map_eq_some_iff.mp uses
      have counted := wf.parents n r₀ g uses₀
      -- the new gate was no parent of anything
      have newCount : r₀.parents.count ⟨net.size⟩ = 0 := by
        rw [wf.parents n r₀ _ uses₀, slots, @gateFanins_eq_none net ⟨net.size⟩ (Nat.le_refl _)]
      by_cases isNew : g.id = net.size
      · have same : g = ⟨net.size⟩ := congrArg Node.mk isNew
        subst same
        split <;> simp [newCount]
      · have other : g ≠ ⟨net.size⟩ := fun same => isNew (by rw [same])
        simp only [isNew, if_false]
        split <;> simp [Array.count_push_of_ne (Ne.symm other), counted]
  · rw [gates] at gate
    rw [adds.live]
    split at gate
    · cases gate
      exact .inl (live s member)
    · exact .inl (wf.faninsLive g f' gate s member)
  · rw [adds.links] at linked
    rw [gates]
    by_cases here : i = net.size
    · simp [here]
    · simp only [here, if_false] at linked ⊢
      exact wf.linkedGate i linked
  · rw [gates] at gate
    rw [adds.links] at linked
    split at gate
    · cases gate
      exact normal
    · rename_i old
      rw [if_neg old] at linked
      exact wf.normal g f' gate linked
  · rw [gates] at gate other
    rw [adds.links] at linkedG linkedH
    split at gate <;> split at other
    · rename_i newG newH
      exact congrArg Node.mk (newG.trans newH.symm)
    · rename_i oldH
      cases gate
      rw [if_neg oldH, wf.unlinked_of_find_none missing other] at linkedH
      cases linkedH
    · rename_i oldG _
      cases other
      rw [if_neg oldG, wf.unlinked_of_find_none missing gate] at linkedG
      cases linkedG
    · rename_i oldG oldH
      rw [if_neg oldG] at linkedG
      rw [if_neg oldH] at linkedH
      exact wf.distinct g h f' gate other linkedG linkedH
  · rw [adds.numGates, wf.numGates, liveGateCount_extend size' (fun i lt => by
      rw [gates, if_neg (Nat.ne_of_lt lt)]), gates, if_pos rfl]
    rfl
  · -- the new gate ranks above its fan-ins, which are old nodes
    obtain ⟨rank, ranked⟩ := wf.acyclic
    exact ⟨_, adds.ranked wf.sound below ranked⟩

/-- Adding a new last gate over normalized fan-ins on live nodes, which no live gate has yet,
keeps a network well formed. -/
theorem WellFormed.addsGate (wf : net.WellFormed) (adds : AddsGate net net' f)
    (normal : f.normalize = .gate f false) (live : ∀ s ∈ f.toList, net.Live s.node)
    (missing : net.table.find (NodeData.majority f) = none) : net'.WellFormed := by
  refine ⟨wf.toCoherent.addsGate adds normal live missing, fun g f' gate => ?_⟩
  rw [adds.gateFanins] at gate
  rw [adds.links]
  split at gate
  · rename_i here
    rw [if_pos here]
  · rename_i old
    rw [if_neg old]
    exact wf.allLinked g f' gate

end NewGate

/-- A gate that the unique table does not link is added as the last node, when its index fits
a node id and each fan-in node has room for one more use: its record is linked, its uses start
empty, and each of its fan-in nodes gains one use by it. -/
theorem Sound.addGate_of_find_none {net : Network} (sound : net.Sound) {f : Fanins}
    (missing : net.table.find (NodeData.majority f) = none)
    (distinct : (f.toList.map Signal.node).Nodup) (below : ∀ s ∈ f.toList, s.node.id < net.size)
    (room : net.size ≤ Node.maxId)
    (useRoom : ∀ s ∈ f.toList, ∀ r, net.refs[s.node.id]? = some r → r.fanout < NodeRefs.maxFanout)
    : ∃ net', net.addGate f = .ok ((⟨net.size⟩, true), net') ∧ AddsGate net net' f := by
  obtain ⟨t', put, indexed, size, values, links⟩ := sound.put_of_find_none missing
  let start : Network := ⟨t', net.refs.push ⟨0, #[], false⟩, net.inputs, net.outputs,
    net.numGates + 1⟩
  have refsSize : net.refs.size = net.size := sound.sizes
  -- the fan-in nodes are old nodes, so their uses can be read in the grown network
  have present : ∀ s ∈ f.toList, start.UseRoom s.node := by
    intro s member
    have lt := below s member
    obtain ⟨r, uses⟩ : ∃ r, net.refs[s.node.id]? = some r :=
      Option.isSome_iff_exists.mp (by simp [refsSize, lt])
    refine ⟨r, refsOf_eq_ok.mpr ⟨?_, ?_⟩, useRoom s member r uses⟩
    · simp only [start, Network.size, UniqueTable.size, size]
      simp only [Network.size, UniqueTable.size] at lt
      omega
    · simp [start, Array.getElem?_push, uses, refsSize, Nat.ne_of_lt lt]
  obtain ⟨net', run, table, inputs, outputs, numGates, refsSize', refs⟩ :=
    foldlM_addReference ⟨net.size⟩ f.toList start distinct present
  have sameTable : net'.table = t' := table
  refine ⟨net', ?_, sameTable ▸ indexed, sameTable ▸ size, sameTable ▸ values, sameTable ▸ links,
    fun n => ?_, by rw [refsSize']; simp [start], inputs, outputs, numGates, room, useRoom⟩
  · have run' : List.foldlM (fun (b : Network) (a : Signal) => b.addReference a.node ⟨net.size⟩)
        (⟨t', net.refs.push ⟨0, #[], false⟩, net.inputs, net.outputs, net.numGates + 1⟩ : Network)
        f.toList = Except.ok net' := run
    rw [addGate_of_put put]
    simp [Node.ofIndex, room, bind, Except.bind, run', pure, Except.pure]
  · rw [refs n]
    by_cases here : n.id = net.size
    · -- the new node is no fan-in of the new gate
      have absent : n ∉ f.toList.map Signal.node := by
        intro member
        obtain ⟨s, sMember, same⟩ := List.mem_map.mp member
        have := below s sMember
        rw [same, here] at this
        exact Nat.lt_irrefl _ this
      have last : n.id = net.refs.size := by rw [refsSize]; exact here
      rw [if_pos here]
      simp only [start]
      rw [last, Array.getElem?_push_size]
      simp [absent]
    · simp [start, Array.getElem?_push, refsSize, here]

/-- A gate that the unique table does not link is added only when its index fits a node id and
each fan-in node has room for one more use. -/
theorem Sound.room_of_addGate {net net' : Network} (sound : net.Sound) {f : Fanins} {p : Node}
    {created : Bool} (missing : net.table.find (NodeData.majority f) = none)
    (distinct : (f.toList.map Signal.node).Nodup) (below : ∀ s ∈ f.toList, s.node.id < net.size)
    (added : net.addGate f = .ok ((p, created), net'))
    : net.size ≤ Node.maxId ∧
        ∀ s ∈ f.toList, ∀ r, net.refs[s.node.id]? = some r → r.fanout < NodeRefs.maxFanout := by
  obtain ⟨t', put, -⟩ := sound.put_of_find_none missing
  rw [addGate_of_put put] at added
  cases ofIndex : Node.ofIndex net.size with
  | error e => simp [ofIndex, bind, Except.bind] at added
  | ok node =>
      have room : net.size ≤ Node.maxId := by
        unfold Node.ofIndex at ofIndex
        split at ofIndex
        · assumption
        · cases ofIndex
      simp only [ofIndex, bind, Except.bind] at added
      split at added
      · cases added
      · rename_i net₁ fold
        refine ⟨room, fun s member r uses => ?_⟩
        obtain ⟨r', found, fits⟩ :=
          useRoom_of_foldlM_addReference node f.toList _ net₁ distinct fold s member
        obtain ⟨-, uses'⟩ := refsOf_eq_ok.mp found
        have lt : s.node.id < net.refs.size := by rw [sound.sizes]; exact below s member
        rw [Array.getElem?_push, if_neg (Nat.ne_of_lt lt), uses] at uses'
        cases uses'
        exact fits

/-- The cell that the unique table of a sound network finds for a gate record is a live gate
over these fan-ins. -/
theorem Sound.gateFanins_of_find {net : Network} (sound : net.Sound) {f : Fanins} {i : Nat}
    (found : net.table.find (NodeData.majority f) = some i) : net.gateFanins ⟨i⟩ = some f := by
  obtain ⟨c, cell, on, value⟩ := sound.indexed.find_eq_some found
  have linked : net.table.linkedAt i = true := by simp [UniqueTable.linkedAt, cell, on]
  obtain ⟨f', gate⟩ := Option.isSome_iff_exists.mp (sound.linkedGate i linked)
  obtain ⟨c', r, cell', _, value', _⟩ := gateFanins_eq_some.mp gate
  rw [cell] at cell'
  cases cell'
  rw [value] at value'
  cases value'
  exact gate

/-- The gate that the unique table of a coherent network links is returned as it is: its
index fits a node id, as every index of the network does. -/
theorem Coherent.addGate_of_find_some {net : Network} (coherent : net.Coherent) {f : Fanins}
    {i : Nat} (found : net.table.find (NodeData.majority f) = some i)
    : net.addGate f = .ok ((⟨i⟩, false), net) := by
  have below : i < net.size := lt_size_of_gateFanins (coherent.sound.gateFanins_of_find found)
  have fits := coherent.fits
  exact Network.addGate_of_find_some found (by omega)

/-- Adding a gate over fan-ins on distinct old nodes returns a live gate over them: the one the
table links, with nothing changed, or a new last node. -/
theorem Sound.addGate {net net' : Network} (sound : net.Sound) {f : Fanins} {p : Node}
    {created : Bool} (distinct : (f.toList.map Signal.node).Nodup)
    (below : ∀ s ∈ f.toList, s.node.id < net.size)
    (added : net.addGate f = .ok ((p, created), net'))
    : net'.gateFanins p = some f ∧
        (if created then net.table.find (NodeData.majority f) = none ∧ p = ⟨net.size⟩ ∧
          AddsGate net net' f
        else net' = net) := by
  cases look : net.table.find (NodeData.majority f) with
  | some i =>
      rw [addGate_of_find_some look (fits_of_addGate_of_find_some look added)] at added
      cases added
      exact ⟨sound.gateFanins_of_find look, rfl⟩
  | none =>
      obtain ⟨room, useRoom⟩ := sound.room_of_addGate look distinct below added
      obtain ⟨net'', run, adds⟩ := sound.addGate_of_find_none look distinct below room useRoom
      rw [run] at added
      cases added
      refine ⟨?_, rfl, rfl, adds⟩
      rw [adds.gateFanins, if_pos rfl]

/-- Adding a gate over normalized fan-ins on live nodes keeps a well-formed network well formed.
The returned node is a live gate over these fan-ins: the one the table links, or a new last
node. -/
theorem WellFormed.addGate {net net' : Network} (wf : net.WellFormed) {f : Fanins} {p : Node}
    {created : Bool} (normal : f.normalize = .gate f false) (live : ∀ s ∈ f.toList, net.Live s.node)
    (added : net.addGate f = .ok ((p, created), net'))
    : net'.WellFormed ∧ net'.gateFanins p = some f ∧
        (if created then p = ⟨net.size⟩ ∧ AddsGate net net' f else net' = net) := by
  obtain ⟨gate, outcome⟩ := wf.sound.addGate (Fanins.nodes_nodup_of_normalize normal)
    (fun s member => wf.lt_size_of_live (live s member)) added
  cases created with
  | false =>
      rw [if_neg Bool.false_ne_true] at outcome
      subst outcome
      exact ⟨wf, gate, rfl⟩
  | true =>
      obtain ⟨missing, new, adds⟩ := outcome
      exact ⟨wf.addsGate adds normal live missing, gate, new, adds⟩

/-- Adding a gate over normalized fan-ins on live nodes keeps a coherent network coherent. The
returned node is a linked live gate over these fan-ins: the one the table links, or a new last
node. -/
theorem Coherent.addGate {net net' : Network} (coherent : net.Coherent) {f : Fanins} {p : Node}
    {created : Bool} (normal : f.normalize = .gate f false) (live : ∀ s ∈ f.toList, net.Live s.node)
    (added : net.addGate f = .ok ((p, created), net'))
    : net'.Coherent ∧ net'.gateFanins p = some f ∧ net'.table.linkedAt p.id = true ∧
        (if created then p = ⟨net.size⟩ ∧ AddsGate net net' f else net' = net) := by
  have distinct := Fanins.nodes_nodup_of_normalize normal
  have below : ∀ s ∈ f.toList, s.node.id < net.size := fun s member =>
    coherent.lt_size_of_live (live s member)
  cases look : net.table.find (NodeData.majority f) with
  | some i =>
      rw [coherent.addGate_of_find_some look] at added
      cases added
      obtain ⟨c, cell, on, _⟩ := coherent.indexed.find_eq_some look
      exact ⟨coherent, coherent.sound.gateFanins_of_find look,
        by simp [UniqueTable.linkedAt, cell, on], by simp⟩
  | none =>
      obtain ⟨room, useRoom⟩ := coherent.sound.room_of_addGate look distinct below added
      obtain ⟨net'', run, adds⟩ := coherent.sound.addGate_of_find_none look distinct below room
        useRoom
      rw [run] at added
      cases added
      exact ⟨coherent.addsGate adds normal live look, by rw [adds.gateFanins, if_pos rfl],
        by rw [adds.links, if_pos rfl], by simp [adds]⟩

-----------------------------------------------------------------------------------------
-- Majority gates
-----------------------------------------------------------------------------------------

section CreateMaj

open NetM

variable {net net' : Network} {a b c s : Signal}

/-- What a run of `createMaj` does: a trivial majority returns one of the three signals and
leaves the network; otherwise the gate over the normalized fan-ins is found or added, and
returned with the polarity of the normal form. -/
theorem createMaj_cases (run : Returns (createMaj a b c) net s net')
    : (Fanins.normalize ⟨a, b, c⟩ = .trivial s ∧ net' = net) ∨
      ∃ f compl p created, Fanins.normalize ⟨a, b, c⟩ = .gate f compl ∧
        net.addGate f = .ok ((p, created), net') ∧ s = Signal.make p compl := by
  unfold createMaj at run
  split at run
  · rename_i s' trivial
    obtain ⟨u, net₁, logged, rest⟩ := run.bind
    rw [returns_log] at logged
    obtain ⟨rfl, rfl⟩ := returns_pure.mp rest
    exact .inl ⟨trivial, logged⟩
  · rename_i f compl gate
    obtain ⟨⟨p, created⟩, net₁, added, rest⟩ := run.bind
    rw [returns_change] at added
    dsimp only at rest
    -- the debug record of a new gate leaves the network
    have result : s = Signal.make p compl ∧ net' = net₁ := by
      cases created with
      | false => exact returns_pure.mp rest
      | true =>
          obtain ⟨u, net₂, logged, rest⟩ := rest.bind
          rw [returns_log] at logged
          obtain ⟨rfl, rfl⟩ := returns_pure.mp rest
          exact ⟨rfl, logged⟩
    obtain ⟨rfl, rfl⟩ := result
    exact .inr ⟨f, compl, p, created, gate, added, rfl⟩

/-- `createMaj` over nodes of a sound network keeps it sound, only grows it, and returns a
signal on one of its nodes. -/
theorem Sound.createMaj (sound : net.Sound) (below : ∀ t ∈ [a, b, c], t.node.id < net.size)
    (run : Returns (Network.createMaj a b c) net s net')
    : net'.Sound ∧ Grows net net' ∧ s.node.id < net'.size := by
  rcases createMaj_cases run with ⟨trivial, rfl⟩ | ⟨f, compl, p, created, gate, added, rfl⟩
  · exact ⟨sound, Grows.refl _, below s (Fanins.mem_of_normalize_eq_trivial trivial)⟩
  · obtain ⟨isGate, outcome⟩ := sound.addGate (Fanins.nodes_nodup_of_normalize gate)
      (Fanins.forall_nodes_of_normalize (fun n => n.id < net.size) gate below) added
    have returned : (Signal.make p compl).node.id < net'.size := by
      rw [Signal.node_make]
      exact lt_size_of_gateFanins isGate
    cases created with
    | false =>
        rw [if_neg Bool.false_ne_true] at outcome
        subst outcome
        exact ⟨sound, Grows.refl _, returned⟩
    | true =>
        obtain ⟨-, -, adds⟩ := outcome
        exact ⟨adds.sound sound (Fanins.forall_nodes_of_normalize (fun n => n.id < net.size) gate below), adds.grows, returned⟩

/-- A call of `createMaj` takes at most one node and one use of each node of the room. -/
theorem Sound.room_createMaj (sound : net.Sound) (below : ∀ t ∈ [a, b, c], t.node.id < net.size)
    {k : Nat} (room : net.Room (k + 1)) (run : Returns (Network.createMaj a b c) net s net') :
    net'.Room k := by
  rcases createMaj_cases run with ⟨-, rfl⟩ | ⟨f, compl, p, created, gate, added, rfl⟩
  · exact room.mono (Nat.le_succ k)
  · obtain ⟨-, outcome⟩ := sound.addGate (Fanins.nodes_nodup_of_normalize gate)
      (Fanins.forall_nodes_of_normalize (fun n => n.id < net.size) gate below) added
    cases created with
    | false =>
        rw [if_neg Bool.false_ne_true] at outcome
        subst outcome
        exact room.mono (Nat.le_succ k)
    | true => exact outcome.2.2.room room

/-- Under a valuation consistent with a sound network, `createMaj` returns the majority of its
three signals; the valuation carries over to the new network, with a value for a new gate. -/
theorem Sound.follows_createMaj (sound : net.Sound)
    (below : ∀ t ∈ [a, b, c], t.node.id < net.size)
    (run : Returns (Network.createMaj a b c) net s net')
    {x : Nat → Bool} {val : Node → Bool} (consistent : net.Consistent x val)
    : ∃ val', Follows x net val net' val' ∧ s.eval val' = Fanins.eval val ⟨a, b, c⟩ := by
  obtain ⟨sound', grows, _⟩ := sound.createMaj below run
  have follows : ∀ val', net'.Consistent x val' → (∀ n : Node, n.id < net.size → val' n = val n) →
      Follows x net val net' val' := fun val' consistent' agree =>
    ⟨sound', consistent', grows.size, agree, grows.inputs, grows.outputs,
      KeepsGateRecords.of_values grows.values⟩
  rcases createMaj_cases run with ⟨trivial, rfl⟩ | ⟨f, compl, p, created, gate, added, rfl⟩
  · exact ⟨val, follows val consistent fun _ _ => rfl,
      Fanins.eval_of_normalize_eq_trivial val trivial⟩
  · have fBelow := Fanins.forall_nodes_of_normalize (fun n => n.id < net.size) gate below
    obtain ⟨isGate, outcome⟩ := sound.addGate (Fanins.nodes_nodup_of_normalize gate) fBelow added
    cases created with
    | false =>
        -- the gate found is live, so the valuation already gives it the majority
        rw [if_neg Bool.false_ne_true] at outcome
        subst outcome
        refine ⟨val, follows val consistent fun _ _ => rfl, ?_⟩
        rw [Signal.eval_make, consistent.gates p f isGate]
        exact Fanins.eval_of_normalize_eq_gate val gate
    | true =>
        obtain ⟨-, rfl, adds⟩ := outcome
        let val' : Node → Bool := fun n => if n.id = net.size then f.eval val else val n
        have agree : ∀ n : Node, n.id < net.size → val' n = val n :=
          fun n lt => if_neg (Nat.ne_of_lt lt)
        refine ⟨val', follows val' (adds.consistent sound fBelow consistent (if_pos rfl) agree)
          agree, ?_⟩
        rw [Signal.eval_make]
        exact (congrArg (· ^^ compl) (if_pos rfl : val' ⟨net.size⟩ = f.eval val)).trans
          (Fanins.eval_of_normalize_eq_gate val gate)

/-- `createMaj` over live nodes of a well-formed network keeps it well formed, only grows it,
and returns a signal on a live node. -/
theorem WellFormed.createMaj (wf : net.WellFormed) (live : ∀ t ∈ [a, b, c], net.Live t.node)
    (run : Returns (Network.createMaj a b c) net s net')
    : net'.WellFormed ∧ Grows net net' ∧ net'.Live s.node := by
  rcases createMaj_cases run with ⟨trivial, rfl⟩ | ⟨f, compl, p, created, gate, added, rfl⟩
  · exact ⟨wf, Grows.refl _, live s (Fanins.mem_of_normalize_eq_trivial trivial)⟩
  · obtain ⟨wf', isGate, outcome⟩ := wf.addGate (Fanins.normalize_normalize gate)
      (Fanins.forall_nodes_of_normalize net.Live gate live) added
    refine ⟨wf', ?_, by rw [Signal.node_make]; exact live_of_gateFanins isGate⟩
    cases created with
    | false =>
        rw [if_neg Bool.false_ne_true] at outcome
        subst outcome
        exact Grows.refl _
    | true => exact outcome.2.grows

/-- `net'` adds to `net` only linked live gates over the nodes `ns`: the old nodes keep their
gates, liveness, records and links, and a ranking of the old nodes extends to the new ones. -/
structure AddsLinked (net net' : Network) (ns : List Node) : Prop where
  grows : Grows net net'
  dead : ∀ n : Node, n.id < net.size → net'.Live n → net.Live n
  links : ∀ i, i < net.size → net'.table.linkedAt i = net.table.linkedAt i
  fresh : ∀ g h, net.size ≤ g.id → net'.gateFanins g = some h →
    (h.toList.map Signal.node).Perm ns ∧ net'.table.linkedAt g.id = true
  ranked : ∀ rank, net.Ranked rank →
    ∃ rank', net'.Ranked rank' ∧ ∀ n : Node, n.id < net.size → rank' n = rank n

theorem AddsLinked.refl (net : Network) (ns : List Node) : AddsLinked net net ns :=
  ⟨Grows.refl net, fun _ _ live => live, fun _ _ => rfl,
    fun _ _ beyond gate => absurd (lt_size_of_gateFanins gate) (Nat.not_lt.mpr beyond),
    fun rank ranked => ⟨rank, ranked, fun _ _ => rfl⟩⟩

/-- A new last gate over old nodes is added linked. -/
theorem AddsGate.addsLinked (sound : net.Sound) (adds : AddsGate net net' f)
    (below : ∀ s ∈ f.toList, s.node.id < net.size)
    : AddsLinked net net' (f.toList.map Signal.node) where
  grows := adds.grows
  dead n lt live := ((adds.live n).mp live).resolve_right (Nat.ne_of_lt lt)
  links i lt := by rw [adds.links, if_neg (Nat.ne_of_lt lt)]
  fresh g h beyond gate := by
    rw [adds.gateFanins] at gate
    split at gate
    · rename_i here
      cases gate
      refine ⟨List.Perm.refl _, ?_⟩
      rw [adds.links, if_pos here]
    · exact absurd (lt_size_of_gateFanins gate) (Nat.not_lt.mpr beyond)
  ranked rank ranked := ⟨_, adds.ranked sound below ranked, fun n lt => if_neg (Nat.ne_of_lt lt)⟩

/-- The signal `s` stands for the majority over the fan-ins `f`: it is one of them, when they
repeat a node, or it is on a linked gate over them, all complemented with `s` or none. -/
def MajorityOf (net : Network) (f : Fanins) (s : Signal) : Prop :=
  (s ∈ f.toList ∧ ¬ (f.toList.map Signal.node).Nodup) ∨
    ∃ h, net.gateFanins s.node = some h ∧ h.toList.Perm (f.toList.map (·.xor s.isComplemented)) ∧
      net.table.linkedAt s.node.id = true

/-- Standing for a majority depends only on the gate and the link of the signal's node. -/
theorem MajorityOf.congr {f : Fanins} (majority : net.MajorityOf f s)
    (gate : net'.gateFanins s.node = net.gateFanins s.node)
    (link : net'.table.linkedAt s.node.id = net.table.linkedAt s.node.id) : net'.MajorityOf f s := by
  unfold MajorityOf
  rw [gate, link]
  exact majority

/-- `createMaj` over live nodes of a coherent network keeps it coherent and adds only linked
live gates over their nodes. The signal returned is on a live node and stands for the majority
of the three signals. -/
theorem Coherent.createMaj (coherent : net.Coherent) (live : ∀ t ∈ [a, b, c], net.Live t.node)
    (run : Returns (Network.createMaj a b c) net s net')
    : net'.Coherent ∧ AddsLinked net net' ([a, b, c].map Signal.node) ∧ net'.Live s.node ∧
        net'.MajorityOf ⟨a, b, c⟩ s := by
  rcases createMaj_cases run with ⟨trivial, rfl⟩ | ⟨f, compl, p, created, gate, added, rfl⟩
  · have member := Fanins.mem_of_normalize_eq_trivial trivial
    exact ⟨coherent, AddsLinked.refl _ _, live s member,
      .inl ⟨member, Fanins.not_nodup_of_normalize_eq_trivial trivial⟩⟩
  · have fNodes := Fanins.nodes_normalize gate
    obtain ⟨coherent', isGate, linked, outcome⟩ := coherent.addGate (Fanins.normalize_normalize gate)
      (Fanins.forall_nodes_of_normalize net.Live gate live) added
    rw [Signal.node_make]
    refine ⟨coherent', ?_, live_of_gateFanins isGate, .inr ⟨f, by rw [Signal.node_make]; exact isGate,
      by rw [Signal.isComplemented_make]; exact Fanins.perm_of_normalize_eq_gate gate,
      by rw [Signal.node_make]; exact linked⟩⟩
    cases created with
    | false =>
        rw [if_neg Bool.false_ne_true] at outcome
        subst outcome
        exact AddsLinked.refl _ _
    | true =>
        obtain ⟨-, adds⟩ := outcome
        have added := adds.addsLinked coherent.sound
          (Fanins.forall_nodes_of_normalize (fun n => n.id < net.size) gate
            fun t member => coherent.lt_size_of_live (live t member))
        exact ⟨added.grows, added.dead, added.links,
          fun g h beyond gate' => (added.fresh g h beyond gate').imp_left (·.trans fNodes), added.ranked⟩

end CreateMaj

end Network

end MajorityGraph
