import MajorityGraph.Proofs.Network.TakeOut

/-!
Redirecting the uses of a node keeps a consistent valuation consistent when the replacement has
the node's value.
-/

namespace MajorityGraph

namespace Network

open NetM

-----------------------------------------------------------------------------------------
-- Steps on the unique table
-----------------------------------------------------------------------------------------

section TableSteps

variable {net : Network} {t : UniqueTable NodeData}

/-- Changing the unique table of a network changes nothing else. -/
theorem updateTable_eq_ok {f : UniqueTable NodeData → Except Fault (UniqueTable NodeData)}
    {net' : Network}
    : net.updateTable f = .ok net' ↔ ∃ t, f net.table = .ok t ∧ net' = { net with table := t } := by
  obtain ⟨table, refs, inputs, outputs, numGates⟩ := net
  unfold updateTable
  cases step : f table with
  | error e => simp [step, bind, Except.bind]
  | ok t =>
      simp only [step, bind, Except.bind, pure, Except.pure, Except.ok.injEq]
      exact ⟨fun done => ⟨t, rfl, done.symm⟩, fun ⟨_, same, done⟩ => by cases same; exact done.symm⟩

/-- A table with the same values reads the same live gates. -/
theorem gateFanins_withTable (values : ∀ j, t.valueAt j = net.table.valueAt j) (g : Node)
    : ({ net with table := t } : Network).gateFanins g = net.gateFanins g := by
  rw [gateFanins_eq, gateFanins_eq]
  simp only [values]

/-- A table with the same values, still indexed, that links only live gates keeps a network
sound. -/
theorem Sound.withTable (sound : net.Sound) (indexed : t.Indexed)
    (size : t.cells.size = net.table.cells.size) (values : ∀ j, t.valueAt j = net.table.valueAt j)
    (linkedGate : ∀ i, t.linkedAt i = true → (net.gateFanins ⟨i⟩).isSome)
    : ({ net with table := t } : Network).Sound := by
  have gates := gateFanins_withTable values
  have sameSize : ({ net with table := t } : Network).size = net.size := size
  refine {
    sizes := by rw [size]; exact sound.sizes
    constant := by rw [values]; exact sound.constant
    indexed := indexed
    linkedGate := fun i linked => by rw [gates]; exact linkedGate i linked
    inputsBelow := fun n member => sameSize ▸ sound.inputsBelow n member
    outputsBelow := fun s member => sameSize ▸ sound.outputsBelow s member
    faninsBelow := fun g f gate s member =>
      sameSize ▸ sound.faninsBelow g f ((gates g) ▸ gate) s member
    parentsGates := fun n r g uses member => by
      rw [values]
      exact sound.parentsGates n r g uses member }

/-- Unlinking a cell keeps a network sound and its live gates. -/
theorem Sound.unlink (sound : net.Sound) {i : Nat} (unlinked : net.table.unlink i = .ok t)
    : ({ net with table := t } : Network).Sound ∧
        (∀ g, ({ net with table := t } : Network).gateFanins g = net.gateFanins g) ∧
        t.linkedAt i = false := by
  obtain ⟨indexed, size, values, links⟩ := sound.indexed.unlink unlinked
  refine ⟨sound.withTable indexed size values fun j linked => ?_, gateFanins_withTable values,
    by simp [links]⟩
  rw [links] at linked
  simp only [Bool.and_eq_true] at linked
  exact sound.linkedGate j linked.2

/-- Linking a live gate keeps a network sound and its live gates. -/
theorem Sound.link (sound : net.Sound) {p : Node} {f : Fanins} (gate : net.gateFanins p = some f)
    (linked : net.table.link p.id = .ok t)
    : ({ net with table := t } : Network).Sound ∧
        ∀ g, ({ net with table := t } : Network).gateFanins g = net.gateFanins g := by
  obtain ⟨indexed, size, values, links⟩ := sound.indexed.link linked
  refine ⟨sound.withTable indexed size values fun j on => ?_, gateFanins_withTable values⟩
  rw [links] at on
  simp only [Bool.or_eq_true, beq_iff_eq] at on
  rcases on with rfl | on
  · rw [gate]
    rfl
  · exact sound.linkedGate j on

/-- The network whose gate `p` is stored over the fan-ins `f`. -/
def storeGate (net : Network) (p : Node) (f : Fanins) : Network :=
  { net with table := net.table.setValue p.id (NodeData.majority f) }

@[simp] theorem size_storeGate (p : Node) (f : Fanins) : (net.storeGate p f).size = net.size := by
  simp [storeGate, Network.size, UniqueTable.size]

/-- Storing new fan-ins for a live gate changes that gate alone. -/
theorem gateFanins_storeGate {p : Node} {f f' : Fanins} (gate : net.gateFanins p = some f)
    (g : Node) : (net.storeGate p f').gateFanins g = if g = p then some f' else net.gateFanins g := by
  obtain ⟨c, r, cell, uses, _, alive⟩ := gateFanins_eq_some.mp gate
  rw [gateFanins_eq, gateFanins_eq]
  simp only [storeGate, UniqueTable.valueAt_setValue]
  by_cases same : g = p
  · subst same
    simp [UniqueTable.valueAt, cell, uses, alive, NodeData.majority, NodeData.isGate]
  · have other : p.id ≠ g.id := fun ids => same (congrArg Node.mk ids).symm
    simp [same, other]

/-- Storing fan-ins for a node keeps every gate a gate. -/
theorem storeGate_keepsGateRecords (p : Node) (f : Fanins) : KeepsGateRecords net (net.storeGate p f) := by
  intro i d value isGate
  simp only [storeGate, UniqueTable.valueAt_setValue, value]
  split
  · exact ⟨NodeData.majority f, rfl, rfl⟩
  · exact ⟨d, rfl, isGate⟩

/-- Storing fan-ins on nodes of the network for an unlinked live gate keeps a network sound. -/
theorem Sound.store (sound : net.Sound) {p : Node} {f f' : Fanins}
    (gate : net.gateFanins p = some f) (unlinked : net.table.linkedAt p.id = false)
    (below : ∀ s ∈ f'.toList, s.node.id < net.size) : (net.storeGate p f').Sound := by
  have gates : ∀ g, (net.storeGate p f').gateFanins g = _ := gateFanins_storeGate gate
  have sameSize : (net.storeGate p f').size = net.size := size_storeGate p f'
  refine {
    sizes := by simp only [storeGate, UniqueTable.cells_setValue, Array.size_modify]; exact sound.sizes
    constant := ?_
    indexed := sound.indexed.setValue _ unlinked
    linkedGate := fun i linked => ?_
    inputsBelow := fun n member => sameSize ▸ sound.inputsBelow n member
    outputsBelow := fun s member => sameSize ▸ sound.outputsBelow s member
    faninsBelow := fun g f'' gate' s member => ?_
    parentsGates := fun n r g uses member => ?_ }
  · -- the gate is not the constant
    have : p.id ≠ 0 := by
      intro zero
      obtain ⟨c, _, cell, _, value, _⟩ := gateFanins_eq_some.mp gate
      have := sound.constant
      simp [UniqueTable.valueAt, ← zero, cell, value, NodeData.majority, NodeData.constant] at this
    simp [storeGate, this, sound.constant]
  · simp only [storeGate, UniqueTable.linkedAt_setValue] at linked
    rw [gates]
    split
    · rfl
    · exact sound.linkedGate i linked
  · rw [sameSize]
    rw [gates] at gate'
    split at gate'
    · cases gate'
      exact below s member
    · exact sound.faninsBelow g f'' gate' s member
  · simp only [storeGate, UniqueTable.valueAt_setValue]
    obtain ⟨d, value, isGate⟩ := sound.parentsGates n r g uses member
    split
    · exact ⟨_, by rw [value]; rfl, rfl⟩
    · exact ⟨d, value, isGate⟩

/-- Storing fan-ins with the gate's value keeps a valuation consistent. -/
theorem Consistent.store {x : Nat → Bool} {val : Node → Bool}
    (consistent : net.Consistent x val) {p : Node} {f f' : Fanins}
    (gate : net.gateFanins p = some f) (value : f'.eval val = val p)
    : (net.storeGate p f').Consistent x val := by
  refine ⟨consistent.constant, consistent.inputs, fun g f'' gate' => ?_⟩
  rw [gateFanins_storeGate gate] at gate'
  split at gate'
  · rename_i same
    cases gate'
    rw [same, value]
  · exact consistent.gates g f'' gate'

end TableSteps

-----------------------------------------------------------------------------------------
-- Moving uses
-----------------------------------------------------------------------------------------

/-- Recording a use keeps the live gates. -/
theorem gateFanins_addReference {net net' : Network} {child parent : Node}
    (added : net.addReference child parent = .ok net') (n : Node)
    : net'.gateFanins n = net.gateFanins n := by
  obtain ⟨r, -, -, same⟩ := addReference_eq_ok_iff.mp added
  exact gateFanins_of_modify (by rw [same]) (by rw [same]) (NodeRefs.dead_withUse parent) n

/-- Recording a use by a gate keeps a network sound and its live gates. -/
theorem Sound.addReference {net net' : Network} (sound : net.Sound) {child parent : Node}
    (parentGate : ∃ d, net.table.valueAt parent.id = some d ∧ d.isGate = true)
    (added : net.addReference child parent = .ok net') : net'.Sound ∧ Shrinks net net' := by
  obtain ⟨r, found, room, rfl⟩ := addReference_eq_ok_iff.mp added
  have gates := gateFanins_addReference (@addReference_eq_ok net child parent r found room)
  refine ⟨sound.of_uses rfl rfl (by simp) gates sound.outputsBelow fun n r' g uses member => ?_,
    rfl, fun g f gate => (gates g).symm.trans gate, rfl, rfl, fun _ => rfl⟩
  -- the one new parent is the gate
  simp only [Array.getElem?_modify] at uses
  split at uses
  · obtain ⟨r₀, uses₀, rfl⟩ := Option.map_eq_some_iff.mp uses
    rename_i same
    simp only [NodeRefs.parents_withUse, Array.mem_push] at member
    rcases member with member | rfl
    · exact sound.parentsGates n r₀ g (same ▸ uses₀) member
    · exact parentGate
  · exact sound.parentsGates n r' g uses member

/-- Changing the uses of a node gives the network with those uses changed. -/
theorem eq_of_modifyRefs {net net' : Network} {n : Node} {g : NodeRefs → NodeRefs}
    (modified : net.modifyRefs n g = .ok net') : net' = { net with refs := net.refs.modify n.id g } := by
  cases found : net.refsOf n with
  | error e => simp [modifyRefs, found, bind, Except.bind] at modified
  | ok r =>
      rw [modifyRefs_eq_ok g found] at modified
      exact (Except.ok.inj modified).symm

/-- A change of a fan-out count keeps a network sound, with its records and live gates. -/
theorem Sound.modifyCount {net net' : Network} (sound : net.Sound) {n : Node}
    {g : NodeRefs → NodeRefs} (modified : net.modifyRefs n g = .ok net')
    (keepsDead : ∀ r, (g r).dead = r.dead) (keepsParents : ∀ r, (g r).parents = r.parents)
    : net'.Sound ∧ net'.table = net.table ∧ net'.inputs = net.inputs ∧ net'.outputs = net.outputs ∧
        ∀ m, net'.gateFanins m = net.gateFanins m := by
  have same := eq_of_modifyRefs modified
  have gates : ∀ m, net'.gateFanins m = net.gateFanins m :=
    gateFanins_of_modify (by rw [same]) (by rw [same]) keepsDead
  refine ⟨sound.of_uses (by rw [same]) (by rw [same]) (by rw [same]; simp) gates
    (by rw [same]; exact sound.outputsBelow) fun m r h uses member => ?_,
    by rw [same], by rw [same], by rw [same], gates⟩
  rw [same] at uses
  simp only [Array.getElem?_modify] at uses
  split at uses
  · obtain ⟨r₀, uses₀, rfl⟩ := Option.map_eq_some_iff.mp uses
    rename_i here
    rw [keepsParents] at member
    exact sound.parentsGates m r₀ h (here ▸ uses₀) member
  · exact sound.parentsGates m r h uses member

/-- The record of a live gate is the majority over its fan-ins. -/
theorem data_of_gateFanins {net : Network} {n : Node} {f : Fanins} (gate : net.gateFanins n = some f)
    : net.data n = .ok (NodeData.majority f) := by
  obtain ⟨c, _, cell, _, value, _⟩ := gateFanins_eq_some.mp gate
  simp [data, cell, value]

/-- Moving the uses of a gate from one node to another, one slot at a time, keeps a network
sound, with its records and live gates. -/
theorem Sound.moveUses {net net' : Network} (sound : net.Sound) {old child parent : Node} {k : Nat}
    {u : PUnit} (parentGate : ∃ d, net.table.valueAt parent.id = some d ∧ d.isGate = true)
    (run : Returns (forIn (List.range k) PUnit.unit fun _ _ => do
        update (·.removeReference old parent)
        update (·.addReference child parent)
        pure (ForInStep.yield PUnit.unit)) net u net')
    : net'.Sound ∧ net'.table = net.table ∧ net'.inputs = net.inputs ∧
        net'.outputs = net.outputs ∧ ∀ g, net'.gateFanins g = net.gateFanins g := by
  refine Returns.forIn_list (fun net₁ _ => net₁.Sound ∧ net₁.table = net.table ∧
      net₁.inputs = net.inputs ∧ net₁.outputs = net.outputs ∧
      ∀ g, net₁.gateFanins g = net.gateFanins g) ?_ ⟨sound, rfl, rfl, rfl, fun _ => rfl⟩ run
  intro _ _ _ net₁ step net₂ ⟨sound₁, table₁, inputs₁, outputs₁, gates₁⟩ body
  obtain ⟨_, net₃, removing, afterRemove⟩ := body.bind
  rw [returns_update] at removing
  obtain ⟨_, net₄, adding, afterAdd⟩ := afterRemove.bind
  rw [returns_update] at adding
  rw [(returns_pure.mp afterAdd).2]
  obtain ⟨sound₃, shrinks₃⟩ := sound₁.removeReference removing
  have table₃ : net₃.table = net₁.table := by
    obtain ⟨_, _, _, rfl⟩ := removeReference_eq_ok.mp removing
    rfl
  have parentGate₃ : ∃ d, net₃.table.valueAt parent.id = some d ∧ d.isGate = true := by
    rw [table₃, table₁]
    exact parentGate
  obtain ⟨sound₄, shrinks₄⟩ := sound₃.addReference parentGate₃ adding
  have table₄ : net₄.table = net₃.table := by
    obtain ⟨_, _, _, rfl⟩ := addReference_eq_ok_iff.mp adding
    rfl
  refine ⟨sound₄, by rw [table₄, table₃, table₁], by rw [shrinks₄.inputs, shrinks₃.inputs, inputs₁],
    by rw [shrinks₄.outputs, shrinks₃.outputs, outputs₁], fun g => ?_⟩
  rw [gateFanins_addReference adding, gateFanins_removeReference removing, gates₁]

-----------------------------------------------------------------------------------------
-- Redirecting the outputs
-----------------------------------------------------------------------------------------

/-- The signal that replaces `s` when `old` is redirected to `new`. -/
def redirectSignal (old : Node) (new s : Signal) : Signal :=
  if s.node = old then new.xor s.isComplemented else s

/-- The network after the output at position `i`, `po` on `old`, moves to the replacement: one
use moves from `old` to the replacement's node. -/
def moveOutput (net : Network) (old : Node) (new : Signal) (i : Nat) (po : Signal) : Network :=
  ⟨net.table, (net.refs.modify old.id fun r => { r with fanout := r.fanout - 1 }).modify
    new.node.id (fun r => { r with fanout := r.fanout + 1 }), net.inputs,
    net.outputs.set! i (new.xor po.isComplemented), net.numGates⟩

section MoveOutput

variable {net : Network} {old : Node} {new : Signal} {i : Nat} {po : Signal}

/-- Moving an output keeps every dead flag. -/
theorem refs_moveOutput_dead (j : Nat)
    : ((net.moveOutput old new i po).refs[j]?).map NodeRefs.dead = (net.refs[j]?).map NodeRefs.dead := by
  simp only [moveOutput, Array.getElem?_modify]
  split <;> split <;> cases net.refs[j]? <;> rfl

/-- Moving an output keeps the live gates. -/
theorem gateFanins_moveOutput (g : Node) : (net.moveOutput old new i po).gateFanins g = net.gateFanins g := by
  have same := @refs_moveOutput_dead net old new i po g.id
  unfold gateFanins
  simp only [moveOutput] at same ⊢
  cases net.table.cells[g.id]? <;> cases moved : ((net.refs.modify old.id fun r => { r with fanout := r.fanout - 1 }).modify
    new.node.id fun r => { r with fanout := r.fanout + 1 })[g.id]? <;> cases uses : net.refs[g.id]? <;>
    simp_all

/-- The outputs after a move: position `i` holds the replacement with the polarity of `po`. -/
theorem outputs_moveOutput (j : Nat)
    : (net.moveOutput old new i po).outputs[j]? =
        if i = j ∧ i < net.outputs.size then some (new.xor po.isComplemented) else net.outputs[j]? := by
  simp only [moveOutput, Array.set!_eq_setIfInBounds, Array.getElem?_setIfInBounds]
  by_cases here : i = j
  · subst here
    by_cases lt : i < net.outputs.size <;> simp [lt]
  · simp [here]

end MoveOutput

/-- Induction over the positions that `redirectOutputs` visits: a property of networks that holds
at the start, survives a position whose output is elsewhere, and survives moving an output on
`old` (whose fan-out count is not zero), holds at the end. At each position the network still
holds the output that was first there. -/
theorem redirectOutputs_induction {net net' : Network} {old : Node} {new : Signal} {u : Unit}
    (P : Nat → Network → Prop) (start : P 0 net)
    (keep : ∀ i (lt : i < net.outputs.size) net₁, P i net₁ →
      net₁.outputs[i]? = some net.outputs[i] → net.outputs[i].node ≠ old → P (i + 1) net₁)
    (move : ∀ i (lt : i < net.outputs.size) net₁ r, P i net₁ →
      net₁.outputs[i]? = some net.outputs[i] → net.outputs[i].node = old →
      net₁.refsOf old = .ok r → r.fanout ≠ 0 →
      (∃ r', (net₁.refs.modify old.id fun r => { r with fanout := r.fanout - 1 })[new.node.id]? =
        some r' ∧ r'.fanout < NodeRefs.maxFanout) →
      P (i + 1) (net₁.moveOutput old new i net.outputs[i]))
    (run : Returns (Network.redirectOutputs old new) net u net') : P net.outputs.size net' := by
  unfold Network.redirectOutputs at run
  obtain ⟨net₀, net₁, getting, afterGet⟩ := run.bind
  obtain ⟨read, same⟩ := returns_get.mp getting
  rw [read, same] at afterGet
  obtain ⟨_, net₂, loop, back⟩ := afterGet.bind
  rw [(returns_pure.mp back).2]
  -- the positions from `i` on still hold their first outputs
  have done := Returns.forIn_range (fun i net₁ _ => P i net₁ ∧
      net₁.outputs.size = net.outputs.size ∧ ∀ j, i ≤ j → net₁.outputs[j]? = net.outputs[j]?) ?_
    ⟨start, rfl, fun _ _ => rfl⟩ loop
  · exact done.1
  intro i lt _ net₁ r net₂ ⟨holds, size₁, later₁⟩ body
  obtain ⟨net₃, net₄, getting, afterGet⟩ := body.bind
  obtain ⟨read, same⟩ := returns_get.mp getting
  rw [read, same] at afterGet
  have atI : net₁.outputs[i]? = some net.outputs[i] := by
    rw [later₁ i (Nat.le_refl _), Array.getElem?_eq_getElem lt]
  have current : net₁.outputs.getD i default = net.outputs[i] := by
    rw [Array.getD_eq_getD_getElem?, atI]
    rfl
  rw [current] at afterGet
  dsimp only at afterGet
  split at afterGet
  · rename_i onOld
    -- the output is moved, then the two fan-out counts
    obtain ⟨_, net₅, setting, afterSet⟩ := afterGet.bind
    have set₅ : net₅ = ⟨net₁.table, net₁.refs, net₁.inputs,
        net₁.outputs.set! i (new.xor net.outputs[i].isComplemented), net₁.numGates⟩ := by
      have := returns_update.mp setting
      obtain ⟨table, refs, inputs, outputs, numGates⟩ := net₁
      exact (Except.ok.inj this).symm
    subst set₅
    obtain ⟨_, net₆, decreasing, afterDecrease⟩ := afterSet.bind
    obtain ⟨r₀, found, nonzero, rfl⟩ : ∃ r₀, net₁.refsOf old = .ok r₀ ∧ r₀.fanout ≠ 0 ∧
        net₆ = ⟨net₁.table, net₁.refs.modify old.id fun r => { r with fanout := r.fanout - 1 },
          net₁.inputs, net₁.outputs.set! i (new.xor net.outputs[i].isComplemented), net₁.numGates⟩ := by
      have decreased := returns_update.mp decreasing
      have sameRefs : Network.refsOf ⟨net₁.table, net₁.refs, net₁.inputs,
          net₁.outputs.setIfInBounds i (new.xor net.outputs[i].isComplemented), net₁.numGates⟩ old =
          net₁.refsOf old := rfl
      simp only [Array.set!_eq_setIfInBounds] at decreased
      cases found : net₁.refsOf old with
      | error e => simp [sameRefs, found, bind, Except.bind] at decreased
      | ok r =>
          simp only [sameRefs, found, bind, Except.bind] at decreased
          split at decreased
          · simp [throw, throwThe, MonadExceptOf.throw] at decreased
          · rename_i nonzero
            refine ⟨r, rfl, by simpa using nonzero, ?_⟩
            rw [modifyRefs_eq_ok _ (sameRefs.trans found)] at decreased
            exact (Except.ok.inj decreased).symm
    obtain ⟨_, net₇, increasing, back⟩ := afterDecrease.bind
    obtain ⟨rNew, foundNew, room, moved⟩ := addUse_eq_ok_iff.mp (returns_update.mp increasing)
    replace moved : net₇ = net₁.moveOutput old new i net.outputs[i] := moved
    subst moved
    obtain ⟨rfl, rfl⟩ := returns_pure.mp back
    refine ⟨rfl, move i lt net₁ r₀ holds atI onOld found nonzero
      ⟨rNew, (refsOf_eq_ok.mp foundNew).2, room⟩, ?_, fun j le => ?_⟩
    · simp [moveOutput, size₁]
    · rw [outputs_moveOutput, if_neg (by omega), later₁ j (by omega)]
  · rename_i offOld
    obtain ⟨rfl, rfl⟩ := returns_pure.mp afterGet
    exact ⟨rfl, keep i lt _ holds atI offOld, size₁, fun j le => later₁ j (by omega)⟩

/-- Moving the outputs off `old` keeps a network sound, with its records and live gates; every
output on `old` is now on the replacement, with its polarity. -/
theorem Sound.redirectOutputs {net net' : Network} (sound : net.Sound) {old : Node} {new : Signal}
    {u : Unit} (newBelow : new.node.id < net.size)
    (run : Returns (Network.redirectOutputs old new) net u net')
    : net'.Sound ∧ net'.table = net.table ∧ net'.inputs = net.inputs ∧
        (∀ g, net'.gateFanins g = net.gateFanins g) ∧
        ∀ j : Nat, net'.outputs[j]? = (net.outputs[j]?).map (redirectSignal old new) := by
  -- after `i` positions, the outputs before position `i` are redirected
  have done := redirectOutputs_induction (fun i net₁ => net₁.Sound ∧ net₁.table = net.table ∧
      net₁.inputs = net.inputs ∧ (∀ g, net₁.gateFanins g = net.gateFanins g) ∧
      ∀ j : Nat, net₁.outputs[j]? = (net.outputs[j]?).map fun s =>
        if j < i then redirectSignal old new s else s)
    ⟨sound, rfl, rfl, fun _ => rfl, fun j => by simp⟩ ?_ ?_ run
  · obtain ⟨sound', table', inputs', gates', outputs'⟩ := done
    refine ⟨sound', table', inputs', gates', fun j => ?_⟩
    rw [outputs']
    cases found : net.outputs[j]? with
    | none => rfl
    | some s =>
        have := (Array.getElem?_eq_some_iff.mp found).1
        simp [this]
  · intro i lt net₁ ⟨sound₁, table₁, inputs₁, gates₁, outputs₁⟩ _ offOld
    refine ⟨sound₁, table₁, inputs₁, gates₁, fun j => ?_⟩
    rw [outputs₁]
    cases found : net.outputs[j]? with
    | none => rfl
    | some s =>
        simp only [Option.map_some, Option.some.injEq]
        by_cases here : j = i
        · subst here
          have : s = net.outputs[j] := by
            rw [Array.getElem?_eq_getElem lt] at found
            exact (Option.some.inj found).symm
          subst this
          simp [redirectSignal, offOld]
        · by_cases before : j < i
          · rw [if_pos before, if_pos (by omega)]
          · rw [if_neg before, if_neg (by omega)]
  · intro i lt net₁ r ⟨sound₁, table₁, inputs₁, gates₁, outputs₁⟩ atI onOld _ _ _
    have size₁ : net₁.size = net.size := by simp only [Network.size, table₁]
    refine ⟨sound₁.of_uses rfl rfl (by simp [moveOutput]) gateFanins_moveOutput (fun s member => ?_)
      (fun m r' h uses member => ?_), table₁, inputs₁, fun g => by rw [gateFanins_moveOutput, gates₁],
      fun j => ?_⟩
    · simp only [moveOutput, Array.set!_eq_setIfInBounds] at member
      rcases Array.mem_or_eq_of_mem_setIfInBounds member with old' | rfl
      · exact sound₁.outputsBelow s old'
      · rw [size₁, Signal.node_xor]
        exact newBelow
    · -- moving an output changes only fan-out counts
      simp only [moveOutput, Array.getElem?_modify] at uses
      split at uses <;> split at uses
      all_goals first
        | exact sound₁.parentsGates m r' h uses member
        | (obtain ⟨r₀, uses₀, rfl⟩ := Option.map_eq_some_iff.mp uses
           first
            | exact sound₁.parentsGates m r₀ h uses₀ member
            | (obtain ⟨r₁, uses₁, rfl⟩ := Option.map_eq_some_iff.mp uses₀
               exact sound₁.parentsGates m r₁ h uses₁ member))
    · rw [outputs_moveOutput, outputs₁]
      by_cases here : i = j
      · subst here
        have lt₁ : i < net₁.outputs.size := (Array.getElem?_eq_some_iff.mp atI).1
        rw [if_pos ⟨rfl, lt₁⟩, Array.getElem?_eq_getElem lt]
        simp [redirectSignal, onOld]
      · rw [if_neg fun both => here both.1]
        cases net.outputs[j]? with
        | none => rfl
        | some s =>
            simp only [Option.map_some, Option.some.injEq]
            by_cases before : j < i
            · rw [if_pos before, if_pos (by omega)]
            · rw [if_neg before, if_neg (by omega)]

-----------------------------------------------------------------------------------------
-- Redirecting one gate
-----------------------------------------------------------------------------------------

/-- A signal redirected off `old` onto a replacement with the value of `old` keeps its value. -/
theorem eval_redirect {val : Node → Bool} {old : Node} {new : Signal}
    (same : new.eval val = val old) (s : Signal)
    : (if s.node = old then new.xor s.isComplemented else s).eval val = s.eval val := by
  split
  · rename_i here
    rw [Signal.eval_xor, same, Signal.eval, here]
  · rfl

/-- A redirected signal is on the replacement's node or on its own. -/
theorem node_redirect {old : Node} {new : Signal} (s : Signal)
    : (if s.node = old then new.xor s.isComplemented else s).node =
        if s.node = old then new.node else s.node := by
  split <;> simp

/-- Fan-ins whose signals each keep their value keep their majority. -/
theorem eval_map_of {val : Node → Bool} {g : Signal → Signal} (kept : ∀ s, (g s).eval val = s.eval val)
    (f : Fanins) : (f.map g).eval val = f.eval val := by
  simp [Fanins.eval, Fanins.map, kept]

/-- What a run of `replaceInNode` on a live gate does. The gate is unlinked, its uses of `old`
move to the replacement and the redirected fan-ins `r` are worked out; then `r` collapses to a
signal, stored as it is and handed back; or `r` needs the complemented normal form, which
`createMaj` finds or adds after `r` is stored, and hands back; or the normal form `g` of `r` is
stored, and a linked duplicate is handed back or the gate is linked again. -/
theorem replaceInNode_cases {net net' : Network} {parent old : Node} {new : Signal} {f : Fanins}
    {res : Option Signal} (sound : net.Sound) (gate : net.gateFanins parent = some f)
    (run : Returns (Network.replaceInNode parent old new) net res net')
    : ∃ t₁ net₃ u, net.table.unlink parent.id = .ok t₁ ∧
        Returns (forIn (List.range (f.toList.filter (·.node = old)).length) PUnit.unit
          fun _ _ => do
            update (·.removeReference old parent)
            update (·.addReference new.node parent)
            pure (ForInStep.yield PUnit.unit)) { net with table := t₁ } u net₃ ∧
        ∃ r, r = f.map (redirectSignal old new) ∧
          ((∃ s, r.normalize = .trivial s ∧ res = some s ∧ net' = net₃.storeGate parent r) ∨
            (∃ g s, r.normalize = .gate g true ∧ res = some s ∧
              Returns (createMaj r.a r.b r.c) (net₃.storeGate parent r) s net') ∨
            (∃ g, r.normalize = .gate g false ∧
              ((∃ e, (net₃.storeGate parent g).table.find (NodeData.majority g) = some e ∧
                  e ≠ parent.id ∧ res = some (Signal.make ⟨e⟩ false) ∧
                  net' = net₃.storeGate parent g) ∨
                (res = none ∧
                  ((net₃.storeGate parent g).table.find (NodeData.majority g) = none ∨
                    (net₃.storeGate parent g).table.find (NodeData.majority g) = some parent.id) ∧
                  ∃ t, (net₃.storeGate parent g).table.link parent.id = .ok t ∧
                    net' = { net₃.storeGate parent g with table := t })))) := by
  unfold Network.replaceInNode at run
  obtain ⟨_, net₁, unlinking, afterUnlink⟩ := run.bind
  obtain ⟨t₁, unlinked, rfl⟩ := updateTable_eq_ok.mp (returns_update.mp unlinking)
  obtain ⟨-, gates₁, -⟩ := sound.unlink unlinked
  have gate₁ : ({ net with table := t₁ } : Network).gateFanins parent = some f := by
    rw [gates₁]
    exact gate
  obtain ⟨d, net₂, reading, afterRead⟩ := afterUnlink.bind
  obtain ⟨read, rfl⟩ := returns_query.mp reading
  rw [data_of_gateFanins gate₁, Except.ok.injEq] at read
  subst read
  obtain ⟨u, net₃, moving, afterMove⟩ := afterRead.bind
  refine ⟨t₁, net₃, u, unlinked, moving, _, rfl, ?_⟩
  have store : ∀ (g : Fanins) (u : Unit) net₄, Returns (update fun net => net.updateTable fun t =>
      pure (t.setValue parent.id (NodeData.majority g))) net₃ u net₄ → net₄ = net₃.storeGate parent g := by
    intro g u net₄ storing
    obtain ⟨t, stored, rfl⟩ := updateTable_eq_ok.mp (returns_update.mp storing)
    cases stored
    rfl
  split at afterMove
  · rename_i s trivial
    obtain ⟨_, net₄, logging, afterLog⟩ := afterMove.bind
    rw [returns_log.mp logging] at afterLog
    obtain ⟨_, net₅, storing, back⟩ := afterLog.bind
    obtain ⟨rfl, rfl⟩ := returns_pure.mp back
    exact .inl ⟨s, trivial, rfl, store _ _ _ storing⟩
  · rename_i g renormal
    obtain ⟨_, net₄, storing, afterStore⟩ := afterMove.bind
    rw [store _ _ _ storing] at afterStore
    obtain ⟨s, net₅, creating, afterCreate⟩ := afterStore.bind
    obtain ⟨_, net₆, logging, back⟩ := afterCreate.bind
    rw [returns_log.mp logging] at back
    obtain ⟨rfl, rfl⟩ := returns_pure.mp back
    exact .inr (.inl ⟨g, s, renormal, rfl, creating⟩)
  · rename_i sorted normal
    obtain ⟨_, net₄, storing, afterStore⟩ := afterMove.bind
    rw [store _ _ _ storing] at afterStore
    obtain ⟨_, net₅, getting, afterGet⟩ := afterStore.bind
    obtain ⟨rfl, rfl⟩ := returns_get.mp getting
    have relink : ∀ u net₆, Returns (update fun net => net.updateTable fun t => t.link parent.id)
        (net₃.storeGate parent sorted) u net₆ →
        ∃ t, (net₃.storeGate parent sorted).table.link parent.id = .ok t ∧
          net₆ = { net₃.storeGate parent sorted with table := t } := by
      intro u net₆ linking
      obtain ⟨t, linked, rfl⟩ := updateTable_eq_ok.mp (returns_update.mp linking)
      exact ⟨t, linked, rfl⟩
    refine .inr (.inr ⟨sorted, normal, ?_⟩)
    split at afterGet
    · rename_i e found
      split at afterGet
      · rename_i other
        obtain ⟨u, net₆, logging, back⟩ := afterGet.bind
        obtain ⟨rfl, rfl⟩ := returns_pure.mp back
        exact .inl ⟨e, found, other, rfl, returns_log.mp logging⟩
      · rename_i same
        obtain ⟨u, net₆, linking, back⟩ := afterGet.bind
        obtain ⟨rfl, rfl⟩ := returns_pure.mp back
        exact .inr ⟨rfl, .inr (by rw [found, Decidable.of_not_not same]), relink u _ linking⟩
    · rename_i missing
      obtain ⟨u, net₆, linking, back⟩ := afterGet.bind
      obtain ⟨rfl, rfl⟩ := returns_pure.mp back
      exact .inr ⟨rfl, .inl missing, relink u _ linking⟩

/-- Redirecting a live gate of a sound network off `old`, onto a replacement that has the value
of `old`, keeps the network sound and a consistent valuation consistent; the signal handed back
is on a node of the network and has the value of the gate. -/
theorem Sound.replaceInNode {net net' : Network} (sound : net.Sound) {parent old : Node}
    {new : Signal} {f : Fanins} {res : Option Signal} (gate : net.gateFanins parent = some f)
    (newBelow : new.node.id < net.size)
    (run : Returns (Network.replaceInNode parent old new) net res net')
    {x : Nat → Bool} {val : Node → Bool} (consistent : net.Consistent x val)
    (same : new.eval val = val old)
    : ∃ val', Follows x net val net' val' ∧
        ∀ s, res = some s → s.node.id < net'.size ∧ s.eval val' = val parent := by
  unfold Network.replaceInNode at run
  -- the gate is unlinked first
  obtain ⟨_, net₁, unlinking, afterUnlink⟩ := run.bind
  obtain ⟨t₁, unlinked, rfl⟩ := updateTable_eq_ok.mp (returns_update.mp unlinking)
  obtain ⟨sound₁, gates₁, parentUnlinked⟩ := sound.unlink unlinked
  have values₁ := (sound.indexed.unlink unlinked).2.2.1
  have gate₁ : ({ net with table := t₁ } : Network).gateFanins parent = some f := by
    rw [gates₁]
    exact gate
  obtain ⟨d, net₂, reading, afterRead⟩ := afterUnlink.bind
  obtain ⟨read, rfl⟩ := returns_query.mp reading
  rw [data_of_gateFanins gate₁, Except.ok.injEq] at read
  subst read
  -- its uses move from `old` to the replacement
  obtain ⟨_, net₃, moving, afterMove⟩ := afterRead.bind
  have parentGate : ∃ d, ({ net with table := t₁ } : Network).table.valueAt parent.id = some d ∧
      d.isGate = true := by
    obtain ⟨c, _, cell, _, value, _⟩ := gateFanins_eq_some.mp gate₁
    exact ⟨c.value, by simp [UniqueTable.valueAt, cell], by
      simp [value, NodeData.majority, NodeData.isGate]⟩
  obtain ⟨sound₃, table₃, inputs₃, outputs₃, gates₃⟩ := sound₁.moveUses parentGate moving
  have gate₃ : net₃.gateFanins parent = some f := by rw [gates₃]; exact gate₁
  have size₃ : net₃.size = net.size := by
    simp only [Network.size, UniqueTable.size, table₃]
    exact (sound.indexed.unlink unlinked).2.1
  have follows₃ : Follows x net val net₃ val :=
    ⟨sound₃, ⟨consistent.constant, fun i n input => consistent.inputs i n (inputs₃ ▸ input),
      fun g f' gate' => consistent.gates g f' (by rw [← gates₁, ← gates₃]; exact gate')⟩,
      Nat.le_of_eq size₃.symm, fun _ _ => rfl, inputs₃, outputs₃,
      KeepsGateRecords.of_values fun i _ => by rw [table₃]; exact values₁ i⟩
  -- the redirected fan-ins keep the value of the gate, on nodes of the network
  generalize redirected : Fanins.map (fun s => if s.node = old then new.xor s.isComplemented else s)
    (NodeData.majority f).fanins = f' at afterMove
  have value : f'.eval val = val parent := by
    rw [← redirected, eval_map_of (eval_redirect same)]
    exact (consistent.gates parent f gate).symm
  have below : ∀ s ∈ f'.toList, s.node.id < net₃.size := by
    intro s member
    rw [size₃, ← redirected, Fanins.toList_map] at *
    obtain ⟨t, tMember, rfl⟩ := List.mem_map.mp member
    rw [node_redirect]
    split
    · exact newBelow
    · exact sound.faninsBelow parent f gate t tMember
  have unlinked₃ : net₃.table.linkedAt parent.id = false := by rw [table₃]; exact parentUnlinked
  -- storing a record with the value of the gate keeps the network sound and consistent
  have store : ∀ (g : Fanins) (u : Unit) net₄, g.eval val = val parent →
      (∀ s ∈ g.toList, s.node.id < net₃.size) →
      Returns (update fun net => net.updateTable fun t =>
        pure (t.setValue parent.id (NodeData.majority g))) net₃ u net₄ →
      net₄ = net₃.storeGate parent g ∧ Follows x net val net₄ val ∧
        net₄.gateFanins parent = some g := by
    intro g u net₄ gValue gBelow storing
    obtain ⟨t, stored, rfl⟩ := updateTable_eq_ok.mp (returns_update.mp storing)
    cases stored
    refine ⟨rfl, follows₃.trans ⟨sound₃.store gate₃ unlinked₃ gBelow,
      follows₃.consistent.store gate₃ gValue, Nat.le_of_eq (size_storeGate parent g).symm,
      fun _ _ => rfl, rfl, rfl, storeGate_keepsGateRecords parent g⟩, ?_⟩
    show (net₃.storeGate parent g).gateFanins parent = some g
    rw [gateFanins_storeGate gate₃, if_pos rfl]
  have belowNet : ∀ s ∈ f'.toList, s.node.id < net.size := fun s member => size₃ ▸ below s member
  split at afterMove
  · -- the gate collapses to one of its redirected fan-ins
    rename_i s trivial
    obtain ⟨_, net₄, logging, afterLog⟩ := afterMove.bind
    rw [returns_log.mp logging] at afterLog
    obtain ⟨_, net₅, storing, back⟩ := afterLog.bind
    obtain ⟨rfl, rfl⟩ := returns_pure.mp back
    obtain ⟨-, follows₅, -⟩ := store f' _ net' value below storing
    refine ⟨val, follows₅, fun s' returned => ?_⟩
    cases returned
    have member := Fanins.mem_of_normalize_eq_trivial trivial
    exact ⟨Nat.lt_of_lt_of_le (belowNet s member) follows₅.size,
      (Fanins.eval_of_normalize_eq_trivial val trivial).trans value⟩
  · -- the gate needs the complemented normal form, which `createMaj` finds or adds
    rename_i g renormal
    obtain ⟨_, net₄, storing, afterStore⟩ := afterMove.bind
    obtain ⟨rfl, follows₄, -⟩ := store f' _ net₄ value below storing
    obtain ⟨s, net₅, creating, afterCreate⟩ := afterStore.bind
    have below₄ : ∀ t ∈ [f'.a, f'.b, f'.c], t.node.id < (net₃.storeGate parent f').size :=
      fun t member => Nat.lt_of_lt_of_le (belowNet t member) follows₄.size
    obtain ⟨val', follows₅, sValue⟩ :=
      follows₄.sound.follows_createMaj below₄ creating follows₄.consistent
    have sBelow := (follows₄.sound.createMaj below₄ creating).2.2
    obtain ⟨_, net₆, logging, back⟩ := afterCreate.bind
    rw [returns_log.mp logging] at back
    obtain ⟨rfl, rfl⟩ := returns_pure.mp back
    refine ⟨val', follows₄.trans follows₅, fun s' returned => ?_⟩
    cases returned
    exact ⟨sBelow, sValue.trans value⟩
  · -- the gate is in normal form: a live duplicate replaces it, or it is linked again
    rename_i sorted normal
    have sortedValue : sorted.eval val = val parent := by
      rw [← value, ← Fanins.eval_of_normalize_eq_gate val normal, Bool.xor_false]
    have sortedBelow := Fanins.forall_nodes_of_normalize (fun n => n.id < net₃.size) normal below
    obtain ⟨_, net₄, storing, afterStore⟩ := afterMove.bind
    obtain ⟨rfl, follows₄, gate₄⟩ := store sorted _ net₄ sortedValue sortedBelow storing
    obtain ⟨_, net₅, getting, afterGet⟩ := afterStore.bind
    obtain ⟨rfl, rfl⟩ := returns_get.mp getting
    -- linking the gate again keeps everything
    have relink : ∀ u net₆, Returns (update fun net => net.updateTable fun t => t.link parent.id)
        (net₃.storeGate parent sorted) u net₆ → Follows x net val net₆ val := by
      intro u net₆ linking
      obtain ⟨t, linked, rfl⟩ := updateTable_eq_ok.mp (returns_update.mp linking)
      obtain ⟨sound₆, gates₆⟩ := follows₄.sound.link gate₄ linked
      have size₆ := (follows₄.sound.indexed.link linked).2.1
      exact follows₄.trans ⟨sound₆, ⟨follows₄.consistent.constant, follows₄.consistent.inputs,
        fun g f'' gate' => follows₄.consistent.gates g f'' ((gates₆ g) ▸ gate')⟩,
        Nat.le_of_eq size₆.symm, fun _ _ => rfl, rfl, rfl,
        KeepsGateRecords.of_values fun i _ => (follows₄.sound.indexed.link linked).2.2.1 i⟩
    split at afterGet
    · rename_i e found
      split at afterGet
      · -- a live gate over the same fan-ins has the value of the gate
        obtain ⟨u, net₆, logging, back⟩ := afterGet.bind
        obtain ⟨rfl, rfl⟩ := returns_pure.mp back
        rw [returns_log.mp logging]
        have duplicate := follows₄.sound.gateFanins_of_find found
        refine ⟨val, follows₄, fun s' returned => ?_⟩
        cases returned
        refine ⟨by rw [Signal.node_make]; exact lt_size_of_gateFanins duplicate, ?_⟩
        rw [Signal.eval_make, Bool.xor_false, follows₄.consistent.gates ⟨e⟩ sorted duplicate,
          sortedValue]
      · obtain ⟨u, net₆, linking, back⟩ := afterGet.bind
        obtain ⟨rfl, rfl⟩ := returns_pure.mp back
        exact ⟨val, relink u _ linking, fun s' returned => by cases returned⟩
    · obtain ⟨u, net₆, linking, back⟩ := afterGet.bind
      obtain ⟨rfl, rfl⟩ := returns_pure.mp back
      exact ⟨val, relink u _ linking, fun s' returned => by cases returned⟩

end Network

end MajorityGraph
