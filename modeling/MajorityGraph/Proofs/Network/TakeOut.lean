import MajorityGraph.Proofs.Network.Gates

/-!
Taking gates out adds nothing: the live gates after the walk are live before it, over the same
fan-ins.
-/

namespace MajorityGraph

/-- One use fewer of a node by the gate `p`: the count drops and the first entry of `p` among
the parents is removed by swapping. -/
def NodeRefs.withoutUse (p : Node) (r : NodeRefs) : NodeRefs :=
  ⟨r.fanout - 1,
    match r.parents.findIdx? (· == p) with
    | some i => Network.swapRemove r.parents i
    | none => r.parents,
    r.dead⟩

@[simp] theorem NodeRefs.dead_withoutUse (p : Node) (r : NodeRefs) : (r.withoutUse p).dead = r.dead :=
  rfl

@[simp] theorem NodeRefs.fanout_withoutUse (p : Node) (r : NodeRefs)
    : (r.withoutUse p).fanout = r.fanout - 1 := rfl

namespace Network

-----------------------------------------------------------------------------------------
-- Removal by swapping
-----------------------------------------------------------------------------------------

section SwapRemove

variable {α : Type} [Inhabited α]

/-- Dropping the last element drops one count of it. -/
theorem count_pop [BEq α] (xs : Array α) (g : α)
    : xs.pop.count g = xs.count g - if xs.back! == g then 1 else 0 := by
  by_cases empty : xs.size = 0
  · have : xs = #[] := Array.eq_empty_of_size_eq_zero empty
    subst this
    simp
  · have split : xs = xs.pop.push xs.back! := Array.eq_push_pop_back!_of_size_ne_zero empty
    have counted : xs.count g = xs.pop.count g + if xs.back! == g then 1 else 0 := by
      conv => lhs; rw [split]
      rw [Array.count_push]
    omega

/-- Removal by swapping takes one element out of the array. -/
theorem size_swapRemove (xs : Array α) (i : Nat) : (swapRemove xs i).size = xs.size - 1 := by
  unfold swapRemove
  split <;> simp

/-- Removal by swapping drops one count of the element it removes and keeps the others. -/
theorem count_swapRemove [BEq α] [LawfulBEq α] {xs : Array α} {i : Nat} (lt : i < xs.size) (g : α)
    : (swapRemove xs i).count g = xs.count g - if xs[i] == g then 1 else 0 := by
  have counted := Array.boole_getElem_le_count lt (a := g)
  unfold swapRemove
  split
  · rename_i inner
    have lastLt : xs.size - 1 < xs.size := by omega
    have moved : xs.getD (xs.size - 1) default = xs[xs.size - 1] := by simp [Array.getD, lastLt]
    -- the last element moves to position `i`, and the copy at the end goes
    have back : (xs.set! i xs[xs.size - 1]).back! = xs[xs.size - 1] := by
      rw [Array.back!, Array.size_set!, Array.getElem!_set!_ne xs i _ _ (by omega),
        getElem!_pos xs _ lastLt]
    have set : xs.set! i xs[xs.size - 1] = xs.set i xs[xs.size - 1] lt := by
      rw [Array.set!_eq_setIfInBounds, Array.setIfInBounds, dif_pos lt]
    rw [moved, count_pop, back, set, Array.count_set lt]
    split <;> split <;> omega
  · rename_i last
    have isLast : xs.size - 1 = i := by omega
    rw [count_pop, Array.back!, isLast, getElem!_pos xs i lt]

end SwapRemove

/-- Dropping a use by `p` drops one entry of `p` among the parents, when there is one. -/
theorem count_withoutUse (p : Node) (r : NodeRefs) (g : Node)
    : (r.withoutUse p).parents.count g = r.parents.count g - if p = g then 1 else 0 := by
  simp only [NodeRefs.withoutUse]
  split
  · rename_i i found
    obtain ⟨lt, isP, _⟩ := Array.findIdx?_eq_some_iff_getElem.mp found
    rw [count_swapRemove lt]
    simp only [beq_iff_eq] at isP
    rw [isP]
    simp
  · rename_i missing
    by_cases same : p = g
    · subst same
      have absent : r.parents.count p = 0 := by
        rw [Array.count_eq_zero]
        intro member
        obtain ⟨i, lt, found⟩ := Array.mem_iff_getElem.mp member
        have := Array.of_findIdx?_eq_none missing i
        simp [Array.getElem?_eq_getElem lt, found] at this
      rw [absent, if_pos rfl]
    · rw [if_neg same, Nat.sub_zero]

/-- Dropping a use leaves no parent that was not one before. -/
theorem mem_of_mem_withoutUse {p g : Node} {r : NodeRefs} (member : g ∈ (r.withoutUse p).parents)
    : g ∈ r.parents := by
  have := Array.count_pos_iff.mpr member
  rw [count_withoutUse] at this
  exact Array.count_pos_iff.mp (by omega)

-----------------------------------------------------------------------------------------
-- Shrinking networks
-----------------------------------------------------------------------------------------

/-- `net'` keeps the nodes, records, inputs and outputs of `net`, and each of its live gates is
a live gate of `net` over the same fan-ins. -/
structure Shrinks (net net' : Network) : Prop where
  size : net'.size = net.size
  gates : ∀ g f, net'.gateFanins g = some f → net.gateFanins g = some f
  inputs : net'.inputs = net.inputs
  outputs : net'.outputs = net.outputs
  values : ∀ i, net'.table.valueAt i = net.table.valueAt i

theorem Shrinks.refl (net : Network) : Shrinks net net :=
  ⟨rfl, fun _ _ gate => gate, rfl, rfl, fun _ => rfl⟩

theorem Shrinks.trans {net net' net'' : Network} (first : Shrinks net net')
    (second : Shrinks net' net'') : Shrinks net net'' :=
  ⟨second.size.trans first.size, fun g f gate => first.gates g f (second.gates g f gate),
    second.inputs.trans first.inputs, second.outputs.trans first.outputs,
    fun i => (second.values i).trans (first.values i)⟩

/-- A valuation consistent with a network is consistent with every network it shrinks to. -/
theorem Consistent.shrinks {net net' : Network} {x : Nat → Bool} {val : Node → Bool}
    (consistent : net.Consistent x val) (shrinks : Shrinks net net') : net'.Consistent x val :=
  ⟨consistent.constant, fun i n input => consistent.inputs i n (shrinks.inputs ▸ input),
    fun g f gate => consistent.gates g f (shrinks.gates g f gate)⟩

/-- A shrunk sound network follows with the same valuation. -/
theorem Shrinks.follows {net net' : Network} (shrinks : Shrinks net net') (sound : net'.Sound)
    {x : Nat → Bool} {val : Node → Bool} (consistent : net.Consistent x val)
    : Follows x net val net' val :=
  ⟨sound, consistent.shrinks shrinks, Nat.le_of_eq shrinks.size.symm, fun _ _ => rfl,
    shrinks.inputs, shrinks.outputs, KeepsGateRecords.of_values fun i _ => shrinks.values i⟩

-----------------------------------------------------------------------------------------
-- Dropping a use
-----------------------------------------------------------------------------------------

/-- Dropping a use changes the uses of the child alone; it fails when the child has no
fan-out left. -/
theorem removeReference_eq_ok {net net' : Network} {child parent : Node}
    : net.removeReference child parent = .ok net' ↔
        ∃ r, net.refsOf child = .ok r ∧ r.fanout ≠ 0 ∧
          net' = ⟨net.table, net.refs.modify child.id (NodeRefs.withoutUse parent), net.inputs,
            net.outputs, net.numGates⟩ := by
  unfold removeReference
  cases found : net.refsOf child with
  | error e => simp [bind, Except.bind]
  | ok r =>
      by_cases empty : r.fanout = 0
      · simp [bind, Except.bind, empty, throw, throwThe, MonadExceptOf.throw]
      · simp only [bind, Except.bind, empty, beq_iff_eq, if_false, modifyRefs_eq_ok _ found]
        constructor
        · intro done
          cases done
          exact ⟨r, rfl, empty, rfl⟩
        · rintro ⟨r', _, _, rfl⟩
          rfl

/-- Dropping a use keeps the live gates. -/
theorem gateFanins_removeReference {net net' : Network} {child parent : Node}
    (removed : net.removeReference child parent = .ok net') (n : Node)
    : net'.gateFanins n = net.gateFanins n := by
  obtain ⟨r, _, _, same⟩ := removeReference_eq_ok.mp removed
  exact gateFanins_of_modify (by rw [same]) (by rw [same]) (NodeRefs.dead_withoutUse parent) n

/-- Dropping a use keeps a network sound and changes none of its live gates. -/
theorem Sound.removeReference {net net' : Network} (sound : net.Sound) {child parent : Node}
    (removed : net.removeReference child parent = .ok net') : net'.Sound ∧ Shrinks net net' := by
  have gates := gateFanins_removeReference removed
  obtain ⟨r, _, _, rfl⟩ := removeReference_eq_ok.mp removed
  refine ⟨sound.of_uses rfl rfl (by simp) gates sound.outputsBelow fun n r' g uses member => ?_,
    rfl, fun g f gate => (gates g).symm.trans gate, rfl, rfl, fun _ => rfl⟩
  -- the parents after the change were parents before it
  simp only [Array.getElem?_modify] at uses
  split at uses
  · obtain ⟨r₀, uses₀, rfl⟩ := Option.map_eq_some_iff.mp uses
    rename_i same
    exact sound.parentsGates n r₀ g (same ▸ uses₀) (mem_of_mem_withoutUse member)
  · exact sound.parentsGates n r' g uses member

/-- Dropping a use keeps every use count within its counter. -/
theorem FanoutFits.removeReference {net net' : Network} (fits : net.FanoutFits) {child parent : Node}
    (removed : net.removeReference child parent = .ok net') : net'.FanoutFits := by
  obtain ⟨r, _, _, rfl⟩ := removeReference_eq_ok.mp removed
  exact fits.modify rfl fun r₀ uses₀ => by
    rw [NodeRefs.fanout_withoutUse]
    exact Nat.le_trans (Nat.sub_le _ _) (fits child r₀ uses₀)

-----------------------------------------------------------------------------------------
-- Taking one gate out
-----------------------------------------------------------------------------------------

section TakeOutGate

variable {net net' : Network} {n : Node} {t : UniqueTable NodeData}

/-- The network after gate `n` is unlinked into `t`, marked dead and no longer counted. -/
def killed (net : Network) (n : Node) (t : UniqueTable NodeData) : Network :=
  ⟨t, net.refs.modify n.id fun r => { r with dead := true }, net.inputs, net.outputs,
    net.numGates - 1⟩

/-- The kill step succeeds exactly when the gate unlinks and the gate count is not zero, and then
leaves the network `killed`. -/
theorem kill_eq_ok : net.kill n = .ok net' ↔
    ∃ t, net.table.unlink n.id = .ok t ∧ net.numGates ≠ 0 ∧ net' = net.killed n t := by
  obtain ⟨table, refs, inputs, outputs, numGates⟩ := net
  cases found : table.unlink n.id with
  | error e => simp [kill, found, bind, Except.bind]
  | ok t =>
      by_cases zero : numGates = 0
      · simp [kill, found, zero, bind, Except.bind, throw, throwThe, MonadExceptOf.throw]
      · simp only [kill, found, zero, bind, Except.bind, pure, Except.pure, if_false,
          Except.ok.injEq, Except.ok.injEq, exists_eq_left', ne_eq, not_false_eq_true, true_and]
        exact ⟨fun same => same.symm, fun same => same.symm⟩

/-- A dead gate is no live gate; the others stay. -/
theorem gateFanins_killed (indexed : net.table.Indexed) (unlinked : net.table.unlink n.id = .ok t)
    (g : Node) : (net.killed n t).gateFanins g = if g = n then none else net.gateFanins g := by
  obtain ⟨-, -, values, -⟩ := indexed.unlink unlinked
  rw [gateFanins_eq, gateFanins_eq]
  simp only [killed, values, Array.getElem?_modify]
  by_cases same : g = n
  · subst same
    cases net.table.valueAt g.id <;> cases net.refs[g.id]? <;> simp
  · have other : n.id ≠ g.id := fun ids => same (congrArg Node.mk ids).symm
    simp [same, other]

/-- Taking a gate out keeps a network sound, and only shrinks it. -/
theorem Sound.kill (sound : net.Sound) (unlinked : net.table.unlink n.id = .ok t)
    : (net.killed n t).Sound ∧ Shrinks net (net.killed n t) := by
  obtain ⟨indexed, size, values, links⟩ := sound.indexed.unlink unlinked
  have gates := gateFanins_killed sound.indexed unlinked
  have sameSize : (net.killed n t).size = net.size := size
  have shrinks : Shrinks net (net.killed n t) := by
    refine ⟨sameSize, fun g f gate => ?_, rfl, rfl, values⟩
    rw [gates] at gate
    split at gate
    · cases gate
    · exact gate
  refine ⟨{
    sizes := by simp only [killed, Array.size_modify]; rw [size, sound.sizes]
    constant := by simp only [killed]; rw [values]; exact sound.constant
    indexed := indexed
    linkedGate := fun i linked => ?_
    inputsBelow := fun m member => sameSize ▸ sound.inputsBelow m member
    outputsBelow := fun s member => sameSize ▸ sound.outputsBelow s member
    faninsBelow := fun g f gate s member =>
      sameSize ▸ sound.faninsBelow g f (shrinks.gates g f gate) s member
    parentsGates := fun m r g uses member => ?_ }, shrinks⟩
  · -- the unlinked gate is no longer linked, and the others are still live
    simp only [killed, links, Bool.and_eq_true, bne_iff_ne, ne_eq] at linked
    obtain ⟨other, linked⟩ := linked
    rw [gates, if_neg fun same => other (congrArg Node.id same)]
    exact sound.linkedGate i linked
  · simp only [killed, Array.getElem?_modify] at uses
    simp only [killed, values]
    split at uses
    · obtain ⟨r₀, uses₀, rfl⟩ := Option.map_eq_some_iff.mp uses
      rename_i same
      exact sound.parentsGates m r₀ g (same ▸ uses₀) member
    · exact sound.parentsGates m r g uses member

end TakeOutGate

-----------------------------------------------------------------------------------------
-- The take-out walk
-----------------------------------------------------------------------------------------

open NetM

/-- The take-out walk keeps a network sound and only shrinks it. -/
theorem Sound.takeOutLoop : ∀ (fuel : Nat) (stack : List Node) {net net' : Network} {u : Unit},
    net.Sound → Returns (Network.takeOutLoop fuel stack) net u net' → net'.Sound ∧ Shrinks net net'
  | 0, _, _, _, _, _, run => absurd run not_returns_throw
  | fuel + 1, [], net, net', u, sound, run => by
      simp only [Network.takeOutLoop] at run
      obtain ⟨-, rfl⟩ := returns_pure.mp run
      exact ⟨sound, Shrinks.refl _⟩
  | fuel + 1, n :: stack, net, net', u, sound, run => by
      unfold Network.takeOutLoop at run
      obtain ⟨d, net₁, readD, afterData⟩ := run.bind
      obtain ⟨-, rfl⟩ := returns_query.mp readD
      obtain ⟨r, net₂, readR, afterRefs⟩ := afterData.bind
      obtain ⟨-, rfl⟩ := returns_query.mp readR
      split at afterRefs
      · exact Sound.takeOutLoop fuel stack sound afterRefs
      · obtain ⟨_, net₃, logged, afterLog⟩ := afterRefs.bind
        rw [returns_log] at logged
        rw [logged] at afterLog
        obtain ⟨_, net₄, killing, afterKill⟩ := afterLog.bind
        rw [returns_update] at killing
        -- the gate is unlinked and marked dead
        obtain ⟨t, unlinked, -, rfl⟩ := kill_eq_ok.mp killing
        obtain ⟨killedSound, killedShrinks⟩ := sound.kill unlinked
        obtain ⟨stack', net₅, loop, rest⟩ := afterKill.bind
        -- dropping its uses of the fan-ins keeps the network sound and shrinking
        have dropped : net₅.Sound ∧ Shrinks (net₂.killed n t) net₅ := by
          refine Returns.forIn_list (fun net _ => net.Sound ∧ Shrinks (net₂.killed n t) net) ?_
            ⟨killedSound, Shrinks.refl _⟩ loop
          intro f _ s net₆ step net₇ kept body
          obtain ⟨_, net₈, removing, afterRemove⟩ := body.bind
          rw [returns_update] at removing
          obtain ⟨removedSound, removedShrinks⟩ := kept.1.removeReference removing
          obtain ⟨count, net₉, counting, afterCount⟩ := afterRemove.bind
          rw [(returns_query.mp counting).2] at afterCount
          have same : net₇ = net₈ := by
            split at afterCount <;> exact (returns_pure.mp afterCount).2
          rw [same]
          exact ⟨removedSound, kept.2.trans removedShrinks⟩
        obtain ⟨finalSound, finalShrinks⟩ := Sound.takeOutLoop fuel stack' dropped.1 rest
        exact ⟨finalSound, killedShrinks.trans (dropped.2.trans finalShrinks)⟩

/-- Taking a node out keeps a network sound and only shrinks it. -/
theorem Sound.takeOutNode {net net' : Network} {n : Node} {u : Unit} (sound : net.Sound)
    (run : Returns (Network.takeOutNode n) net u net') : net'.Sound ∧ Shrinks net net' := by
  unfold Network.takeOutNode at run
  obtain ⟨net₀, net₁, read, walk⟩ := run.bind
  obtain ⟨rfl, rfl⟩ := returns_get.mp read
  exact sound.takeOutLoop _ _ walk

end Network

end MajorityGraph
