import MajorityGraph.Proofs.Network.Redirect
import MajorityGraph.Proofs.Network.Reach

/-!
Coherence through the steps of a substitution: unlinking, rewiring, relinking and adding gates
each keep a network coherent.
-/

namespace MajorityGraph

namespace Network

open NetM

-----------------------------------------------------------------------------------------
-- Counting uses
-----------------------------------------------------------------------------------------

/-- The recorded uses of every node: its fan-out counts its outputs and its parents, and the
parents hold `slotsOf g n` entries of each gate `g`. A coherent network counts the fan-in slots
of its live gates; while a gate's uses move, the count runs apart from the stored fan-ins. -/
def UsesCount (net : Network) (slotsOf : Node → Node → Nat) : Prop :=
  ∀ n r, net.refs[n.id]? = some r →
    r.fanout = net.outputUses n + r.parents.size ∧ ∀ g, r.parents.count g = slotsOf g n

section UsesCount

variable {net net' : Network} {slotsOf : Node → Node → Nat}

theorem Coherent.usesCount (coherent : net.Coherent) : net.UsesCount net.slots :=
  fun n r uses => ⟨coherent.fanout n r uses, fun g => coherent.parents n r g uses⟩

theorem UsesCount.congr {other : Node → Node → Nat} (counted : net.UsesCount slotsOf)
    (same : ∀ g n, slotsOf g n = other g n) : net.UsesCount other := by
  intro n r uses
  obtain ⟨fanout, parents⟩ := counted n r uses
  exact ⟨fanout, fun g => (parents g).trans (same g n)⟩

/-- Dropping a recorded use takes one entry out of the parents. -/
theorem size_withoutUse {p : Node} {r : NodeRefs} (present : 0 < r.parents.count p)
    : (r.withoutUse p).parents.size = r.parents.size - 1 := by
  simp only [NodeRefs.withoutUse]
  split
  · exact size_swapRemove _ _
  · rename_i missing
    obtain ⟨i, lt, found⟩ := Array.mem_iff_getElem.mp (Array.count_pos_iff.mp present)
    have := Array.of_findIdx?_eq_none missing i
    simp [Array.getElem?_eq_getElem lt, found] at this

/-- Dropping a use of `child` by `parent` that the count records lowers that count. -/
theorem UsesCount.removeReference (counted : net.UsesCount slotsOf) {child parent : Node}
    (recorded : 0 < slotsOf parent child) (removed : net.removeReference child parent = .ok net')
    : net'.UsesCount fun g n => slotsOf g n - if g = parent ∧ n = child then 1 else 0 := by
  obtain ⟨r₀, _, _, rfl⟩ := removeReference_eq_ok.mp removed
  intro n r uses
  simp only [Array.getElem?_modify] at uses
  split at uses
  · rename_i here
    obtain ⟨r₁, uses₁, rfl⟩ := Option.map_eq_some_iff.mp uses
    have same : child = n := congrArg Node.mk here
    subst same
    obtain ⟨fanout, parents⟩ := counted child r₁ uses₁
    have present : 0 < r₁.parents.count parent := by rw [parents]; exact recorded
    have atLeast := Nat.lt_of_lt_of_le present Array.count_le_size
    refine ⟨?_, fun g => ?_⟩
    · simp only [NodeRefs.fanout_withoutUse, size_withoutUse present, fanout, outputUses]
      omega
    · rw [count_withoutUse, parents]
      by_cases isParent : g = parent
      · simp [isParent]
      · simp [isParent, Ne.symm isParent]
  · rename_i other
    obtain ⟨fanout, parents⟩ := counted n r uses
    have notChild : n ≠ child := fun same => other (by rw [same])
    exact ⟨fanout, fun g => by simp [parents g, notChild]⟩

/-- Recording a use of `child` by `parent` raises that count. -/
theorem UsesCount.addReference (counted : net.UsesCount slotsOf) {child parent : Node}
    (added : net.addReference child parent = .ok net')
    : net'.UsesCount fun g n => slotsOf g n + if g = parent ∧ n = child then 1 else 0 := by
  obtain ⟨r₀, _, _, rfl⟩ := addReference_eq_ok_iff.mp added
  intro n r uses
  simp only [Array.getElem?_modify] at uses
  split at uses
  · rename_i here
    obtain ⟨r₁, uses₁, rfl⟩ := Option.map_eq_some_iff.mp uses
    have same : child = n := congrArg Node.mk here
    subst same
    obtain ⟨fanout, parents⟩ := counted child r₁ uses₁
    refine ⟨?_, fun g => ?_⟩
    · simp only [NodeRefs.fanout_withUse, NodeRefs.parents_withUse, fanout, outputUses,
        Array.size_push]
      omega
    · simp only [NodeRefs.parents_withUse, Array.count_push, parents]
      by_cases isParent : g = parent
      · simp [isParent]
      · simp [isParent, Ne.symm isParent]
  · rename_i other
    obtain ⟨fanout, parents⟩ := counted n r uses
    have notChild : n ≠ child := fun same => other (by rw [same])
    exact ⟨fanout, fun g => by simp [parents g, notChild]⟩

/-- Counts carry over to a network with the same uses and outputs. -/
theorem UsesCount.of_refs (counted : net.UsesCount slotsOf) (refs : net'.refs = net.refs)
    (outputs : net'.outputs = net.outputs) : net'.UsesCount slotsOf := by
  intro n r uses
  rw [refs] at uses
  obtain ⟨fanout, parents⟩ := counted n r uses
  exact ⟨by rw [fanout]; simp only [outputUses, outputs], parents⟩

/-- Moving `k` uses by `parent` from `old` to `child`, when the count records at least `k` of
them on `old`, moves them in the count. -/
theorem UsesCount.moveUses (counted : net.UsesCount slotsOf) {old child parent : Node} {k : Nat}
    {u : PUnit} (apart : child ≠ old) (enough : k ≤ slotsOf parent old)
    (run : Returns (forIn (List.range k) PUnit.unit fun _ _ => do
        update (·.removeReference old parent)
        update (·.addReference child parent)
        pure (ForInStep.yield PUnit.unit)) net u net')
    : net'.UsesCount fun g n => slotsOf g n - (if g = parent ∧ n = old then k else 0) +
        (if g = parent ∧ n = child then k else 0) := by
  -- after `i` moves, `i` uses have left `old` and reached `child`
  let moved (i : Nat) (g n : Node) : Nat := slotsOf g n - (if g = parent ∧ n = old then i else 0) +
    (if g = parent ∧ n = child then i else 0)
  refine Returns.forIn_range (fun i net₁ _ => net₁.UsesCount (moved i)) ?_
    (counted.congr fun g n => by simp [moved]) run
  intro i lt _ net₁ r net₂ counted₁ body
  obtain ⟨_, net₃, removing, afterRemove⟩ := body.bind
  obtain ⟨_, net₄, adding, afterAdd⟩ := afterRemove.bind
  obtain ⟨rfl, rfl⟩ := returns_pure.mp afterAdd
  have left : 0 < moved i parent old := by
    simp only [moved, and_self, if_true, Ne.symm apart, and_false, if_false]
    omega
  have removed := counted₁.removeReference left (returns_update.mp removing)
  refine ⟨rfl, (removed.addReference (returns_update.mp adding)).congr fun g n => ?_⟩
  simp only [moved]
  by_cases isParent : g = parent <;> by_cases isOld : n = old <;> by_cases isChild : n = child <;>
    simp [isParent, isOld, isChild, apart, Ne.symm apart] <;> omega

end UsesCount

-----------------------------------------------------------------------------------------
-- Moving uses keeps everything else
-----------------------------------------------------------------------------------------

section Frame

variable {net net' : Network}

/-- A change of uses that keeps every dead flag keeps the live nodes. -/
theorem live_of_dead (dead : ∀ i : Nat, (net'.refs[i]?).map NodeRefs.dead = (net.refs[i]?).map NodeRefs.dead)
    (n : Node) : net'.Live n ↔ net.Live n := by
  have same := dead n.id
  unfold Live
  cases uses' : net'.refs[n.id]? <;> cases uses : net.refs[n.id]? <;> simp_all

/-- A change of uses that keeps the table and every dead flag keeps the live gates. -/
theorem gateFanins_of_dead (table : net'.table = net.table)
    (dead : ∀ i : Nat, (net'.refs[i]?).map NodeRefs.dead = (net.refs[i]?).map NodeRefs.dead)
    (g : Node) : net'.gateFanins g = net.gateFanins g := by
  have same := dead g.id
  unfold gateFanins
  rw [table]
  cases net.table.cells[g.id]? <;> cases uses' : net'.refs[g.id]? <;>
    cases uses : net.refs[g.id]? <;> simp_all

/-- Changing the uses of one node by a map that keeps the dead flag keeps every dead flag. -/
theorem dead_modify (refs : Array NodeRefs) (j : Nat) {g : NodeRefs → NodeRefs}
    (keepsDead : ∀ r, (g r).dead = r.dead) (i : Nat)
    : ((refs.modify j g)[i]?).map NodeRefs.dead = (refs[i]?).map NodeRefs.dead := by
  simp only [Array.getElem?_modify]
  split
  · cases refs[i]? <;> simp [keepsDead]
  · rfl

/-- Moving uses changes the uses alone: the records, the inputs, the outputs, the gate count and
every dead flag stay. -/
theorem moveUses_frame {old child parent : Node} {k : Nat} {u : PUnit}
    (run : Returns (forIn (List.range k) PUnit.unit fun _ _ => do
        update (·.removeReference old parent)
        update (·.addReference child parent)
        pure (ForInStep.yield PUnit.unit)) net u net')
    : net'.table = net.table ∧ net'.inputs = net.inputs ∧ net'.outputs = net.outputs ∧
        net'.numGates = net.numGates ∧ net'.refs.size = net.refs.size ∧
        ∀ i : Nat, (net'.refs[i]?).map NodeRefs.dead = (net.refs[i]?).map NodeRefs.dead := by
  refine Returns.forIn_list (fun net₁ _ => net₁.table = net.table ∧ net₁.inputs = net.inputs ∧
      net₁.outputs = net.outputs ∧ net₁.numGates = net.numGates ∧ net₁.refs.size = net.refs.size ∧
      ∀ i : Nat, (net₁.refs[i]?).map NodeRefs.dead = (net.refs[i]?).map NodeRefs.dead) ?_
    ⟨rfl, rfl, rfl, rfl, rfl, fun _ => rfl⟩ run
  intro _ _ _ net₁ step net₂ ⟨table₁, inputs₁, outputs₁, numGates₁, size₁, dead₁⟩ body
  obtain ⟨_, net₃, removing, afterRemove⟩ := body.bind
  obtain ⟨_, net₄, adding, afterAdd⟩ := afterRemove.bind
  rw [(returns_pure.mp afterAdd).2]
  obtain ⟨r, _, _, rfl⟩ := removeReference_eq_ok.mp (returns_update.mp removing)
  obtain ⟨r', _, _, rfl⟩ := addReference_eq_ok_iff.mp (returns_update.mp adding)
  refine ⟨table₁, inputs₁, outputs₁, numGates₁, by simp [size₁], fun i => ?_⟩
  rw [dead_modify _ _ (NodeRefs.dead_withUse parent), dead_modify _ _ (NodeRefs.dead_withoutUse parent)]
  exact dead₁ i

/-- Moving uses keeps every use count within its counter. -/
theorem FanoutFits.moveUses (fits : net.FanoutFits) {old child parent : Node} {k : Nat} {u : PUnit}
    (run : Returns (forIn (List.range k) PUnit.unit fun _ _ => do
        update (·.removeReference old parent)
        update (·.addReference child parent)
        pure (ForInStep.yield PUnit.unit)) net u net')
    : net'.FanoutFits := by
  refine Returns.forIn_list (fun net₁ _ => net₁.FanoutFits) ?_ fits run
  intro _ _ _ net₁ step net₂ fits₁ body
  obtain ⟨_, net₃, removing, afterRemove⟩ := body.bind
  obtain ⟨_, net₄, adding, afterAdd⟩ := afterRemove.bind
  rw [(returns_pure.mp afterAdd).2]
  exact (fits₁.removeReference (returns_update.mp removing)).addReference (returns_update.mp adding)

end Frame

-----------------------------------------------------------------------------------------
-- Redirected nodes
-----------------------------------------------------------------------------------------

/-- The node that `n` becomes when `old` is redirected to `new`. -/
def redirectNode (old new n : Node) : Node := if n = old then new else n

@[simp] theorem redirectNode_old (old new : Node) : redirectNode old new old = new := if_pos rfl

theorem redirectNode_of_ne {old new n : Node} (other : n ≠ old) : redirectNode old new n = n :=
  if_neg other

theorem node_redirectSignal (old : Node) (new s : Signal)
    : (redirectSignal old new s).node = redirectNode old new.node s.node := by
  unfold redirectSignal redirectNode
  split <;> simp

theorem nodes_redirect (old : Node) (new : Signal) (f : Fanins)
    : (f.map (redirectSignal old new)).toList.map Signal.node =
        (f.toList.map Signal.node).map (redirectNode old new.node) := by
  simp [Fanins.toList, Fanins.map, node_redirectSignal]

/-- Redirecting `old` to another node leaves no use of `old`, and moves its uses to `new`. -/
theorem count_map_redirectNode {old new : Node} (apart : new ≠ old) (l : List Node) (n : Node)
    : (l.map (redirectNode old new)).count n =
        if n = old then 0 else if n = new then l.count new + l.count old else l.count n := by
  induction l with
  | nil => split <;> (try split) <;> rfl
  | cons m rest ih =>
      simp only [List.map_cons, List.count_cons, ih, beq_iff_eq]
      unfold redirectNode
      by_cases isOld : m = old <;> by_cases atOld : n = old <;> by_cases atNew : n = new <;>
        simp [isOld, atOld, atNew, apart, Ne.symm apart, @eq_comm _ old n, @eq_comm _ new n] <;> omega

/-- The slots of a gate on a node count that node among its fan-in nodes. -/
theorem slots_eq_count (net : Network) (g n : Node) : net.slots g n = (net.faninNodes g).count n := by
  unfold slots faninNodes
  cases net.gateFanins g with
  | none => rfl
  | some f =>
      simp only [List.count, List.countP_map, Function.comp_def]
      rfl

-----------------------------------------------------------------------------------------
-- Unlinking and linking
-----------------------------------------------------------------------------------------

section Links

variable {net : Network} {t : UniqueTable NodeData}

/-- Networks with the same nodes and the same live gates count the same live gates. -/
theorem liveGateCount_congr {net' : Network} (size : net'.size = net.size)
    (same : ∀ i, (net'.gateFanins ⟨i⟩).isSome = (net.gateFanins ⟨i⟩).isSome)
    : net'.liveGateCount = net.liveGateCount := by
  simp only [liveGateCount, size, same]

/-- A table with the same values, still indexed, whose links are live gates in normal form, once
each, keeps a network coherent. -/
theorem Coherent.withTable (coherent : net.Coherent) (indexed : t.Indexed)
    (size : t.cells.size = net.table.cells.size) (values : ∀ j, t.valueAt j = net.table.valueAt j)
    (linkedGate : ∀ i, t.linkedAt i = true → (net.gateFanins ⟨i⟩).isSome)
    (normal : ∀ g f, net.gateFanins g = some f → t.linkedAt g.id = true → f.normalize = .gate f false)
    (distinct : ∀ g h f, net.gateFanins g = some f → net.gateFanins h = some f →
      t.linkedAt g.id = true → t.linkedAt h.id = true → g = h)
    : ({ net with table := t } : Network).Coherent := by
  have gates := gateFanins_withTable values
  have sameSize : ({ net with table := t } : Network).size = net.size := size
  refine {
    sizes := by rw [size]; exact coherent.sizes
    fits := by rw [sameSize]; exact coherent.fits
    constant := by rw [values]; exact coherent.constant
    onlyConstant := fun i d value => coherent.onlyConstant i d (by rw [← values]; exact value)
    inputsNodup := coherent.inputsNodup
    inputs := fun n => by rw [values]; exact coherent.inputs n
    inputRecord := fun i d value => coherent.inputRecord i d (by rw [← values]; exact value)
    fanout := coherent.fanout
    fanoutFits := coherent.fanoutFits
    parents := fun n r g uses => by
      rw [coherent.parents n r g uses]
      simp only [slots, gates]
    outputsLive := coherent.outputsLive
    faninsLive := fun g f gate => coherent.faninsLive g f (by rw [← gates]; exact gate)
    linkedGate := fun i linked => by rw [gates]; exact linkedGate i linked
    normal := fun g f gate => normal g f (by rw [← gates]; exact gate)
    distinct := fun g h f gate other =>
      distinct g h f (by rw [← gates]; exact gate) (by rw [← gates]; exact other)
    indexed := indexed
    numGates := by
      rw [coherent.numGates]
      exact (liveGateCount_congr sameSize fun i => by rw [gates]).symm
    acyclic := by
      obtain ⟨rank, ranked⟩ := coherent.acyclic
      exact ⟨rank, fun g f gate => ranked g f (by rw [← gates]; exact gate)⟩ }

/-- Unlinking a cell keeps a network coherent and its live gates; that cell alone loses its
link. -/
theorem Coherent.unlink (coherent : net.Coherent) {i : Nat} (unlinked : net.table.unlink i = .ok t)
    : ({ net with table := t } : Network).Coherent ∧
        (∀ g, ({ net with table := t } : Network).gateFanins g = net.gateFanins g) ∧
        t.linkedAt i = false ∧ ∀ j, j ≠ i → t.linkedAt j = net.table.linkedAt j := by
  obtain ⟨indexed, size, values, links⟩ := coherent.indexed.unlink unlinked
  have within : ∀ j, t.linkedAt j = true → net.table.linkedAt j = true := fun j linked => by
    rw [links] at linked
    simp only [Bool.and_eq_true] at linked
    exact linked.2
  refine ⟨coherent.withTable indexed size values
      (fun j linked => coherent.linkedGate j (within j linked))
      (fun g f gate linked => coherent.normal g f gate (within _ linked))
      (fun g h f gate other linkedG linkedH =>
        coherent.distinct g h f gate other (within _ linkedG) (within _ linkedH)),
    gateFanins_withTable values, by simp [links], fun j other => by simp [links, other]⟩

/-- Linking a live gate over normal fan-ins that no linked cell holds keeps a network coherent
and its live gates; that cell alone gains its link. -/
theorem Coherent.link (coherent : net.Coherent) {p : Node} {f : Fanins}
    (gate : net.gateFanins p = some f) (normal : f.normalize = .gate f false)
    (missing : net.table.find (NodeData.majority f) = none) (linked : net.table.link p.id = .ok t)
    : ({ net with table := t } : Network).Coherent ∧
        (∀ g, ({ net with table := t } : Network).gateFanins g = net.gateFanins g) ∧
        t.linkedAt p.id = true ∧ ∀ j, j ≠ p.id → t.linkedAt j = net.table.linkedAt j := by
  obtain ⟨indexed, size, values, links⟩ := coherent.indexed.link linked
  -- a link is the new one or an old one
  have newOrOld : ∀ g : Node, t.linkedAt g.id = true → g = p ∨ net.table.linkedAt g.id = true := by
    intro g on
    rw [links] at on
    simp only [Bool.or_eq_true, beq_iff_eq] at on
    exact on.imp_left fun same => congrArg Node.mk same
  refine ⟨coherent.withTable indexed size values (fun j on => ?_) (fun g f' gate' on => ?_)
    (fun g h f' gate' other onG onH => ?_), gateFanins_withTable values, by simp [links],
    fun j other => by simp [links, other]⟩
  · rcases newOrOld ⟨j⟩ on with same | old
    · rw [same, gate]
      rfl
    · exact coherent.linkedGate j old
  · rcases newOrOld g on with rfl | old
    · rw [gate] at gate'
      cases gate'
      exact normal
    · exact coherent.normal g f' gate' old
  · rcases newOrOld g onG with rfl | oldG <;> rcases newOrOld h onH with rfl | oldH
    · rfl
    · rw [gate] at gate'
      cases gate'
      rw [coherent.unlinked_of_find_none missing other] at oldH
      cases oldH
    · rw [gate] at other
      cases other
      rw [coherent.unlinked_of_find_none missing gate'] at oldG
      cases oldG
    · exact coherent.distinct g h f' gate' other oldG oldH

end Links

-----------------------------------------------------------------------------------------
-- Rewiring one gate
-----------------------------------------------------------------------------------------

section Rewire

variable {net net₁ : Network} {p old : Node} {new : Signal} {f g : Fanins} {u : PUnit}

/-- Redirecting the fan-ins of an unlinked live gate `p` off `old` onto a live `new`: its uses of
`old` move to `new`, then fan-ins `g` on the redirected nodes are stored. The network stays
coherent with the same links, inputs, outputs and live nodes, and a ranking that puts `new` below
`old` ranks it too. -/
theorem Coherent.rewire (coherent : net.Coherent) (gate : net.gateFanins p = some f)
    (unlinked : net.table.linkedAt p.id = false) (newLive : net.Live new.node)
    (apart : new.node ≠ old)
    (nodes : (g.toList.map Signal.node).Perm
      ((f.toList.map Signal.node).map (redirectNode old new.node)))
    (run : Returns (forIn (List.range (f.toList.filter (·.node = old)).length) PUnit.unit
        fun _ _ => do
          update (·.removeReference old p)
          update (·.addReference new.node p)
          pure (ForInStep.yield PUnit.unit)) net u net₁)
    {rank : Node → Nat} (ranked : net.Ranked rank) (lower : rank new.node < rank old)
    : (net₁.storeGate p g).Coherent ∧ (net₁.storeGate p g).Ranked rank ∧
        (net₁.storeGate p g).table = net.table.setValue p.id (NodeData.majority g) ∧
        (∀ h, (net₁.storeGate p g).gateFanins h = if h = p then some g else net.gateFanins h) ∧
        (∀ n, (net₁.storeGate p g).Live n ↔ net.Live n) ∧
        (net₁.storeGate p g).inputs = net.inputs ∧ (net₁.storeGate p g).outputs = net.outputs := by
  obtain ⟨table₁, inputs₁, outputs₁, numGates₁, size₁, dead₁⟩ := moveUses_frame run
  have gates₁ := gateFanins_of_dead table₁ dead₁
  have lives := live_of_dead dead₁
  have gate₁ : net₁.gateFanins p = some f := by rw [gates₁]; exact gate
  have gates : ∀ h, (net₁.storeGate p g).gateFanins h = if h = p then some g else net.gateFanins h := by
    intro h
    rw [gateFanins_storeGate gate₁, gates₁]
  have table : (net₁.storeGate p g).table = net.table.setValue p.id (NodeData.majority g) := by
    simp only [storeGate, table₁]
  -- the uses that moved are the slots of `p` on `old`
  have fSlots : ∀ n, net.slots p n = (f.toList.map Signal.node).count n := fun n => by
    rw [slots_eq_count, faninNodes_of_gateFanins gate]
  have moved : (f.toList.filter (·.node = old)).length = net.slots p old := by
    rw [fSlots, ← List.countP_eq_length_filter, List.count, List.countP_map]
    rfl
  have counted := coherent.usesCount.moveUses apart (Nat.le_of_eq moved) run
  -- the counts after the move are the slots of the stored fan-ins
  have counted₂ : (net₁.storeGate p g).UsesCount (net₁.storeGate p g).slots := by
    refine (counted.of_refs rfl rfl).congr fun h n => ?_
    rw [slots_eq_count (net₁.storeGate p g), faninNodes, gates, moved]
    by_cases isP : h = p
    · subst isP
      simp only [if_true, nodes.count_eq, count_map_redirectNode apart, fSlots]
      by_cases isOld : n = old
      · subst isOld
        simp [Ne.symm apart]
      · by_cases isNew : n = new.node
        · subst isNew
          simp [isOld]
        · simp [isOld, isNew]
    · simp [isP, slots_eq_count, faninNodes]
  obtain ⟨c, r, cell, uses, value, alive⟩ := gateFanins_eq_some.mp gate
  have pValue : net.table.valueAt p.id = some (NodeData.majority f) := by
    simp [UniqueTable.valueAt, cell, value]
  have values : ∀ i, (net₁.storeGate p g).table.valueAt i =
      if p.id = i then some (NodeData.majority g) else net.table.valueAt i := by
    intro i
    rw [table, UniqueTable.valueAt_setValue]
    split
    · rename_i here
      rw [← here, pValue]
      rfl
    · rfl
  have links : ∀ i, (net₁.storeGate p g).table.linkedAt i = net.table.linkedAt i := fun i => by
    rw [table, UniqueTable.linkedAt_setValue]
  -- a linked gate is not `p`, so it keeps its fan-ins
  have linkedOld : ∀ h : Node, net.table.linkedAt h.id = true →
      (net₁.storeGate p g).gateFanins h = net.gateFanins h := by
    intro h linked
    rw [gates, if_neg]
    rintro rfl
    rw [unlinked] at linked
    cases linked
  have ranked₂ : (net₁.storeGate p g).Ranked rank := by
    intro h f' gate' s member
    rw [gates] at gate'
    split at gate'
    · rename_i isP
      subst isP
      cases gate'
      obtain ⟨m, mMember, same⟩ := List.mem_map.mp (nodes.subset (List.mem_map_of_mem member))
      obtain ⟨t, tMember, rfl⟩ := List.mem_map.mp mMember
      have below := ranked h f gate t tMember
      by_cases isOld : t.node = old
      · rw [isOld, redirectNode_old] at same
        rw [← same]
        rw [isOld] at below
        omega
      · rw [redirectNode_of_ne isOld] at same
        rw [← same]
        exact below
    · exact ranked h f' gate' s member
  have lives₂ : ∀ n, (net₁.storeGate p g).Live n ↔ net.Live n := lives
  refine ⟨{
    sizes := by simp [storeGate, table₁, size₁, coherent.sizes]
    fits := by
      rw [size_storeGate, show net₁.size = net.size by simp only [Network.size, table₁]]
      exact coherent.fits
    constant := ?_
    onlyConstant := fun i d value kind => ?_
    inputsNodup := by simp only [storeGate, inputs₁]; exact coherent.inputsNodup
    inputs := fun n => ?_
    inputRecord := fun i d value kind => ?_
    fanout := fun n r uses => (counted₂ n r uses).1
    fanoutFits := show net₁.FanoutFits from coherent.fanoutFits.moveUses run
    parents := fun n r h uses => (counted₂ n r uses).2 h
    outputsLive := fun s member => (lives₂ s.node).mpr
      (coherent.outputsLive s (by simpa [storeGate, outputs₁] using member))
    faninsLive := fun h f' gate' s member => ?_
    linkedGate := fun i linked => ?_
    normal := fun h f' gate' linked => ?_
    distinct := fun h h' f' gate' other linkedH linkedH' => ?_
    indexed := by rw [table]; exact coherent.indexed.setValue _ unlinked
    numGates := ?_
    acyclic := ⟨rank, ranked₂⟩ }, ranked₂, table, gates, lives₂, by simp [storeGate, inputs₁],
    by simp [storeGate, outputs₁]⟩
  · -- `p` is a gate, so it is not the constant
    rw [values, if_neg]
    · exact coherent.constant
    · intro zero
      have := coherent.constant
      rw [← zero, pValue] at this
      cases this
  · rw [values] at value
    split at value
    · cases value
      cases kind
    · exact coherent.onlyConstant i d value kind
  · rw [values]
    simp only [storeGate, inputs₁]
    split
    · rename_i here
      rw [coherent.inputs, ← here, pValue]
      simp [NodeData.majority, NodeData.input]
    · exact coherent.inputs n
  · rw [values] at value
    split at value
    · cases value
      cases kind
    · exact coherent.inputRecord i d value kind
  · rw [gates] at gate'
    rw [lives₂]
    split at gate'
    · rename_i isP
      cases gate'
      obtain ⟨m, mMember, same⟩ := List.mem_map.mp (nodes.subset (List.mem_map_of_mem member))
      obtain ⟨t, tMember, rfl⟩ := List.mem_map.mp mMember
      by_cases isOld : t.node = old
      · rw [isOld, redirectNode_old] at same
        rw [← same]
        exact newLive
      · rw [redirectNode_of_ne isOld] at same
        rw [← same]
        exact coherent.faninsLive p f gate t tMember
    · exact coherent.faninsLive h f' gate' s member
  · rw [links] at linked
    rw [linkedOld ⟨i⟩ linked]
    exact coherent.linkedGate i linked
  · rw [links] at linked
    rw [linkedOld h linked] at gate'
    exact coherent.normal h f' gate' linked
  · rw [links] at linkedH linkedH'
    rw [linkedOld h linkedH] at gate'
    rw [linkedOld h' linkedH'] at other
    exact coherent.distinct h h' f' gate' other linkedH linkedH'
  · have numGates₂ : (net₁.storeGate p g).numGates = net.numGates := numGates₁
    have size₂ : (net₁.storeGate p g).size = net.size := by
      rw [size_storeGate]
      simp only [Network.size, table₁]
    rw [numGates₂, coherent.numGates]
    refine (liveGateCount_congr size₂ fun i => ?_).symm
    rw [gates]
    split
    · rename_i isP
      rw [isP, gate]
      rfl
    · rfl

end Rewire

-----------------------------------------------------------------------------------------
-- Redirecting one gate
-----------------------------------------------------------------------------------------

/-- How redirecting the gate `p` changes a network: `p` is a live gate over fan-ins `g`; the
other old gates, the liveness of the old nodes, the links of the old cells but `p`'s, the inputs
and the outputs stay; new nodes are linked live gates over the nodes of `g`; and `rank`, a
ranking of the old network, extends to a ranking of the new one. -/
structure Rewires (net net' : Network) (p : Node) (g : Fanins) (rank : Node → Nat) : Prop where
  size : net.size ≤ net'.size
  gate : net'.gateFanins p = some g
  gates : ∀ h : Node, h.id < net.size → h ≠ p → net'.gateFanins h = net.gateFanins h
  live : ∀ n : Node, n.id < net.size → (net'.Live n ↔ net.Live n)
  links : ∀ i, i < net.size → i ≠ p.id → net'.table.linkedAt i = net.table.linkedAt i
  fresh : ∀ h f, net.size ≤ h.id → net'.gateFanins h = some f →
    (f.toList.map Signal.node).Perm (g.toList.map Signal.node) ∧ net'.table.linkedAt h.id = true
  inputs : net'.inputs = net.inputs
  outputs : net'.outputs = net.outputs
  records : KeepsGateRecords net net'
  ranked : ∃ rank', net'.Ranked rank' ∧ ∀ n : Node, n.id < net.size → rank' n = rank n

/-- Linked gates over the nodes of `g`, added after redirecting `p`, are part of the redirection. -/
theorem Rewires.addsLinked {net net₁ net' : Network} {p : Node} {g : Fanins} {rank : Node → Nat}
    (rewires : Rewires net net₁ p g rank)
    (added : AddsLinked net₁ net' (g.toList.map Signal.node)) : Rewires net net' p g rank where
  size := Nat.le_trans rewires.size added.grows.size
  gate := by
    rw [added.grows.gates p (lt_size_of_gateFanins rewires.gate)]
    exact rewires.gate
  gates h lt other := by
    rw [added.grows.gates h (Nat.lt_of_lt_of_le lt rewires.size)]
    exact rewires.gates h lt other
  live n lt := by
    rw [← rewires.live n lt]
    have lt₁ := Nat.lt_of_lt_of_le lt rewires.size
    exact ⟨added.dead n lt₁, added.grows.live n⟩
  links i lt other := by
    rw [added.links i (Nat.lt_of_lt_of_le lt rewires.size)]
    exact rewires.links i lt other
  fresh h f beyond gate := by
    by_cases old : h.id < net₁.size
    · rw [added.grows.gates h old] at gate
      rw [added.links h.id old]
      exact rewires.fresh h f (by omega) gate
    · exact added.fresh h f (Nat.not_lt.mp old) gate
  inputs := added.grows.inputs.trans rewires.inputs
  outputs := added.grows.outputs.trans rewires.outputs
  records := rewires.records.trans (KeepsGateRecords.of_values added.grows.values)
  ranked := by
    obtain ⟨rank₁, ranked₁, agree₁⟩ := rewires.ranked
    obtain ⟨rank', ranked', agree'⟩ := added.ranked rank₁ ranked₁
    exact ⟨rank', ranked', fun n lt =>
      (agree' n (Nat.lt_of_lt_of_le lt rewires.size)).trans (agree₁ n lt)⟩

section ReplaceInNode

variable {net net' : Network} {parent old : Node} {new : Signal} {f : Fanins} {res : Option Signal}

/-- Redirecting a live gate of a coherent network off `old`, onto a live replacement that a
ranking puts below `old`, keeps the network coherent and ranked. The gate gets its fan-ins
redirected, up to order. It is linked again when nothing is handed back; otherwise it stays
unlinked, and the signal handed back is one of its fan-ins, which then repeat a node, or is on
another linked live gate over its fan-ins, complemented with the signal. -/
theorem Coherent.replaceInNode (coherent : net.Coherent) (gate : net.gateFanins parent = some f)
    (newLive : net.Live new.node) (apart : new.node ≠ old) {rank : Node → Nat}
    (ranked : net.Ranked rank) (lower : rank new.node < rank old)
    (run : Returns (Network.replaceInNode parent old new) net res net')
    : ∃ g, g.toList.Perm (f.toList.map (redirectSignal old new)) ∧
        net'.Coherent ∧ Rewires net net' parent g rank ∧
        (res = none → net'.table.linkedAt parent.id = true) ∧
        ∀ s, res = some s → net'.table.linkedAt parent.id = false ∧ net'.Live s.node ∧
          s.node ≠ parent ∧ net'.MajorityOf g s := by
  obtain ⟨t₁, net₃, u, unlinked, moving, r, rfl, outcome⟩ := replaceInNode_cases coherent.sound gate run
  obtain ⟨coherent₁, gates₁, parentUnlinked, links₁⟩ := coherent.unlink unlinked
  have gate₁ : ({ net with table := t₁ } : Network).gateFanins parent = some f := by
    rw [gates₁]
    exact gate
  have ranked₁ : ({ net with table := t₁ } : Network).Ranked rank :=
    fun g f' gate' => ranked g f' (by rw [← gates₁]; exact gate')
  have size₁ : t₁.cells.size = net.table.cells.size := (coherent.indexed.unlink unlinked).2.1
  have values₁ := (coherent.indexed.unlink unlinked).2.2.1
  -- storing fan-ins on the redirected nodes gives a coherent redirection
  have stored : ∀ g : Fanins, (g.toList.map Signal.node).Perm
      ((f.toList.map Signal.node).map (redirectNode old new.node)) →
      (net₃.storeGate parent g).Coherent ∧ Rewires net (net₃.storeGate parent g) parent g rank ∧
        (net₃.storeGate parent g).size = net.size ∧
        (net₃.storeGate parent g).table.linkedAt parent.id = false := by
    intro g nodes
    obtain ⟨coherent₂, ranked₂, table₂, gates₂, lives₂, inputs₂, outputs₂⟩ :=
      coherent₁.rewire gate₁ parentUnlinked newLive apart nodes moving ranked₁ lower
    have size₂ : (net₃.storeGate parent g).size = net.size := by
      simp only [Network.size, UniqueTable.size, table₂, UniqueTable.cells_setValue, Array.size_modify,
        size₁]
    have links₂ : ∀ i, (net₃.storeGate parent g).table.linkedAt i = t₁.linkedAt i := fun i => by
      rw [table₂, UniqueTable.linkedAt_setValue]
    refine ⟨coherent₂, {
      size := Nat.le_of_eq size₂.symm
      gate := by rw [gates₂, if_pos rfl]
      gates := fun h _ other => by rw [gates₂, if_neg other, gates₁]
      live := fun n _ => lives₂ n
      links := fun i _ other => by rw [links₂, links₁ i other]
      fresh := fun h _ beyond gate' => absurd (lt_size_of_gateFanins gate') (by omega)
      inputs := inputs₂
      outputs := outputs₂
      records := fun i d value isGate => ?_
      ranked := ⟨rank, ranked₂, fun _ _ => rfl⟩ }, size₂, by rw [links₂, parentUnlinked]⟩
    rw [table₂, UniqueTable.valueAt_setValue, values₁, value]
    split
    · exact ⟨_, rfl, rfl⟩
    · exact ⟨d, rfl, isGate⟩
  have redirected := nodes_redirect old new f
  -- sorted fan-ins in normal form are the redirected ones, reordered
  have sorted : ∀ g : Fanins, (f.map (redirectSignal old new)).normalize = .gate g false →
      g.toList.Perm ((f.map (redirectSignal old new)).toList) := fun g normal => by
    have perm := Fanins.perm_of_normalize_eq_gate normal
    rwa [show ∀ l : List Signal, l.map (·.xor false) = l from fun l => by simp] at perm
  rcases outcome with ⟨s, trivial, rfl, rfl⟩ | ⟨g, s, renormal, rfl, creating⟩ |
    ⟨g, normal, ⟨e, found, other, rfl, rfl⟩ | ⟨rfl, found, t, linked, rfl⟩⟩
  · -- the redirected fan-ins collapse to one of them
    obtain ⟨coherent₂, rewires, _, unlinked₂⟩ := stored _ (List.Perm.of_eq redirected)
    have member := Fanins.mem_of_normalize_eq_trivial trivial
    refine ⟨_, List.Perm.refl _, coherent₂, rewires, (fun absent => by cases absent),
      fun s' returned => ?_⟩
    cases returned
    have onParent : s.node ∈ (net₃.storeGate parent (f.map (redirectSignal old new))).faninNodes parent := by
      rw [faninNodes_of_gateFanins rewires.gate]
      exact List.mem_map_of_mem member
    exact ⟨unlinked₂, coherent₂.faninsLive parent _ rewires.gate s member,
      fun same => coherent₂.not_reaches_of_mem_faninNodes onParent (same ▸ .refl _),
      .inl ⟨member, Fanins.not_nodup_of_normalize_eq_trivial trivial⟩⟩
  · -- the complemented normal form is found or added
    obtain ⟨coherent₂, rewires, _, unlinked₂⟩ := stored _ (List.Perm.of_eq redirected)
    obtain ⟨coherent', added, live', outcome⟩ :=
      coherent₂.createMaj (coherent₂.faninsLive parent _ rewires.gate) creating
    have unlinked' : net'.table.linkedAt parent.id = false := by
      rw [added.links parent.id (lt_size_of_gateFanins rewires.gate), unlinked₂]
    refine ⟨_, List.Perm.refl _, coherent', rewires.addsLinked added,
      (fun absent => by cases absent), fun s' returned => ?_⟩
    cases returned
    refine ⟨unlinked', live', fun same => ?_, outcome⟩
    -- a majority on the parent itself would be one of its fan-ins or a linked gate
    rcases outcome with ⟨member, -⟩ | ⟨h, gate', perm, linked⟩
    · have onParent : s.node ∈ net'.faninNodes parent := by
        rw [faninNodes_of_gateFanins (rewires.addsLinked added).gate]
        exact List.mem_map_of_mem member
      exact coherent'.not_reaches_of_mem_faninNodes onParent (same ▸ .refl _)
    · rw [same, unlinked'] at linked
      cases linked
  · -- a linked duplicate replaces the gate
    have nodes := (Fanins.nodes_normalize normal).trans (List.Perm.of_eq redirected)
    obtain ⟨coherent₂, rewires, _, unlinked₂⟩ := stored g nodes
    obtain ⟨c, cell, on, _⟩ := coherent₂.indexed.find_eq_some found
    refine ⟨g, sorted g normal, coherent₂, rewires, (fun absent => by cases absent),
      fun s' returned => ?_⟩
    cases returned
    have duplicate := coherent₂.sound.gateFanins_of_find found
    rw [Signal.node_make]
    refine ⟨unlinked₂, live_of_gateFanins duplicate, fun same => other (congrArg Node.id same),
      .inr ⟨g, ?_, ?_, ?_⟩⟩
    · rw [Signal.node_make]
      exact duplicate
    · simp
    · simp [UniqueTable.linkedAt, cell, on]
  · -- the gate is linked again in normal form
    have nodes := (Fanins.nodes_normalize normal).trans (List.Perm.of_eq redirected)
    obtain ⟨coherent₂, rewires, size₂, unlinked₂⟩ := stored g nodes
    have missing : (net₃.storeGate parent g).table.find (NodeData.majority g) = none := by
      rcases found with missing | self
      · exact missing
      · obtain ⟨c, cell, on, _⟩ := coherent₂.indexed.find_eq_some self
        have : (net₃.storeGate parent g).table.linkedAt parent.id = true := by
          simp [UniqueTable.linkedAt, cell, on]
        rw [unlinked₂] at this
        cases this
    obtain ⟨coherent', gates', linked', links'⟩ :=
      coherent₂.link rewires.gate (Fanins.normalize_normalize normal) missing linked
    have size' := (coherent₂.indexed.link linked).2.1
    refine ⟨g, sorted g normal, coherent', {
      size := Nat.le_trans rewires.size (Nat.le_of_eq size'.symm)
      gate := by rw [gates']; exact rewires.gate
      gates := fun h lt other => by rw [gates']; exact rewires.gates h lt other
      live := rewires.live
      links := fun i lt other => by
        show t.linkedAt i = _
        rw [links' i other]
        exact rewires.links i lt other
      fresh := fun h f' beyond gate' => by
        rw [gates'] at gate'
        exact absurd (lt_size_of_gateFanins gate') (by omega)
      inputs := rewires.inputs
      outputs := rewires.outputs
      records := rewires.records.trans (KeepsGateRecords.of_values
        fun i _ => (coherent₂.indexed.link linked).2.2.1 i)
      ranked := by
        obtain ⟨rank', ranked', agree⟩ := rewires.ranked
        exact ⟨rank', fun h f' gate' => ranked' h f' (by rw [← gates']; exact gate'), agree⟩ },
      fun _ => linked', fun s' returned => by cases returned⟩

end ReplaceInNode

end Network

end MajorityGraph
