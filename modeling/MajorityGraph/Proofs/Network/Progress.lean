import MajorityGraph.Proofs.Network.Worklist

/-!
Every step of a substitution runs to its end from every journal, given as `Always`, when the
network has room for what the step adds; a substitution whose node no gate uses returns.
-/

namespace MajorityGraph

namespace Network

open NetM

variable {net : Network}

-----------------------------------------------------------------------------------------
-- Room along the steps
-----------------------------------------------------------------------------------------

section Room

variable {net' : Network} {k : Nat}

theorem Room.addReference (room : net.Room (k + 1)) {child parent : Node}
    (added : net.addReference child parent = .ok net') : net'.Room k := by
  obtain ⟨r, -, -, rfl⟩ := addReference_eq_ok_iff.mp added
  exact room.modify rfl rfl fun r => Nat.le_of_eq (NodeRefs.fanout_withUse parent r)

theorem Room.removeReference (room : net.Room k) {child parent : Node}
    (removed : net.removeReference child parent = .ok net') : net'.Room k := by
  obtain ⟨r, -, -, rfl⟩ := removeReference_eq_ok.mp removed
  exact Room.modify (j := 0) room rfl rfl fun r => by
    rw [NodeRefs.fanout_withoutUse]
    omega

end Room

-----------------------------------------------------------------------------------------
-- Building and taking out gates
-----------------------------------------------------------------------------------------

/-- `createMaj` over live nodes of a coherent network with room for one more node and use returns
from every journal, and spends at most that room. -/
theorem Coherent.always_createMaj (coherent : net.Coherent) {a b c : Signal}
    (live : ∀ t ∈ [a, b, c], net.Live t.node) {k : Nat} (room : net.Room (k + 1)) :
    ∃ s net', Always (Network.createMaj a b c) net s net' ∧ net'.Room k := by
  have below : ∀ t ∈ [a, b, c], t.node.id < net.size := fun t member =>
    coherent.lt_size_of_live (live t member)
  suffices ∃ s net', Always (Network.createMaj a b c) net s net' by
    obtain ⟨s, net', run⟩ := this
    exact ⟨s, net', run, coherent.sound.room_createMaj below room run.returns⟩
  cases normal : Fanins.normalize ⟨a, b, c⟩ with
  | trivial t => exact ⟨t, net, Network.always_createMaj (.inl ⟨normal, rfl⟩)⟩
  | gate f compl =>
      cases look : net.table.find (NodeData.majority f) with
      | some i =>
          exact ⟨_, _, Network.always_createMaj
            (.inr ⟨f, compl, ⟨i⟩, false, normal, coherent.addGate_of_find_some look, rfl⟩)⟩
      | none =>
          obtain ⟨net', added, -⟩ := coherent.sound.addGate_of_find_none look
            (Fanins.nodes_nodup_of_normalize normal)
            (Fanins.forall_nodes_of_normalize (fun n => n.id < net.size) normal below)
            room.size_le (fun s _ _ uses => room.fanout_lt s.node uses)
          exact ⟨_, _, Network.always_createMaj (.inr ⟨f, compl, _, true, normal, added, rfl⟩)⟩

/-- Taking out any node of a coherent network returns from every journal. A live gate starts the
walk that `TakingOut` follows, with every live gate of the network as the closed set that bounds
it; any other node is left alone at once. -/
theorem Coherent.always_takeOutNode (coherent : net.Coherent) {n : Node} (below : n.id < net.size) :
    ∃ net', Always (Network.takeOutNode n) net () net' := by
  unfold Network.takeOutNode
  by_cases gate : (net.gateFanins n).isSome
  · -- every live gate, a set closed for any root
    let S : Finset Node :=
      ((Finset.range net.size).filter fun i => (net.gateFanins ⟨i⟩).isSome).image Node.mk
    have inS : ∀ g, (net.gateFanins g).isSome → g ∈ S := fun g isGate => by
      obtain ⟨f, stored⟩ := Option.isSome_iff_exists.mp isGate
      exact Finset.mem_image.mpr ⟨g.id, Finset.mem_filter.mpr
        ⟨Finset.mem_range.mpr (lt_size_of_gateFanins stored), isGate⟩, rfl⟩
    have closed : ConeClosed net n #[] S := ⟨inS n gate, fun g isGate _ _ _ => inS g isGate⟩
    have fits : [n].length + 3 * net.numGates < 4 * net.size + 4 := by
      have := net.liveGateCount_le_size
      rw [coherent.numGates]
      simp only [List.length_singleton]
      omega
    obtain ⟨u, net', run, -⟩ := TakingOut.run coherent closed (4 * net.size + 4)
      (TakingOut.start coherent gate) fits
    exact ⟨net', (always_get net).bind run⟩
  · -- a node that is no live gate is popped and left
    have cell : n.id < net.table.cells.size := below
    have lt : n.id < net.refs.size := by rw [coherent.sizes]; exact cell
    obtain ⟨r, uses⟩ : ∃ r, net.refs[n.id]? = some r := ⟨_, Array.getElem?_eq_getElem lt⟩
    obtain ⟨d, value⟩ : ∃ d, net.table.valueAt n.id = some d :=
      ⟨net.table.cells[n.id].value, by simp [UniqueTable.valueAt, Array.getElem?_eq_getElem cell]⟩
    have readD : net.data n = .ok d := data_eq_ok_iff.mpr value
    have readR : net.refsOf n = .ok r := refsOf_eq_ok.mpr ⟨below, uses⟩
    have stays : (!d.isGate || r.dead || r.fanout != 0) = true := by
      cases isGate : d.isGate
      · rfl
      · cases dead : r.dead
        · exact absurd (by rw [gateFanins_of_data readD isGate ⟨r, uses, dead⟩]; rfl) gate
        · simp
    refine ⟨net, (always_get net).bind ?_⟩
    rw [show 4 * net.size + 4 = (4 * net.size + 3) + 1 from rfl, Network.takeOutLoop]
    refine (always_query readD).bind ((always_query readR).bind ?_)
    rw [if_pos stays, Network.takeOutLoop]
    · exact always_pure () net
    · omega

-----------------------------------------------------------------------------------------
-- Moving the outputs
-----------------------------------------------------------------------------------------

/-- Moving the outputs off a node of a coherent network onto a live replacement with room for a
use by every output returns from every journal. Each output found on `old` still counts among
the uses of `old`, so its count is not zero when it is lowered, and each move spends one of the
replacement's room. -/
theorem Coherent.always_redirectOutputs (coherent : net.Coherent) {old : Node} {new : Signal}
    (oldBelow : old.id < net.size) (newLive : net.Live new.node)
    (room : ∀ r, net.refs[new.node.id]? = some r → r.fanout + net.outputs.size ≤ NodeRefs.maxFanout) :
    ∃ net', Always (Network.redirectOutputs old new) net () net' := by
  suffices ∃ (u : Unit) (net' : Network), Always (Network.redirectOutputs old new) net u net' ∧ True by
    obtain ⟨⟨⟩, net', run, -⟩ := this
    exact ⟨net', run⟩
  unfold Network.redirectOutputs
  refine Always.bind_exists (always_get net) ?_
  -- the positions from `i` on still hold their first outputs, and the replacement has room for
  -- each of them
  refine always_forIn_bind (fun i net₁ (_ : PUnit) => net₁.Coherent ∧ net₁.Live new.node ∧
      net₁.size = net.size ∧ (∀ j, i ≤ j → net₁.outputs[j]? = net.outputs[j]?) ∧
      ∀ r, net₁.refs[new.node.id]? = some r → r.fanout + (net.outputs.size - i) ≤ NodeRefs.maxFanout)
    (fun i lt net₁ _ ⟨coherent₁, live₁, size₁, later₁, room₁⟩ => ?_)
    ⟨coherent, newLive, rfl, fun _ _ => rfl, fun r uses => by rw [Nat.sub_zero]; exact room r uses⟩
    (fun _ net' _ => ⟨(), net', always_pure () net', trivial⟩)
  rw [List.length_range] at lt
  rw [List.getElem_range]
  have atI : net₁.outputs[i]? = some net.outputs[i] := by
    rw [later₁ i (Nat.le_refl _), Array.getElem?_eq_getElem lt]
  have current : net₁.outputs.getD i default = net.outputs[i] := by
    rw [Array.getD_eq_getD_getElem?, atI]
    rfl
  by_cases onOld : net.outputs[i].node = old
  · -- the output moves, and the two counts follow it
    obtain ⟨r, readOld, nonzero⟩ : ∃ r, net₁.refsOf old = .ok r ∧ r.fanout ≠ 0 := by
      have lt₁ : old.id < net₁.refs.size := by
        rw [coherent₁.sizes]
        show old.id < net₁.size
        rw [size₁]
        exact oldBelow
      refine ⟨net₁.refs[old.id], refsOf_eq_ok.mpr ⟨by rw [size₁]; exact oldBelow,
        Array.getElem?_eq_getElem lt₁⟩, ?_⟩
      have counted := coherent₁.fanout old _ (Array.getElem?_eq_getElem lt₁)
      have used := outputUses_pos atI
      rw [onOld] at used
      omega
    obtain ⟨rNew, readNew⟩ : ∃ r, net₁.refsOf new.node = .ok r :=
      let ⟨r, found, _⟩ := coherent₁.refsOf_live live₁
      ⟨r, found⟩
    obtain ⟨lt, usesNew⟩ := refsOf_eq_ok.mp readNew
    have bound := room₁ rNew usesNew
    -- the replacement's count once `old` has given up its use, with room for one more
    let lowered : NodeRefs := if old.id = new.node.id then { rNew with fanout := rNew.fanout - 1 } else rNew
    have lowers : (net₁.refs.modify old.id fun r => { r with fanout := r.fanout - 1 })[new.node.id]? =
        some lowered := by
      rw [Array.getElem?_modify, usesNew]
      by_cases same : old.id = new.node.id <;> simp [lowered, same]
    have lowerFanout : lowered.fanout ≤ rNew.fanout := by
      by_cases same : old.id = new.node.id <;> simp [lowered, same]
    have fits : lowered.fanout < NodeRefs.maxFanout := by omega
    refine ⟨(), net₁.moveOutput old new i net.outputs[i], (always_get net₁).bind ?_, ?_⟩
    · simp only [current, if_pos onOld]
      refine (@always_update _ _ ⟨net₁.table, net₁.refs, net₁.inputs,
        net₁.outputs.set! i (new.xor net.outputs[i].isComplemented), net₁.numGates⟩ ?_).bind ?_
      · rfl
      refine (@always_update _ _ ⟨net₁.table, net₁.refs.modify old.id
        fun r => { r with fanout := r.fanout - 1 }, net₁.inputs,
        net₁.outputs.set! i (new.xor net.outputs[i].isComplemented), net₁.numGates⟩ ?_).bind ?_
      · have readOld' : Network.refsOf ⟨net₁.table, net₁.refs, net₁.inputs,
            net₁.outputs.set! i (new.xor net.outputs[i].isComplemented), net₁.numGates⟩ old = .ok r :=
          readOld
        simp only [readOld', bind, Except.bind]
        rw [if_neg (by simpa using nonzero)]
        exact modifyRefs_eq_ok _ readOld'
      have found : Network.refsOf ⟨net₁.table, net₁.refs.modify old.id
          (fun r => { r with fanout := r.fanout - 1 }), net₁.inputs,
          net₁.outputs.set! i (new.xor net.outputs[i].isComplemented), net₁.numGates⟩ new.node =
          .ok lowered := refsOf_eq_ok.mpr ⟨lt, lowers⟩
      exact (always_update (addUse_eq_ok found fits)).bind (always_pure _ _)
    · refine ⟨coherent₁.moveOutput live₁ atI onOld ⟨lowered, lowers, fits⟩,
        (live_of_dead refs_moveOutput_dead _).mpr live₁, size₁, fun j le => ?_, fun r' uses => ?_⟩
      · rw [outputs_moveOutput, if_neg (by omega), later₁ j (by omega)]
      · rw [refs_moveOutput, usesNew, Option.map_some, Option.some.injEq] at uses
        subst uses
        have grown : ({ rNew with fanout := rNew.fanout - (if old = new.node then 1 else 0) +
            (if new.node = new.node then 1 else 0) } : NodeRefs).fanout ≤ rNew.fanout + 1 := by
          by_cases same : old = new.node <;> simp [same]
        omega
  · refine ⟨(), net₁, (always_get net₁).bind ?_, coherent₁, live₁, size₁,
      fun j le => later₁ j (by omega), fun r uses => ?_⟩
    · simp only [current, if_neg onOld]
      exact always_pure _ net₁
    · have := room₁ r uses
      omega

-----------------------------------------------------------------------------------------
-- Redirecting one parent
-----------------------------------------------------------------------------------------

/-- Changing the uses of one node leaves the uses of every node readable. -/
theorem refsOf_modify_isOk {n m : Node} {g : NodeRefs → NodeRefs} {r : NodeRefs}
    (found : net.refsOf n = .ok r) : ∃ r', Network.refsOf
      ⟨net.table, net.refs.modify m.id g, net.inputs, net.outputs, net.numGates⟩ n = .ok r' := by
  obtain ⟨lt, uses⟩ := refsOf_eq_ok.mp found
  by_cases same : m.id = n.id
  · refine ⟨g r, refsOf_eq_ok.mpr ⟨lt, ?_⟩⟩
    show (net.refs.modify m.id g)[n.id]? = _
    rw [Array.getElem?_modify, if_pos same, uses]
    rfl
  · refine ⟨r, refsOf_eq_ok.mpr ⟨lt, ?_⟩⟩
    show (net.refs.modify m.id g)[n.id]? = _
    rw [Array.getElem?_modify, if_neg same, uses]

/-- Moving `k` uses by `parent` from `old` to `child` returns from every journal when the count
records at least `k` of them on `old` and the network has room for `k` more uses: each use
removed is still recorded, so the fan-out of `old` is not zero when it drops, and each use added
spends one of the room. -/
theorem always_moveUses {slotsOf : Node → Node → Nat} (counted : net.UsesCount slotsOf)
    {old child parent : Node} {k m : Nat} {rOld rChild : NodeRefs} (readOld : net.refsOf old = .ok rOld)
    (readChild : net.refsOf child = .ok rChild) (apart : child ≠ old) (enough : k ≤ slotsOf parent old)
    (room : net.Room (k + m)) :
    ∃ net', Always (forIn (List.range k) PUnit.unit fun _ _ => do
        update (·.removeReference old parent)
        update (·.addReference child parent)
        pure (ForInStep.yield PUnit.unit)) net PUnit.unit net' ∧ net'.Room m := by
  -- after `i` moves, `i` uses have left `old` and reached `child`
  let moved (i : Nat) (g n : Node) : Nat := slotsOf g n - (if g = parent ∧ n = old then i else 0) +
    (if g = parent ∧ n = child then i else 0)
  -- the pass of the loop, named so that the loop lemma sees it
  let pass : Nat → PUnit → NetM (ForInStep PUnit) := fun _ _ => do
    update (·.removeReference old parent)
    update (·.addReference child parent)
    pure (ForInStep.yield PUnit.unit)
  have step : ∀ i (lt : i < (List.range k).length) net₁ (b : PUnit), (i ≤ k ∧ net₁.UsesCount (moved i) ∧
      (∃ r, net₁.refsOf old = .ok r) ∧ (∃ r, net₁.refsOf child = .ok r) ∧ net₁.Room (k - i + m)) →
      ∃ b' net₂, Always (pass (List.range k)[i] b) net₁ (.yield b') net₂ ∧ (i + 1 ≤ k ∧
        net₂.UsesCount (moved (i + 1)) ∧ (∃ r, net₂.refsOf old = .ok r) ∧
        (∃ r, net₂.refsOf child = .ok r) ∧ net₂.Room (k - (i + 1) + m)) := by
    rintro i lt net₁ _ ⟨_, counted₁, ⟨r₁, read₁⟩, ⟨c₁, readC₁⟩, room₁⟩
    rw [List.length_range] at lt
    rw [show k - i + m = k - (i + 1) + m + 1 by omega] at room₁
    have left : 0 < moved i parent old := by
      simp only [moved, and_self, if_true, Ne.symm apart, and_false, if_false]
      omega
    obtain ⟨fanout, parents⟩ := counted₁ old r₁ (refsOf_eq_ok.mp read₁).2
    have present : 0 < r₁.parents.count parent := by rw [parents]; exact left
    have nonzero : r₁.fanout ≠ 0 := by
      have := Nat.lt_of_lt_of_le present Array.count_le_size
      omega
    have removed : net₁.removeReference old parent = .ok ⟨net₁.table,
        net₁.refs.modify old.id (NodeRefs.withoutUse parent), net₁.inputs, net₁.outputs,
        net₁.numGates⟩ := removeReference_eq_ok.mpr ⟨r₁, read₁, nonzero, rfl⟩
    obtain ⟨c₂, readC₂⟩ := refsOf_modify_isOk (m := old) (g := NodeRefs.withoutUse parent) readC₁
    obtain ⟨r₂, read₂⟩ := refsOf_modify_isOk (m := old) (g := NodeRefs.withoutUse parent) read₁
    have room₂ := room₁.removeReference removed
    have added := @addReference_eq_ok _ _ parent _ readC₂
      (room₂.fanout_lt child (refsOf_eq_ok.mp readC₂).2)
    have counted₂ := (counted₁.removeReference left removed).addReference added
    refine ⟨PUnit.unit, _, (always_update removed).bind ((always_update added).bind (always_pure _ _)),
      by omega, counted₂.congr fun g n => ?_, refsOf_modify_isOk read₂, refsOf_modify_isOk readC₂,
      room₂.addReference added⟩
    simp only [moved]
    by_cases isParent : g = parent <;> by_cases isOld : n = old <;> by_cases isChild : n = child <;>
      simp [isParent, isOld, isChild, apart, Ne.symm apart] <;> omega
  obtain ⟨u, net', run, -, -, -, -, room'⟩ := always_forIn _ step
    ⟨Nat.zero_le _, counted.congr (fun g n => by simp [moved]), ⟨rOld, readOld⟩, ⟨rChild, readChild⟩,
      by rwa [Nat.sub_zero]⟩
  rw [List.length_range, Nat.sub_self, Nat.zero_add] at room'
  exact ⟨net', run, room'⟩

/-- A cell of a table that is not linked can be linked, unless it is the sentinel. -/
theorem link_isOk_of_unlinked {t : UniqueTable NodeData} {i : Nat} (start : i ≠ 0)
    (lt : i < t.cells.size) (unlinked : t.linkedAt i = false) : ∃ t', t.link i = .ok t' :=
  UniqueTable.link_isOk start (Array.getElem?_eq_getElem lt)
    (by simpa [UniqueTable.linkedAt, Array.getElem?_eq_getElem lt] using unlinked)

/-- Redirecting a live gate of a coherent network off `old`, onto a live replacement that a
ranking puts below `old`, returns from every journal when the network has room for four more
nodes and uses: the gate can be unlinked, its at most three uses of `old` move to the
replacement, and the gate over its redirected fan-ins can be built or linked again. -/
theorem Coherent.always_replaceInNode (coherent : net.Coherent) {parent old : Node} {new : Signal}
    {f : Fanins} (gate : net.gateFanins parent = some f) (oldBelow : old.id < net.size)
    (newLive : net.Live new.node) (apart : new.node ≠ old) {rank : Node → Nat}
    (ranked : net.Ranked rank) (lower : rank new.node < rank old) {m : Nat} (room : net.Room (m + 4)) :
    ∃ res net', Always (Network.replaceInNode parent old new) net res net' ∧ net'.Room m := by
  unfold Network.replaceInNode
  obtain ⟨t₁, unlinked⟩ := coherent.indexed.unlink_isOk
    (coherent.id_ne_zero (by rw [gate]; rfl)) (lt_size_of_gateFanins gate)
  have unlinking : Always (update (·.updateTable (·.unlink parent.id))) net () { net with table := t₁ } :=
    always_update (updateTable_eq_ok.mpr ⟨t₁, unlinked, rfl⟩)
  refine Always.bind_exists unlinking ?_
  obtain ⟨coherent₁, gates₁, parentUnlinked, links₁⟩ := coherent.unlink unlinked
  have room₁ : ({ net with table := t₁ } : Network).Room (m + 4) :=
    room.of_refs (coherent.indexed.unlink unlinked).2.1 rfl
  have gate₁ : ({ net with table := t₁ } : Network).gateFanins parent = some f := by
    rw [gates₁]
    exact gate
  refine Always.bind_exists (always_query (data_of_gateFanins gate₁)) ?_
  dsimp only
  -- the uses of `old` by the gate move to the replacement
  have slotsOld : ({ net with table := t₁ } : Network).slots parent old =
      ((NodeData.majority f).fanins.toList.filter (·.node = old)).length := by
    simp only [slots, gate₁, List.countP_eq_length_filter]
    rfl
  have oldRefs : old.id < net.refs.size := by rw [coherent.sizes]; exact oldBelow
  have readOld : ({ net with table := t₁ } : Network).refsOf old = .ok net.refs[old.id] :=
    refsOf_eq_ok.mpr ⟨by
        show old.id < t₁.cells.size
        rw [(coherent.indexed.unlink unlinked).2.1]
        exact oldBelow,
      Array.getElem?_eq_getElem oldRefs⟩
  obtain ⟨rNew, readNew, -⟩ := coherent₁.refsOf_live
    ((live_of_dead (fun _ => rfl) new.node).mpr newLive)
  have few : ((NodeData.majority f).fanins.toList.filter (·.node = old)).length ≤ 3 :=
    List.length_filter_le _ _
  obtain ⟨net₃, moving, room₃⟩ := always_moveUses (m := m + 1) coherent₁.usesCount readOld readNew
    apart (Nat.le_of_eq slotsOld.symm) (room₁.mono (by omega))
  refine Always.bind_exists moving ?_
  have roomStored : ∀ g : Fanins, (net₃.storeGate parent g).Room (m + 1) := fun g =>
    room₃.of_refs (size_storeGate parent g) rfl
  -- storing fan-ins on the redirected nodes gives a coherent network whose gate is unlinked
  have ranked₁ : ({ net with table := t₁ } : Network).Ranked rank :=
    fun g f' gate' => ranked g f' (by rw [← gates₁]; exact gate')
  have newLive₁ := (live_of_dead (fun _ => rfl) new.node).mpr newLive
  have stored : ∀ g : Fanins, (g.toList.map Signal.node).Perm
      ((f.toList.map Signal.node).map (redirectNode old new.node)) →
      (net₃.storeGate parent g).Coherent ∧ (net₃.storeGate parent g).gateFanins parent = some g ∧
        ∃ t, (net₃.storeGate parent g).table.link parent.id = .ok t := by
    intro g nodes
    obtain ⟨coherent₂, -, table₂, gates₂, -⟩ :=
      coherent₁.rewire gate₁ parentUnlinked newLive₁ apart nodes moving.returns ranked₁ lower
    refine ⟨coherent₂, by rw [gates₂, if_pos rfl], link_isOk_of_unlinked
      (coherent.id_ne_zero (by rw [gate]; rfl)) ?_ ?_⟩
    · rw [table₂, UniqueTable.cells_setValue, Array.size_modify]
      show parent.id < t₁.cells.size
      rw [(coherent.indexed.unlink unlinked).2.1]
      exact lt_size_of_gateFanins gate
    · rw [table₂, UniqueTable.linkedAt_setValue]
      exact parentUnlinked
  have storing : ∀ g : Fanins, Always (update fun x => x.updateTable fun t =>
      pure (t.setValue parent.id (NodeData.majority g))) net₃ () (net₃.storeGate parent g) :=
    fun g => always_update (updateTable_eq_ok.mpr ⟨_, rfl, rfl⟩)
  have redirected := nodes_redirect old new f
  split
  · exact ⟨_, _, (always_log _ _ net₃).bind ((storing _).bind (always_pure _ _)),
      (roomStored _).mono (Nat.le_succ m)⟩
  · obtain ⟨coherent₂, gate₂, -⟩ := stored _ (List.Perm.of_eq redirected)
    obtain ⟨s, net₄, creating, room₄⟩ := coherent₂.always_createMaj
      (fun t member => coherent₂.faninsLive parent _ gate₂ t member) (roomStored _)
    exact ⟨_, _, (storing _).bind (creating.bind ((always_log _ _ net₄).bind (always_pure _ _))),
      room₄⟩
  · rename_i sorted normal
    obtain ⟨coherent₂, -, t, linked⟩ := stored sorted
      ((Fanins.nodes_normalize normal).trans (List.Perm.of_eq redirected))
    have linking : Always (update fun x => x.updateTable fun x => x.link parent.id)
        (net₃.storeGate parent sorted) () { net₃.storeGate parent sorted with table := t } :=
      always_update (updateTable_eq_ok.mpr ⟨t, linked, rfl⟩)
    have roomLinked : ({ net₃.storeGate parent sorted with table := t } : Network).Room (m + 1) :=
      (roomStored sorted).of_refs (coherent₂.indexed.link linked).2.1 rfl
    refine Always.bind_exists (storing sorted) (Always.bind_exists (always_get _) ?_)
    split
    · split
      · exact ⟨_, _, (always_log _ _ _).bind (always_pure _ _), (roomStored sorted).mono (Nat.le_succ m)⟩
      · exact ⟨_, _, linking.bind (always_pure _ _), roomLinked.mono (Nat.le_succ m)⟩
    · exact ⟨_, _, linking.bind (always_pure _ _), roomLinked.mono (Nat.le_succ m)⟩

-----------------------------------------------------------------------------------------
-- Redirecting every parent
-----------------------------------------------------------------------------------------

/-- The loop over the parents of `old`, each a live gate that uses `old` and visited once,
returns from every journal when the network has room for four nodes and uses per parent: each
pass finds its parent live, with the fan-ins it had, and redirects it. -/
theorem Coherent.always_redirectParents {net₀ : Network} (coherent : net₀.Coherent) {old : Node}
    {s : Signal} {rank : Node → Nat} (ranked : net₀.Ranked rank) (lower : rank s.node < rank old)
    (sLive : net₀.Live s.node) (apart : s.node ≠ old) (oldBelow : old.id < net₀.size)
    {ps : List Node} (nodup : ps.Nodup) (parents : ∀ q ∈ ps, old ∈ net₀.faninNodes q)
    (work : List (Node × Signal)) {m : Nat} (room : net₀.Room (4 * ps.length + m)) :
    ∃ work' net', Always (Network.redirectParents old s ps work) net₀ work' net' ∧ net'.Room m := by
  have sBelow := coherent.lt_size_of_live sLive
  unfold Network.redirectParents
  -- the parents before position `i` are visited, their gates handed back lie on the work, and
  -- four of the room are left for each parent still to come
  refine always_forIn_bind
    (fun i net w => (∃ pushed, w = pushed ++ work ∧ Redirecting net₀ net old s (ps.take i) pushed) ∧
      net.Room (4 * (ps.length - i) + m))
    ?_ ⟨⟨[], rfl, Redirecting.start coherent ranked lower⟩, by rwa [Nat.sub_zero]⟩
    (fun w net' ended => ⟨w, net', always_pure _ _, by
      simpa only [Nat.sub_self, Nat.mul_zero, Nat.zero_add] using ended.2⟩)
  rintro i lt net w ⟨⟨pushed, rfl, redirecting⟩, room₁⟩
  rw [show 4 * (ps.length - i) + m = 4 * (ps.length - (i + 1)) + m + 4 by omega] at room₁
  have uses := parents ps[i] (List.getElem_mem lt)
  have qBelow := lt_size_of_mem_faninNodes uses
  -- the parent at `i` is not visited yet, so it is live and keeps its fan-ins
  obtain ⟨f, gate₀, -⟩ := mem_faninNodes.mp uses
  have gate : net.gateFanins ps[i] = some f := by
    rw [(redirecting.kept ps[i] qBelow (getElem_not_mem_take nodup lt)).1]
    exact gate₀
  obtain ⟨rank', ranked', lower'⟩ := redirecting.ranked
  obtain ⟨res, net', replacing, room'⟩ := redirecting.coherent.always_replaceInNode gate
    (Nat.lt_of_lt_of_le oldBelow redirecting.size) ((redirecting.live s.node sBelow).mpr sLive) apart
    ranked' lower' room₁
  have alive := redirecting.coherent.isDead_of_live (live_of_gateFanins gate)
  refine ⟨(res.map (ps[i], ·)).toList ++ (pushed ++ work), net', ?_, ⟨_,
    (List.append_assoc _ _ _).symm,
    redirecting.visit sLive sBelow apart oldBelow nodup parents lt replacing.returns⟩, room'⟩
  refine (always_query (f := (·.isDead ps[i])) alive).bind ?_
  simp only [Bool.false_eq_true, ↓reduceIte]
  cases res <;> exact replacing.bind (always_pure _ _)

-----------------------------------------------------------------------------------------
-- Following a replacement
-----------------------------------------------------------------------------------------

/-- The recorded substitutions rise along every walk: each record ranks below the number of
records, and below the record of its replacement's node when that node is dead and has one. A
walk through the records then takes at most as many steps as there are records. -/
def ChaseRanked (net : Network) (done : Std.HashMap Nat Signal) (rank : Nat → Nat) : Prop :=
  ∀ k u, done.get? k = some u → rank k < done.size ∧
    ∀ v, done.get? u.node.id = some v → ¬ net.Live u.node → rank k < rank u.node.id

/-- A live replacement is returned as it is, from every journal, with any fuel left. -/
theorem Coherent.always_resolveReplacement_of_live (coherent : net.Coherent) {old : Node}
    {done : Std.HashMap Nat Signal} {fuel : Nat} {new : Signal} (live : net.Live new.node)
    (some : 1 ≤ fuel) : Always (Network.resolveReplacement old done fuel new) net new net := by
  obtain ⟨fuel, rfl⟩ : ∃ k, fuel = k + 1 := ⟨fuel - 1, by omega⟩
  unfold Network.resolveReplacement
  refine (always_query (f := (·.isDead new.node)) (coherent.isDead_of_live live)).bind ?_
  exact always_pure new net

/-- Following a replacement for a live gate `old` of a coherent network returns from every
journal when the fuel covers the walk and the network has room for one rebuild: two steps for a
live or unrecorded node, and for a dead recorded one as many more as records rank above it. The walk moves to records of rising rank; an
unrecorded dead node is left by building `old` again, which gives a live signal. -/
theorem Coherent.always_resolveReplacement (coherent : net.Coherent) {old : Node} {F : Fanins}
    (gate : net.gateFanins old = some F) {done : Std.HashMap Nat Signal} {rank : Nat → Nat}
    (ranked : net.ChaseRanked done rank)
    (recorded : ∀ k u, done.get? k = some u → u.node.id < net.size) (room : net.Room 1) :
    ∀ (fuel : Nat) (new : Signal), new.node.id < net.size → 2 ≤ fuel →
      (∀ u, done.get? new.node.id = some u → ¬ net.Live new.node →
        done.size + 2 ≤ fuel + rank new.node.id) →
      ∃ s net', Always (Network.resolveReplacement old done fuel new) net s net'
  | 0, _, _, enough, _ => absurd enough (by omega)
  | fuel + 1, new, newBelow, enough, covered => by
      have lt : new.node.id < net.refs.size := by rw [coherent.sizes]; exact newBelow
      obtain ⟨r, found⟩ : ∃ r, net.refsOf new.node = .ok r :=
        ⟨_, refsOf_eq_ok.mpr ⟨newBelow, Array.getElem?_eq_getElem lt⟩⟩
      have asking := always_query (f := (·.isDead new.node)) (isDead_eq_ok.mpr ⟨r, found, rfl⟩)
      unfold Network.resolveReplacement
      cases dead : r.dead with
      | false => exact ⟨new, net, asking.bind (by rw [dead]; exact always_pure new net)⟩
      | true =>
          have gone : ¬ net.Live new.node := not_live_of_isDead (dead ▸ isDead_eq_ok.mpr ⟨r, found, rfl⟩)
          cases known : done.get? new.node.id with
          | some u =>
              -- the walk moves to the record, which ranks higher when it is dead and recorded
              have below := (ranked _ _ known).1
              have enough' := covered u known gone
              obtain ⟨s, net', run⟩ := coherent.always_resolveReplacement gate ranked recorded room fuel
                (u.xor new.isComplemented) (by rw [Signal.node_xor]; exact recorded _ _ known)
                (by omega) (fun v found' gone' => by
                  rw [Signal.node_xor] at found' gone' ⊢
                  have := (ranked _ _ known).2 v found' gone'
                  omega)
              exact ⟨s, net', asking.bind (by rw [dead]; exact run)⟩
          | none =>
              -- without a record `old` is built again, and the live result is returned
              obtain ⟨s, net', building, -⟩ := coherent.always_createMaj (a := F.a) (b := F.b)
                (c := F.c) (fun t member => coherent.faninsLive old F gate t member) room
              obtain ⟨coherent', -, live', -⟩ :=
                coherent.createMaj (fun t member => coherent.faninsLive old F gate t member)
                  building.returns
              refine ⟨s, net', asking.bind ?_⟩
              rw [dead]
              refine (always_query (f := (·.data old)) (data_of_gateFanins gate)).bind ?_
              exact building.bind (coherent'.always_resolveReplacement_of_live live' (by omega))

-----------------------------------------------------------------------------------------
-- A substitution that no gate sees
-----------------------------------------------------------------------------------------

/-- Substituting a node that no gate uses, in a coherent network, by a live signal on another
node returns from every journal when the replacement has room for a use by every output: the
outputs move, no parent is redirected, and the node is taken out with the gates only it used. -/
theorem Coherent.always_substituteNode_of_unused (coherent : net.Coherent) {old : Node}
    {new : Signal} (oldBelow : old.id < net.size) (newLive : net.Live new.node)
    (apart : new.node ≠ old) (unused : ∀ g, net.slots g old = 0)
    (room : ∀ r, net.refs[new.node.id]? = some r → r.fanout + net.outputs.size ≤ NodeRefs.maxFanout) :
    ∃ net', Always (Network.substituteNode old new) net () net' := by
  obtain ⟨fuel, positive⟩ : ∃ fuel : Nat, substituteFuel = fuel + 2 :=
    ⟨substituteFuel - 2, by unfold substituteFuel; omega⟩
  have lt : old.id < net.refs.size := by rw [coherent.sizes]; exact oldBelow
  have readOld : net.refsOf old = .ok net.refs[old.id] :=
    refsOf_eq_ok.mpr ⟨oldBelow, Array.getElem?_eq_getElem lt⟩
  have asking := always_query (f := (·.isDead old)) (isDead_eq_ok.mpr ⟨_, readOld, rfl⟩)
  unfold Network.substituteNode
  rw [positive, Network.substituteLoop]
  cases dead : net.refs[old.id].dead with
  | true =>
      refine ⟨net, asking.bind ?_⟩
      rw [dead, if_pos rfl, Network.substituteLoop]
      · exact always_pure () net
      · omega
  | false =>
      have resolving : Always (Network.resolveReplacement old ∅
          (2 * (∅ : Std.HashMap Nat Signal).size + 4) new) net new net :=
        coherent.always_resolveReplacement_of_live newLive (by omega)
      -- the outputs move, and the gates keep their fan-ins
      obtain ⟨net₁, redirecting⟩ := coherent.always_redirectOutputs oldBelow newLive room
      obtain ⟨coherent₁, table₁, -, gates₁, -⟩ := coherent.redirectOutputs newLive redirecting.returns
      have size₁ : net₁.size = net.size := by simp only [size, table₁]
      have lt₁ : old.id < net₁.refs.size := by
        rw [coherent₁.sizes]
        show old.id < net₁.size
        rw [size₁]
        exact oldBelow
      -- no gate uses `old`, so it has no parents to redirect
      have noParents : net₁.refs[old.id].parents = #[] :=
        Array.eq_empty_iff_forall_not_mem.mpr fun g member => by
          have count := coherent₁.parents old _ g (Array.getElem?_eq_getElem lt₁)
          have slotsSame : net₁.slots g old = net.slots g old := by simp only [slots, gates₁]
          rw [slotsSame, unused g] at count
          exact Array.count_eq_zero.mp count member
      have readParents : net₁.parents old = .ok #[] := by
        rw [← noParents]
        simp [Network.parents, refsOf_eq_ok.mpr ⟨by rw [size₁]; exact oldBelow,
          Array.getElem?_eq_getElem lt₁⟩, bind, Except.bind, pure, Except.pure]
      obtain ⟨net₂, takingOut⟩ := coherent₁.always_takeOutNode (by rw [size₁]; exact oldBelow)
      refine ⟨net₂, asking.bind ?_⟩
      rw [dead, if_neg Bool.false_ne_true]
      refine resolving.bind ?_
      rw [if_neg apart]
      refine (always_log _ _ net).bind (redirecting.bind ((always_query readParents).bind ?_))
      have noRedirect : Always (Network.redirectParents old new [] []) net₁ [] net₁ := by
        unfold Network.redirectParents
        exact always_pure _ _
      rw [show sortedUnique (#[] : Array Node) = [] by simp [sortedUnique]]
      refine noRedirect.bind (takingOut.bind ?_)
      rw [Network.substituteLoop]
      · exact always_pure () net₂
      · omega

end Network

end MajorityGraph
