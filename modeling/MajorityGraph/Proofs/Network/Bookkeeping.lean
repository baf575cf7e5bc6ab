import MajorityGraph.Proofs.Mffc.Removal

/-! Coherent bookkeeping while outputs move and gates are taken out, tracked by `UsesCount`. -/

namespace MajorityGraph

namespace Network

open NetM

variable {net net' : Network}

-----------------------------------------------------------------------------------------
-- Moving the outputs
-----------------------------------------------------------------------------------------

section MoveOutput

variable {old : Node} {new : Signal} {i : Nat} {po : Signal}

/-- Moving the output at position `i` from `po` to the replacement takes one output use from
the node of `po` and gives one to the node of the replacement. -/
theorem outputUses_moveOutput (atI : net.outputs[i]? = some po) (n : Node)
    : (net.moveOutput old new i po).outputUses n =
        net.outputUses n - (if po.node = n then 1 else 0) + (if new.node = n then 1 else 0) := by
  obtain ⟨lt, rfl⟩ := Array.getElem?_eq_some_iff.mp atI
  have lt' : i < net.outputs.toList.length := by rw [Array.length_toList]; exact lt
  simp only [outputUses, moveOutput, Array.set!_eq_setIfInBounds, Array.toList_setIfInBounds,
    List.countP_set lt', Array.getElem_toList, Signal.node_xor, decide_eq_true_eq]

/-- The node of an output is used by it. -/
theorem outputUses_pos (atI : net.outputs[i]? = some po) : 0 < net.outputUses po.node :=
  List.countP_pos_iff.mpr ⟨po, by simpa using Array.mem_of_getElem? atI, by simp⟩

/-- The uses of a node after an output move: its fan-out drops when the output was on it, rises
when the replacement is on it, and its parents stay. -/
theorem refs_moveOutput (n : Node)
    : (net.moveOutput old new i po).refs[n.id]? = (net.refs[n.id]?).map fun r =>
        { r with fanout := r.fanout - (if old = n then 1 else 0) + (if new.node = n then 1 else 0) } := by
  simp only [moveOutput, Array.getElem?_modify]
  by_cases isOld : old = n <;> by_cases isNew : new.node = n
  · subst isOld
    subst isNew
    simp only [if_true]
    cases net.refs[new.node.id]? <;> rfl
  · subst isOld
    have other : new.node.id ≠ old.id := fun same => isNew (Node.eq_of_id_eq same)
    simp only [if_true, other, if_false, isNew, Nat.add_zero]
  · subst isNew
    have other : old.id ≠ new.node.id := fun same => isOld (Node.eq_of_id_eq same)
    simp only [other, if_false, if_true, isOld, Nat.sub_zero]
  · have otherOld : old.id ≠ n.id := fun same => isOld (Node.eq_of_id_eq same)
    have otherNew : new.node.id ≠ n.id := fun same => isNew (Node.eq_of_id_eq same)
    simp only [otherOld, otherNew, isOld, isNew, if_false, Nat.sub_zero, Nat.add_zero]
    cases net.refs[n.id]? <;> rfl

/-- Moving an output on `old` keeps the count of every use. -/
theorem UsesCount.moveOutput {slotsOf : Node → Node → Nat} (counted : net.UsesCount slotsOf)
    (atI : net.outputs[i]? = some po) (onOld : po.node = old)
    : (net.moveOutput old new i po).UsesCount slotsOf := by
  intro n r uses
  rw [refs_moveOutput] at uses
  obtain ⟨r₀, uses₀, rfl⟩ := Option.map_eq_some_iff.mp uses
  obtain ⟨fanout, parents⟩ := counted n r₀ uses₀
  have moved : (net.moveOutput old new i po).outputUses n = _ := outputUses_moveOutput atI n
  have used := outputUses_pos atI
  refine ⟨?_, parents⟩
  subst onOld
  rw [moved]
  by_cases isOld : po.node = n
  · subst isOld
    simp only [if_true] at fanout ⊢
    omega
  · simp only [isOld, if_false] at fanout ⊢
    omega

/-- Moving an output keeps every use count within its word when the replacement's count, once
the old node has given up its use, has room for one more. -/
theorem FanoutFits.moveOutput (fits : net.FanoutFits)
    (room : ∃ r', (net.refs.modify old.id fun r => { r with fanout := r.fanout - 1 })[new.node.id]? =
      some r' ∧ r'.fanout < NodeRefs.maxFanout)
    : (net.moveOutput old new i po).FanoutFits := by
  obtain ⟨r', found, lt⟩ := room
  have lowered : (⟨net.table, net.refs.modify old.id fun r => { r with fanout := r.fanout - 1 },
      net.inputs, net.outputs, net.numGates⟩ : Network).FanoutFits :=
    fits.modify (g := fun r => { r with fanout := r.fanout - 1 }) rfl fun r uses =>
      Nat.le_trans (Nat.sub_le _ _) (fits old r uses)
  refine lowered.modify (i := new.node.id) (g := fun r => { r with fanout := r.fanout + 1 }) rfl
    fun r uses => ?_
  rw [found] at uses
  cases uses
  exact lt

/-- Moving an output on `old` to a live replacement with room for one more use keeps a network
coherent. -/
theorem Coherent.moveOutput (coherent : net.Coherent) (newLive : net.Live new.node)
    (atI : net.outputs[i]? = some po) (onOld : po.node = old)
    (room : ∃ r', (net.refs.modify old.id fun r => { r with fanout := r.fanout - 1 })[new.node.id]? =
      some r' ∧ r'.fanout < NodeRefs.maxFanout)
    : (net.moveOutput old new i po).Coherent := by
  have dead := @refs_moveOutput_dead net old new i po
  have counted : (net.moveOutput old new i po).UsesCount net.slots :=
    coherent.usesCount.moveOutput atI onOld
  have slotsSame : ∀ g n, (net.moveOutput old new i po).slots g n = net.slots g n := fun g n => by
    rw [slots, slots, gateFanins_moveOutput]
  refine coherent.of_uses rfl rfl rfl (by simp [Network.moveOutput]) gateFanins_moveOutput
    (fun n live => (live_of_dead dead n).mpr live) (fun s member => ?_)
    (fun n r uses => (counted n r uses).1) (coherent.fanoutFits.moveOutput room)
    (fun n r g uses => ((counted n r uses).2 g).trans (slotsSame g n).symm)
  rw [live_of_dead dead]
  simp only [Network.moveOutput, Array.set!_eq_setIfInBounds] at member
  rcases Array.mem_or_eq_of_mem_setIfInBounds member with before | rfl
  · exact coherent.outputsLive s before
  · rw [Signal.node_xor]
    exact newLive

end MoveOutput

/-- Moving the outputs off `old` to a live replacement keeps a network coherent, with its table,
live nodes, live gates, inputs and gate count; every output on `old` is now on the
replacement. -/
theorem Coherent.redirectOutputs (coherent : net.Coherent) {old : Node} {new : Signal} {u : Unit}
    (newLive : net.Live new.node) (run : Returns (Network.redirectOutputs old new) net u net')
    : net'.Coherent ∧ net'.table = net.table ∧ (∀ n, net'.Live n ↔ net.Live n) ∧
        (∀ g, net'.gateFanins g = net.gateFanins g) ∧ net'.inputs = net.inputs ∧
        net'.numGates = net.numGates ∧
        ∀ j : Nat, net'.outputs[j]? = (net.outputs[j]?).map (redirectSignal old new) := by
  obtain ⟨-, table', inputs', gates', outputs'⟩ := coherent.sound.redirectOutputs
    (coherent.lt_size_of_live newLive) run
  -- coherence, the live nodes and the gate count survive every position
  have kept := redirectOutputs_induction (fun _ net₁ => net₁.Coherent ∧
      (∀ n, net₁.Live n ↔ net.Live n) ∧ net₁.numGates = net.numGates)
    ⟨coherent, fun _ => Iff.rfl, rfl⟩ (fun _ _ _ holds _ _ => holds)
    (fun i _ net₁ _ ⟨coherent₁, lives₁, numGates₁⟩ atI onOld _ _ room =>
      ⟨coherent₁.moveOutput ((lives₁ new.node).mpr newLive) atI onOld room,
        fun n => (live_of_dead refs_moveOutput_dead n).trans (lives₁ n), numGates₁⟩) run
  exact ⟨kept.1, table', kept.2.1, gates', inputs', kept.2.2, outputs'⟩

-----------------------------------------------------------------------------------------
-- Taking gates out
-----------------------------------------------------------------------------------------

/-- `net'` is `net` with some live gates taken out: the records, the inputs and the outputs
stay, only live gates die, and every node still live keeps its fan-ins and its link. -/
structure Thins (net net' : Network) : Prop where
  size : net'.size = net.size
  values : ∀ i, net'.table.valueAt i = net.table.valueAt i
  inputs : net'.inputs = net.inputs
  outputs : net'.outputs = net.outputs
  live : ∀ m, net'.Live m → net.Live m
  dies : ∀ m, net.Live m → ¬ net'.Live m → (net.gateFanins m).isSome
  gates : ∀ g, net'.Live g → net'.gateFanins g = net.gateFanins g
  links : ∀ i, net'.Live ⟨i⟩ → net'.table.linkedAt i = net.table.linkedAt i

theorem Thins.refl (net : Network) : Thins net net :=
  ⟨rfl, fun _ => rfl, rfl, rfl, fun _ live => live, fun _ live dead => absurd live dead,
    fun _ _ => rfl, fun _ _ => rfl⟩

theorem Thins.trans {net'' : Network} (first : Thins net net') (second : Thins net' net'')
    : Thins net net'' where
  size := second.size.trans first.size
  values i := (second.values i).trans (first.values i)
  inputs := second.inputs.trans first.inputs
  outputs := second.outputs.trans first.outputs
  live m live := first.live m (second.live m live)
  dies m live dead := by
    by_cases kept : net'.Live m
    · rw [← first.gates m kept]
      exact second.dies m kept dead
    · exact first.dies m live kept
  gates g live := (second.gates g live).trans (first.gates g (second.live g live))
  links i live := (second.links i live).trans (first.links i (second.live _ live))

/-- Two tests that differ only at one member `x` of a list without repeats, where the first
holds and the second fails, count one apart. -/
theorem countP_eq_add_one_of_differ {α : Type} [DecidableEq α] {p q : α → Bool} {x : α}
    : ∀ {l : List α}, l.Nodup → x ∈ l → (∀ y ∈ l, y ≠ x → p y = q y) → p x = true →
      q x = false → l.countP p = l.countP q + 1
  | [], _, member, _, _, _ => absurd member List.not_mem_nil
  | y :: rest, nodup, member, same, holds, fails => by
      rw [List.nodup_cons] at nodup
      by_cases here : y = x
      · subst here
        have rest_same : rest.countP p = rest.countP q :=
          List.countP_congr fun z inRest => by
            rw [same z (List.mem_cons_of_mem _ inRest) fun eq => nodup.1 (eq ▸ inRest)]
        simp [holds, fails, rest_same]
      · have inRest := (List.mem_cons.mp member).resolve_left (Ne.symm here)
        have rest_count := countP_eq_add_one_of_differ nodup.2 inRest
          (fun z inRest' => same z (List.mem_cons_of_mem _ inRest')) holds fails
        simp only [List.countP_cons, same y List.mem_cons_self here, rest_count]
        omega

/-- Killing one live gate, and changing no other, counts one live gate fewer. -/
theorem liveGateCount_kill {n : Node} (size : net'.size = net.size)
    (gate : (net.gateFanins n).isSome) (gone : net'.gateFanins n = none)
    (others : ∀ g, g ≠ n → net'.gateFanins g = net.gateFanins g)
    : net'.liveGateCount + 1 = net.liveGateCount := by
  unfold liveGateCount
  rw [size, ← List.countP_eq_length_filter, ← List.countP_eq_length_filter]
  refine (countP_eq_add_one_of_differ List.nodup_range
    (List.mem_range.mpr (lt_size_of_gateFanins (Option.get_mem gate))) (fun i _ other => ?_)
    gate (by simp [gone])).symm
  rw [others ⟨i⟩ fun same => other (congrArg Node.id same)]

section Kill

variable {n : Node} {f : Fanins} {r : NodeRefs} {t : UniqueTable NodeData}

/-- Killing a live gate keeps the recorded uses, which now count the killed gate's slots beside
those of the live gates. -/
theorem Coherent.usesCount_killed (coherent : net.Coherent) (gate : net.gateFanins n = some f)
    (unlinked : net.table.unlink n.id = .ok t)
    : (net.killed n t).UsesCount fun g m =>
        (net.killed n t).slots g m + if g = n then (f.toList.map Signal.node).count m else 0 := by
  have gates := gateFanins_killed coherent.indexed unlinked
  intro m r' uses
  simp only [killed, Array.getElem?_modify] at uses
  have counted : ∀ r₀, net.refs[m.id]? = some r₀ → r'.fanout = r₀.fanout ∧ r'.parents = r₀.parents := by
    intro r₀ uses₀
    rw [uses₀] at uses
    split at uses <;> cases uses <;> exact ⟨rfl, rfl⟩
  obtain ⟨r₀, uses₀⟩ : ∃ r₀, net.refs[m.id]? = some r₀ := by
    split at uses
    · obtain ⟨r₀, uses₀, -⟩ := Option.map_eq_some_iff.mp uses
      rename_i same
      exact ⟨r₀, same ▸ uses₀⟩
    · exact ⟨r', uses⟩
  obtain ⟨fanout, parents⟩ := counted r₀ uses₀
  refine ⟨by rw [fanout, parents, coherent.fanout m r₀ uses₀]; rfl, fun g => ?_⟩
  dsimp only
  rw [parents, coherent.parents m r₀ g uses₀, slots_eq_count, slots_eq_count, faninNodes,
    faninNodes, gates]
  by_cases isN : g = n
  · subst isN
    simp [gate]
  · simp [isN]

/-- After a live gate without fan-out is killed and its uses of its fan-ins are dropped, a
coherent network is coherent again; it has lost that gate and nothing else. -/
theorem Coherent.of_killed (coherent : net.Coherent) (gate : net.gateFanins n = some f)
    (uses : net.refs[n.id]? = some r) (unused : r.fanout = 0)
    (unlinked : net.table.unlink n.id = .ok t) {net₂ : Network} (table : net₂.table = t)
    (dead : ∀ i : Nat, (net₂.refs[i]?).map NodeRefs.dead = ((net.killed n t).refs[i]?).map NodeRefs.dead)
    (sizes : net₂.refs.size = net.refs.size) (inputs : net₂.inputs = net.inputs)
    (outputs : net₂.outputs = net.outputs) (numGates : net₂.numGates = net.numGates - 1)
    (counted : net₂.UsesCount net₂.slots) (fanoutFits : net₂.FanoutFits)
    : net₂.Coherent ∧ Thins net net₂ ∧ ¬ net₂.Live n := by
  obtain ⟨indexed, size, values, links⟩ := coherent.indexed.unlink unlinked
  have gatesKilled := gateFanins_killed coherent.indexed unlinked
  have gates : ∀ g, net₂.gateFanins g = if g = n then none else net.gateFanins g := fun g => by
    rw [← gatesKilled]
    exact gateFanins_of_dead table dead g
  have livesKilled : ∀ m, (net.killed n t).Live m ↔ net.Live m ∧ m ≠ n := fun m => by
    unfold Live
    simp only [killed, Array.getElem?_modify]
    by_cases isN : m = n
    · subst isN
      cases net.refs[m.id]? <;> simp
    · have other : n.id ≠ m.id := fun same => isN (Node.eq_of_id_eq same).symm
      simp [other, isN]
  have lives : ∀ m, net₂.Live m ↔ net.Live m ∧ m ≠ n := fun m =>
    (live_of_dead dead m).trans (livesKilled m)
  -- nothing used the gate, so no output and no live gate names it
  have unusedUses := coherent.fanout n r uses
  rw [unused] at unusedUses
  have noOutput : net.outputUses n = 0 := by omega
  have noSlot : ∀ g, net.slots g n = 0 := fun g => by
    rw [← coherent.parents n r g uses, Array.count_eq_zero]
    intro member
    have := Array.size_pos_of_mem member
    omega
  have notOnN : ∀ g f', net.gateFanins g = some f' → ∀ s ∈ f'.toList, s.node ≠ n := by
    intro g f' gate' s member onN
    have := noSlot g
    rw [slots, gate', List.countP_eq_zero] at this
    exact this s member (by simp [onN])
  have sameSize : net₂.size = net.size := by
    simp only [Network.size, table]
    exact size
  have thins : Thins net net₂ := {
    size := sameSize
    values := fun i => by rw [table]; exact values i
    inputs := inputs
    outputs := outputs
    live := fun m live => ((lives m).mp live).1
    dies := fun m live gone => by
      have isN : m = n := by
        by_contra other
        exact gone ((lives m).mpr ⟨live, other⟩)
      rw [isN, gate]
      rfl
    gates := fun g live => by rw [gates, if_neg ((lives g).mp live).2]
    links := fun i live => by
      rw [table, links]
      have other : i ≠ n.id := fun same => ((lives ⟨i⟩).mp live).2 (by rw [same])
      simp [other] }
  refine ⟨{
    sizes := by rw [sizes, table, size, coherent.sizes]
    fits := by rw [sameSize]; exact coherent.fits
    fanoutFits := fanoutFits
    constant := by rw [table, values]; exact coherent.constant
    onlyConstant := fun i d value => by
      rw [table, values] at value
      exact coherent.onlyConstant i d value
    inputsNodup := by rw [inputs]; exact coherent.inputsNodup
    inputs := fun m => by rw [inputs, table, values]; exact coherent.inputs m
    inputRecord := fun i d value => by
      rw [table, values] at value
      exact coherent.inputRecord i d value
    fanout := fun m r' uses' => (counted m r' uses').1
    parents := fun m r' g uses' => (counted m r' uses').2 g
    outputsLive := fun s member => by
      rw [outputs] at member
      refine (lives s.node).mpr ⟨coherent.outputsLive s member, fun onN => ?_⟩
      have : 0 < net.outputUses n :=
        List.countP_pos_iff.mpr ⟨s, Array.mem_toList_iff.mpr member, by simp [onN]⟩
      omega
    faninsLive := fun g f' gate' s member => by
      rw [gates] at gate'
      split at gate'
      · cases gate'
      · exact (lives s.node).mpr ⟨coherent.faninsLive g f' gate' s member, notOnN g f' gate' s member⟩
    linkedGate := fun i linked => by
      rw [table, links] at linked
      simp only [Bool.and_eq_true, bne_iff_ne, ne_eq] at linked
      rw [gates, if_neg fun same => linked.1 (by rw [← same])]
      exact coherent.linkedGate i linked.2
    normal := fun g f' gate' linked => by
      rw [gates] at gate'
      rw [table, links] at linked
      simp only [Bool.and_eq_true] at linked
      split at gate'
      · cases gate'
      · exact coherent.normal g f' gate' linked.2
    distinct := fun g h f' gate' other linkedG linkedH => by
      rw [gates] at gate' other
      rw [table, links] at linkedG linkedH
      simp only [Bool.and_eq_true] at linkedG linkedH
      split at gate'
      · cases gate'
      · split at other
        · cases other
        · exact coherent.distinct g h f' gate' other linkedG.2 linkedH.2
    indexed := by rw [table]; exact indexed
    numGates := by
      have killedCount := liveGateCount_kill sameSize (by rw [gate]; rfl)
        (by rw [gates, if_pos rfl]) fun g other => by rw [gates, if_neg other]
      rw [numGates, coherent.numGates]
      omega
    acyclic := by
      obtain ⟨rank, ranked⟩ := coherent.acyclic
      refine ⟨rank, fun g f' gate' => ?_⟩
      rw [gates] at gate'
      split at gate'
      · cases gate'
      · exact ranked g f' gate' }, thins, fun live => ((lives n).mp live).2 rfl⟩

/-- Killing a live gate without fan-out and then dropping its uses of its fan-ins, one slot per
pass of a loop, leaves a coherent network coherent; it has lost that gate and nothing else. -/
theorem Coherent.dropUses {β : Type} (coherent : net.Coherent) (gate : net.gateFanins n = some f)
    (uses : net.refs[n.id]? = some r) (unused : r.fanout = 0)
    (unlinked : net.table.unlink n.id = .ok t) {body : Signal → β → NetM (ForInStep β)}
    (pass : ∀ s c net₁ step net₂, Returns (body s c) net₁ step net₂ →
      step = .yield step.value ∧ net₁.removeReference s.node n = .ok net₂)
    {init b : β} {net₂ : Network} (run : Returns (forIn f.toList init body) (net.killed n t) b net₂)
    : net₂.Coherent ∧ Thins net net₂ ∧ ¬ net₂.Live n := by
  let K := net.killed n t
  -- the slots of the killed gate still to drop are those of the fan-ins not yet passed
  let Dropping (i : Nat) (net₁ : Network) : Prop :=
    net₁.table = t ∧ (∀ j : Nat, (net₁.refs[j]?).map NodeRefs.dead = (K.refs[j]?).map NodeRefs.dead) ∧
      net₁.refs.size = net.refs.size ∧ net₁.inputs = net.inputs ∧ net₁.outputs = net.outputs ∧
      net₁.numGates = net.numGates - 1 ∧
      net₁.UsesCount (fun g m => K.slots g m +
        if g = n then ((f.toList.drop i).map Signal.node).count m else 0) ∧ net₁.FanoutFits
  have start : Dropping 0 K :=
    ⟨rfl, fun _ => rfl, Array.size_modify .., rfl, rfl, rfl, by
      simpa using coherent.usesCount_killed gate unlinked,
      coherent.fanoutFits.modify (g := fun r => { r with dead := true }) rfl
        fun r uses => coherent.fanoutFits n r uses⟩
  have finish := Returns.forIn_list_index (fun i net₁ _ => Dropping i net₁) (fun i lt c net₁ step net₃ kept body => by
      obtain ⟨yields, removed⟩ := pass _ c net₁ step net₃ body
      obtain ⟨table, dead, sizes, inputs, outputs, numGates, counted, fits⟩ := kept
      have fits' := fits.removeReference removed
      obtain ⟨r₀, _, _, rfl⟩ := removeReference_eq_ok.mp removed
      have split : f.toList.drop i = f.toList[i] :: f.toList.drop (i + 1) := List.drop_eq_getElem_cons lt
      have recorded : 0 < K.slots n f.toList[i].node +
          if n = n then ((f.toList.drop i).map Signal.node).count f.toList[i].node else 0 := by
        rw [if_pos rfl, split, List.map_cons, List.count_cons_self]
        omega
      refine ⟨yields, table, fun j => ?_, by simp [sizes], inputs, outputs, numGates, ?_, fits'⟩
      · rw [← dead j]
        exact dead_modify _ _ (NodeRefs.dead_withoutUse n) j
      · refine (counted.removeReference recorded removed).congr fun g m => ?_
        rw [split, List.map_cons, List.count_cons]
        by_cases isN : g = n
        · by_cases isFanin : m = f.toList[i].node
          · simp only [isN, isFanin, if_true, and_self, beq_self_eq_true]
            omega
          · simp [isN, isFanin, Ne.symm isFanin]
        · simp [isN]) start run
  obtain ⟨table, dead, sizes, inputs, outputs, numGates, counted, fits⟩ := finish
  have gates := gateFanins_of_dead table dead
  refine coherent.of_killed gate uses unused unlinked table dead sizes inputs outputs numGates
    (counted.congr fun g m => ?_) fits
  simp [slots, gates]

end Kill

/-- The take-out walk keeps a network coherent and only takes live gates out; the node it
starts from dies when it is a live gate without fan-out. -/
theorem Coherent.takeOutLoop : ∀ (fuel : Nat) (stack : List Node) {net net' : Network} {u : Unit},
    net.Coherent → Returns (Network.takeOutLoop fuel stack) net u net' →
      net'.Coherent ∧ Thins net net' ∧ ∀ n ∈ stack.head?, ∀ f r, net.gateFanins n = some f →
        net.refs[n.id]? = some r → r.fanout = 0 → ¬ net'.Live n
  | 0, _, _, _, _, _, run => absurd run not_returns_throw
  | fuel + 1, [], net, net', u, coherent, run => by
      simp only [Network.takeOutLoop] at run
      obtain ⟨-, rfl⟩ := returns_pure.mp run
      exact ⟨coherent, Thins.refl _, by simp⟩
  | fuel + 1, n :: stack, net, net', u, coherent, run => by
      unfold Network.takeOutLoop at run
      obtain ⟨d, net₁, readD, afterData⟩ := run.bind
      obtain ⟨readD, rfl⟩ := returns_query.mp readD
      obtain ⟨r, net₂, readR, afterRefs⟩ := afterData.bind
      obtain ⟨readR, rfl⟩ := returns_query.mp readR
      have value := data_eq_ok_iff.mp readD
      have uses := (refsOf_eq_ok.mp readR).2
      split at afterRefs
      · -- a node that is no live gate without fan-out is passed over
        rename_i passed
        obtain ⟨coherent', thins, -⟩ := Coherent.takeOutLoop fuel stack coherent afterRefs
        refine ⟨coherent', thins, fun m head f r' gate uses' unused => ?_⟩
        cases Option.mem_some_iff.mp head
        obtain ⟨c, r₀, cell, uses₀, isGate, alive⟩ := gateFanins_eq_some.mp gate
        rw [uses] at uses'
        rw [uses] at uses₀
        cases uses'
        cases uses₀
        simp only [UniqueTable.valueAt, cell, Option.map_some, Option.some.injEq] at value
        simp [← value, isGate, NodeData.isGate, NodeData.majority, alive, unused] at passed
      · rename_i killing
        simp only [Bool.or_eq_true, bne_iff_ne, Bool.not_eq_true', not_or, Bool.not_eq_false,
          ne_eq, Decidable.not_not] at killing
        obtain ⟨⟨isGate, alive⟩, unused⟩ := killing
        obtain ⟨_, net₃, logged, afterLog⟩ := afterRefs.bind
        rw [returns_log] at logged
        rw [logged] at afterLog
        obtain ⟨_, net₄, killed, afterKill⟩ := afterLog.bind
        rw [returns_update] at killed
        obtain ⟨t, unlinked, counted, rfl⟩ := kill_eq_ok.mp killed
        have gate : net₂.gateFanins n = some d.fanins := by
          rw [gateFanins_eq, value, uses]
          simp [isGate, alive]
        obtain ⟨stack', net₅, loop, rest⟩ := afterKill.bind
        obtain ⟨dropped, thinned, gone⟩ := coherent.dropUses gate uses unused unlinked
          (fun s c net₆ step net₇ body => by
            obtain ⟨_, net₈, removing, afterRemove⟩ := body.bind
            rw [returns_update] at removing
            obtain ⟨count, net₉, counting, afterCount⟩ := afterRemove.bind
            rw [(returns_query.mp counting).2] at afterCount
            split at afterCount <;>
              obtain ⟨rfl, rfl⟩ := returns_pure.mp afterCount <;> exact ⟨rfl, removing⟩) loop
        obtain ⟨final, thins, -⟩ := Coherent.takeOutLoop fuel stack' dropped rest
        refine ⟨final, thinned.trans thins, fun m head f r' gate' uses' unused' live => ?_⟩
        cases Option.mem_some_iff.mp head
        exact gone (thins.live n live)

/-- Taking a node out keeps a network coherent and only takes live gates out; the node dies
when it is a live gate without fan-out. -/
theorem Coherent.takeOutNode {n : Node} {u : Unit} (coherent : net.Coherent)
    (run : Returns (Network.takeOutNode n) net u net')
    : net'.Coherent ∧ Thins net net' ∧ ∀ f r, net.gateFanins n = some f →
        net.refs[n.id]? = some r → r.fanout = 0 → ¬ net'.Live n := by
  unfold Network.takeOutNode at run
  obtain ⟨net₀, net₁, read, walk⟩ := run.bind
  obtain ⟨rfl, rfl⟩ := returns_get.mp read
  obtain ⟨coherent', thins, dies⟩ := coherent.takeOutLoop _ _ walk
  exact ⟨coherent', thins, dies n rfl⟩

end Network

end MajorityGraph
