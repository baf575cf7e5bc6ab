import Mathlib.Algebra.BigOperators.Group.Finset.Piecewise
import MajorityGraph.Proofs.Mffc.Cone
import MajorityGraph.Proofs.UniqueTable.Runs
import MajorityGraph.Proofs.Network.Substitution
import MajorityGraph.Proofs.Network.HashConsing

/-!
Taking out a gate without fan-out kills exactly its cone (`takeOutNode_spec`), which is what
`Mffc.nodes` lists (`nodes_least_cone`).
-/

namespace MajorityGraph

namespace Network

open NetM

variable {net₀ net : Network}

/-- Distinct live gates are at most as many as the network counts. -/
theorem card_le_liveGateCount {K : Finset Node} (gates : ∀ g ∈ K, (net.gateFanins g).isSome) :
    K.card ≤ net.liveGateCount := by
  classical
  have ids : (K.image (·.id)).card = K.card :=
    Finset.card_image_of_injective _ fun a b same => Node.eq_of_id_eq same
  have within : K.image (·.id) ⊆
      ((List.range net.size).filter fun i => (net.gateFanins ⟨i⟩).isSome).toFinset := by
    intro i member
    obtain ⟨g, inK, rfl⟩ := Finset.mem_image.mp member
    obtain ⟨f, stored⟩ := Option.isSome_iff_exists.mp (gates g inK)
    simp [lt_size_of_gateFanins stored, stored]
  calc K.card = (K.image (·.id)).card := ids.symm
    _ ≤ _ := Finset.card_le_card within
    _ ≤ net.liveGateCount := List.toFinset_card_le _

/-- The live gates are at most as many as the nodes. -/
theorem liveGateCount_le_size (net : Network) : net.liveGateCount ≤ net.size := by
  simpa [liveGateCount] using List.length_filter_le _ (List.range net.size)

variable {D : Finset Node} {removed : Node → Nat}

/-- How far a take-out from `net₀` has come: the gates of `D`, live gates of `net₀`, are dead and
no longer counted, and each node has lost `removed` of its uses; the records and the table's
index stay. -/
structure Trimmed (net₀ : Network) (D : Finset Node) (removed : Node → Nat) (net : Network) :
    Prop where
  values : ∀ i, net.table.valueAt i = net₀.table.valueAt i
  cells : net.table.cells.size = net₀.table.cells.size
  indexed : net.table.Indexed
  refsSize : net.refs.size = net₀.refs.size
  refs : ∀ g r₀, net₀.refs[g.id]? = some r₀ → ∃ r, net.refs[g.id]? = some r ∧
    r.fanout = r₀.fanout - removed g ∧ r.dead = (r₀.dead || decide (g ∈ D))
  numGates : net.numGates + D.card = net₀.numGates
  gates : ∀ g ∈ D, (net₀.gateFanins g).isSome

/-- Nothing is out at the start. -/
theorem Trimmed.start (coherent : net₀.Coherent) : Trimmed net₀ ∅ (fun _ => 0) net₀ where
  values _ := rfl
  cells := rfl
  indexed := coherent.indexed
  refsSize := rfl
  refs g r₀ found := ⟨r₀, found, rfl, by simp⟩
  numGates := rfl
  gates g member := absurd member (Finset.notMem_empty g)

theorem Trimmed.congr {removed' : Node → Nat} (trimmed : Trimmed net₀ D removed net)
    (same : ∀ g, removed g = removed' g) : Trimmed net₀ D removed' net where
  values := trimmed.values
  cells := trimmed.cells
  indexed := trimmed.indexed
  refsSize := trimmed.refsSize
  refs g r₀ found := by
    obtain ⟨r, uses, fanout, dead⟩ := trimmed.refs g r₀ found
    exact ⟨r, uses, by rw [fanout, same], dead⟩
  numGates := trimmed.numGates
  gates := trimmed.gates

/-- A node is live once trimmed exactly when it was live and is not among the dead gates. -/
theorem Trimmed.live_iff (trimmed : Trimmed net₀ D removed net) (g : Node) :
    net.Live g ↔ net₀.Live g ∧ g ∉ D := by
  constructor
  · rintro ⟨r, uses, alive⟩
    obtain ⟨r₀, found⟩ : ∃ r₀, net₀.refs[g.id]? = some r₀ := by
      have below := (Array.getElem?_eq_some_iff.mp uses).1
      rw [trimmed.refsSize] at below
      exact ⟨_, Array.getElem?_eq_getElem below⟩
    obtain ⟨r', uses', -, dead⟩ := trimmed.refs g r₀ found
    rw [uses] at uses'
    cases uses'
    rw [alive, eq_comm, Bool.or_eq_false_iff, decide_eq_false_iff_not] at dead
    exact ⟨⟨r₀, found, dead.1⟩, dead.2⟩
  · rintro ⟨⟨r₀, found, alive⟩, notDead⟩
    obtain ⟨r, uses, -, dead⟩ := trimmed.refs g r₀ found
    exact ⟨r, uses, by simp [dead, alive, notDead]⟩

/-- A live gate of a coherent network is no sentinel: node 0 holds the constant. -/
theorem Coherent.id_ne_zero (coherent : net.Coherent) {n : Node} (gate : (net.gateFanins n).isSome) :
    n.id ≠ 0 := by
  obtain ⟨f, stored⟩ := Option.isSome_iff_exists.mp gate
  intro zero
  have value := valueAt_of_gateFanins stored
  rw [zero, coherent.constant] at value
  cases value

/-- Taking out a further live gate of `net₀`: the unlink succeeds, and the gate is dead and
counted off. -/
theorem Trimmed.kill (coherent : net₀.Coherent) (trimmed : Trimmed net₀ D removed net) {n : Node}
    (gate : (net₀.gateFanins n).isSome) (fresh : n ∉ D) :
    ∃ t, net.table.unlink n.id = .ok t ∧ Trimmed net₀ (insert n D) removed (net.killed n t) := by
  obtain ⟨f, stored⟩ := Option.isSome_iff_exists.mp gate
  have below : n.id < net.table.cells.size := by
    rw [trimmed.cells]
    exact lt_size_of_gateFanins stored
  obtain ⟨t, unlinked⟩ := trimmed.indexed.unlink_isOk (coherent.id_ne_zero gate) below
  obtain ⟨indexed, size, values, -⟩ := trimmed.indexed.unlink unlinked
  -- the gate count covers the dead gates with this one
  have counted : (insert n D).card ≤ net₀.numGates := by
    rw [coherent.numGates]
    exact card_le_liveGateCount fun g member => by
      rcases Finset.mem_insert.mp member with rfl | dead
      · exact gate
      · exact trimmed.gates g dead
  have cardInsert := Finset.card_insert_of_notMem fresh
  have numGates := trimmed.numGates
  refine ⟨t, unlinked, ⟨fun i => (values i).trans (trimmed.values i), size.trans trimmed.cells,
    indexed, by simp [killed, trimmed.refsSize], fun g r₀ found => ?_, ?_, fun g member => ?_⟩⟩
  · obtain ⟨r, uses, fanout, dead⟩ := trimmed.refs g r₀ found
    simp only [killed, Array.getElem?_modify, uses]
    by_cases same : g = n
    · subst same
      exact ⟨{ r with dead := true }, by simp, fanout, by simp⟩
    · have other : n.id ≠ g.id := fun ids => same (Node.eq_of_id_eq ids).symm
      exact ⟨r, by simp [other], fanout, by simp [dead, same]⟩
  · simp only [killed]
    omega
  · rcases Finset.mem_insert.mp member with rfl | dead
    · exact gate
    · exact trimmed.gates g dead

/-- Dropping a use of `c` that the trimming has not yet removed: it succeeds, and the fan-out of
`c` drops by one. -/
theorem Trimmed.removeReference (coherent : net₀.Coherent) (trimmed : Trimmed net₀ D removed net)
    {c parent : Node} {r₀ : NodeRefs} (found : net₀.refs[c.id]? = some r₀)
    (room : removed c < r₀.fanout) :
    ∃ net', net.removeReference c parent = .ok net' ∧
      Trimmed net₀ D (fun g => removed g + if c = g then 1 else 0) net' ∧
      net'.fanoutSize c = .ok (r₀.fanout - (removed c + 1)) := by
  obtain ⟨r, uses, fanout, dead⟩ := trimmed.refs c r₀ found
  have below : c.id < net.size := by
    show c.id < net.table.cells.size
    rw [trimmed.cells, ← coherent.sizes]
    exact (Array.getElem?_eq_some_iff.mp found).1
  have read : net.refsOf c = .ok r := refsOf_eq_ok.mpr ⟨below, uses⟩
  refine ⟨_, removeReference_eq_ok.mpr ⟨r, read, by omega, rfl⟩, ⟨trimmed.values, trimmed.cells,
    trimmed.indexed, by simp [trimmed.refsSize], fun g r₀' found' => ?_, trimmed.numGates,
    trimmed.gates⟩, ?_⟩
  · obtain ⟨r', uses', fanout', dead'⟩ := trimmed.refs g r₀' found'
    simp only [Array.getElem?_modify, uses']
    by_cases same : c = g
    · subst same
      rw [found] at found'
      cases found'
      rw [uses] at uses'
      cases uses'
      refine ⟨r.withoutUse parent, by simp, ?_, by simp [dead]⟩
      simp only [NodeRefs.fanout_withoutUse, fanout, if_true]
      omega
    · have other : c.id ≠ g.id := fun ids => same (Node.eq_of_id_eq ids)
      exact ⟨r', by simp [other], by simp [fanout', same], dead'⟩
  · refine fanoutSize_eq_ok.mpr ⟨r.withoutUse parent, refsOf_eq_ok.mpr ⟨below, by simp [Array.getElem?_modify, uses]⟩, ?_⟩
    simp only [NodeRefs.fanout_withoutUse, fanout]
    omega

variable {K : Finset Node} {n : Node} {l : List Signal} {stack₀ stack : List Node}

/-- Where dropping the uses of a gate `n` being taken out stands after the first `i` of its
fan-ins `l`: besides the uses from the gates of `K`, those slots' uses are removed, and the stack
has gained each node whose fan-out they brought to zero. -/
structure Removing (net₀ : Network) (K : Finset Node) (n : Node) (l : List Signal)
    (stack₀ : List Node) (i : Nat) (net : Network) (stack : List Node) : Prop where
  trimmed : Trimmed net₀ (insert n K)
    (fun g => net₀.slotsFrom K g + (l.take i).countP (·.node = g)) net
  pushed : ∀ g, g ∈ stack ↔ g ∈ stack₀ ∨ (0 < (l.take i).countP (·.node = g) ∧
    net₀.fanoutSize g = .ok (net₀.slotsFrom K g + (l.take i).countP (·.node = g)))
  length : stack.length ≤ stack₀.length + i

theorem Removing.start (trimmed : Trimmed net₀ (insert n K) (net₀.slotsFrom K) net) :
    Removing net₀ K n l stack₀ 0 net stack₀ where
  trimmed := trimmed.congr fun g => by simp
  pushed g := by simp
  length := Nat.le_refl _

/-- Dropping the use in one more fan-in slot of `n`: it succeeds, as the uses removed stay within
the fan-out, and the fan-in's node is pushed when its fan-out reaches zero. -/
theorem Removing.step (coherent : net₀.Coherent) {f : Fanins} (stored : net₀.gateFanins n = some f)
    (fresh : n ∉ K) {i : Nat} (removing : Removing net₀ K n f.toList stack₀ i net stack) (lt : i < f.toList.length) :
    ∃ net' k, net.removeReference f.toList[i].node n = .ok net' ∧
      net'.fanoutSize f.toList[i].node = .ok k ∧
      Removing net₀ K n f.toList stack₀ (i + 1) net' (if k = 0 then f.toList[i].node :: stack else stack) := by
  have slotsN : ∀ g, (f.toList.take (i + 1)).countP (·.node = g) ≤ net₀.slots n g := fun g => by
    rw [slots_of_gateFanins stored]
    exact (List.take_sublist _ _).countP_le
  have upTo := Mffc.countP_take_succ f.toList lt
  have live := coherent.faninsLive n f stored _ (List.getElem_mem lt)
  generalize f.toList[i] = s at upTo slotsN live ⊢
  obtain ⟨r₀, found, -⟩ := live
  have fanout₀ := coherent.fanoutSize_of_refs found
  -- the slots of `n` counted so far, and this one, stay within the fan-out
  have within : net₀.slotsFrom K s.node + (f.toList.take i).countP (·.node = s.node) + 1 ≤
      r₀.fanout := by
    have total := coherent.slotsFrom_le (insert n K) fanout₀
    have counted := slotsN s.node
    rw [slotsFrom_insert fresh] at total
    rw [upTo, if_pos rfl] at counted
    omega
  obtain ⟨net', removed, trimmed, fanout⟩ :=
    removing.trimmed.removeReference coherent found (by omega)
  refine ⟨net', _, removed, fanout, ⟨trimmed.congr fun g => ?_, fun g => ?_, ?_⟩⟩
  · rw [upTo g, Nat.add_assoc]
  · rw [upTo g]
    by_cases same : s.node = g
    · -- the fan-in itself: pushed now exactly when its fan-out reaches zero, never before
      subst same
      have reached : net₀.fanoutSize s.node = .ok (net₀.slotsFrom K s.node +
          ((f.toList.take i).countP (·.node = s.node) + 1)) ↔
          r₀.fanout - (net₀.slotsFrom K s.node + (f.toList.take i).countP (·.node = s.node) + 1) = 0 := by
        rw [fanout₀, Except.ok.injEq]
        omega
      have notBefore : ¬ (net₀.fanoutSize s.node =
          .ok (net₀.slotsFrom K s.node + (f.toList.take i).countP (·.node = s.node))) := by
        rw [fanout₀, Except.ok.injEq]
        omega
      simp only [if_true, reached]
      split
      · simp [*]
      · rename_i positive
        rw [removing.pushed s.node]
        simp [notBefore, positive]
    · simp only [same, if_false, Nat.add_zero]
      rw [← removing.pushed g]
      split <;> simp [Ne.symm same]
  · have := removing.length
    split <;> simp <;> omega

/-- The removal ends with every use of `n` dropped, and with each fan-in node whose uses then all
come from `K` and `n` pushed. -/
theorem Removing.finish {f : Fanins} (stored : net₀.gateFanins n = some f) (fresh : n ∉ K)
    (removing : Removing net₀ K n f.toList stack₀ f.toList.length net stack) :
    Trimmed net₀ (insert n K) (net₀.slotsFrom (insert n K)) net ∧
      (∀ g, g ∈ stack ↔ g ∈ stack₀ ∨
        (0 < net₀.slots n g ∧ net₀.fanoutSize g = .ok (net₀.slotsFrom (insert n K) g))) ∧
      stack.length ≤ stack₀.length + 3 := by
  have whole : ∀ g, (f.toList.take f.toList.length).countP (·.node = g) = net₀.slots n g :=
    fun g => by rw [List.take_length, slots_of_gateFanins stored]
  refine ⟨removing.trimmed.congr fun g => by rw [whole, slotsFrom_insert fresh], fun g => ?_, ?_⟩
  · rw [removing.pushed g, whole, slotsFrom_insert fresh]
  · simpa [Fanins.toList] using removing.length

/-- What the walk reads of a live node of `net₀` after a trimming: its record and its uses, and
it takes the node out exactly when it is a live gate of `net₀`, not yet out, whose uses all come
from the gates taken out. -/
theorem Trimmed.read (coherent : net₀.Coherent) (trimmed : Trimmed net₀ K (net₀.slotsFrom K) net)
    (live : net₀.Live n) :
    ∃ d r, net.data n = .ok d ∧ net.refsOf n = .ok r ∧
      ((!d.isGate || r.dead || r.fanout != 0) = false ↔ (net₀.gateFanins n).isSome ∧ n ∉ K ∧
        net₀.fanoutSize n = .ok (net₀.slotsFrom K n)) ∧
      (d.isGate → net₀.gateFanins n = some d.fanins) := by
  obtain ⟨r₀, found, alive⟩ := live
  have below : n.id < net₀.table.cells.size := by
    rw [← coherent.sizes]
    exact (Array.getElem?_eq_some_iff.mp found).1
  obtain ⟨d, value⟩ : ∃ d, net₀.table.valueAt n.id = some d :=
    ⟨net₀.table.cells[n.id].value, by simp [UniqueTable.valueAt, Array.getElem?_eq_getElem below]⟩
  have read₀ : net₀.data n = .ok d := data_eq_ok_iff.mpr value
  obtain ⟨r, uses, fanout, dead⟩ := trimmed.refs n r₀ found
  have read : net.refsOf n = .ok r :=
    refsOf_eq_ok.mpr ⟨by show n.id < net.table.cells.size; rw [trimmed.cells]; exact below, uses⟩
  have fanout₀ := coherent.fanoutSize_of_refs found
  have atMost := coherent.slotsFrom_le K fanout₀
  have record : d.isGate → net₀.gateFanins n = some d.fanins := fun gate =>
    gateFanins_of_data read₀ gate ⟨r₀, found, alive⟩
  refine ⟨d, r, data_eq_ok_iff.mpr ((trimmed.values n.id).trans value), read, ?_, record⟩
  rw [fanout₀, Except.ok.injEq]
  constructor
  · intro dies
    simp only [Bool.or_eq_false_iff, Bool.not_eq_false', bne_eq_false_iff_eq] at dies
    obtain ⟨⟨gate, notDead⟩, zero⟩ := dies
    rw [dead, alive, Bool.false_or, decide_eq_false_iff_not] at notDead
    exact ⟨by rw [record gate]; rfl, notDead, by omega⟩
  · rintro ⟨gate, notDead, full⟩
    obtain ⟨f, stored⟩ := Option.isSome_iff_exists.mp gate
    have isGate : d.isGate = true := by
      have := valueAt_of_gateFanins stored
      rw [value, Option.some.injEq] at this
      rw [this]
      rfl
    simp [isGate, dead, alive, notDead, fanout, full]

variable {root : Node} {S : Finset Node}

/-- The take-out walk from `net₀`, started at `root`, with the gates of `K` out, all of them in
the set `S`: the stack holds live nodes, each the root or used by a gate out, and every live gate
not yet out whose uses all come from the gates out, the root among them, waits on the stack. -/
structure TakingOut (net₀ : Network) (root : Node) (S K : Finset Node) (stack : List Node)
    (net : Network) : Prop where
  trimmed : Trimmed net₀ K (net₀.slotsFrom K) net
  stackLive : ∀ g ∈ stack, net₀.Live g
  stackUsed : ∀ g ∈ stack, g = root ∨ 0 < net₀.slotsFrom K g
  waiting : ∀ g, (net₀.gateFanins g).isSome → g ∉ K → (g = root ∨ 0 < net₀.slotsFrom K g) →
    net₀.fanoutSize g = .ok (net₀.slotsFrom K g) → g ∈ stack
  within : K ⊆ S

theorem TakingOut.start (coherent : net₀.Coherent) (gate : (net₀.gateFanins root).isSome) :
    TakingOut net₀ root S ∅ [root] net₀ where
  trimmed := (Trimmed.start coherent).congr fun g => by simp
  stackLive g member := by
    obtain ⟨f, stored⟩ := Option.isSome_iff_exists.mp gate
    rw [List.mem_singleton.mp member]
    exact live_of_gateFanins stored
  stackUsed g member := .inl (List.mem_singleton.mp member)
  waiting g _ _ first _ := by
    simp only [slotsFrom_empty, Nat.lt_irrefl, or_false] at first
    exact List.mem_singleton.mpr first
  within := Finset.empty_subset S

/-- A node popped and left alone: the others that wait are still on the stack. -/
theorem TakingOut.skip {net : Network} (taking : TakingOut net₀ root S K (n :: stack) net)
    (stays : ¬ ((net₀.gateFanins n).isSome ∧ n ∉ K ∧
      net₀.fanoutSize n = .ok (net₀.slotsFrom K n))) :
    TakingOut net₀ root S K stack net where
  trimmed := taking.trimmed
  stackLive g member := taking.stackLive g (List.mem_cons_of_mem n member)
  stackUsed g member := taking.stackUsed g (List.mem_cons_of_mem n member)
  waiting g gate out used full := by
    rcases List.mem_cons.mp (taking.waiting g gate out used full) with rfl | later
    · exact absurd ⟨gate, out, full⟩ stays
    · exact later
  within := taking.within

/-- A node popped and taken out: it belongs to every closed set holding the gates out, as all its
uses come from them; the fan-in nodes left with uses from the gates out alone are pushed. -/
theorem TakingOut.kill (coherent : net₀.Coherent) (closed : ConeClosed net₀ root #[] S)
    {net net' : Network} {stack' : List Node}
    (taking : TakingOut net₀ root S K (n :: stack) net) (gate : (net₀.gateFanins n).isSome)
    (fresh : n ∉ K) (full : net₀.fanoutSize n = .ok (net₀.slotsFrom K n))
    (trimmed : Trimmed net₀ (insert n K) (net₀.slotsFrom (insert n K)) net')
    (pushed : ∀ g, g ∈ stack' ↔ g ∈ stack ∨
      (0 < net₀.slots n g ∧ net₀.fanoutSize g = .ok (net₀.slotsFrom (insert n K) g))) :
    TakingOut net₀ root S (insert n K) stack' net' where
  trimmed := trimmed
  stackLive g member := by
    rcases (pushed g).mp member with old | ⟨usedByN, -⟩
    · exact taking.stackLive g (List.mem_cons_of_mem n old)
    · exact coherent.live_of_slots usedByN
  stackUsed g member := by
    rw [slotsFrom_insert fresh]
    rcases (pushed g).mp member with old | ⟨usedByN, -⟩
    · rcases taking.stackUsed g (List.mem_cons_of_mem n old) with isRoot | used
      · exact .inl isRoot
      · exact .inr (by omega)
    · exact .inr (by omega)
  waiting g gate' out used full' := by
    rw [Finset.mem_insert, not_or] at out
    by_cases usedByN : 0 < net₀.slots n g
    · exact (pushed g).mpr (.inr ⟨usedByN, full'⟩)
    · -- `n` does not use `g`, so `g` waited before and was not popped
      have same : net₀.slotsFrom (insert n K) g = net₀.slotsFrom K g := by
        rw [slotsFrom_insert fresh]
        omega
      rw [same] at used full'
      rcases List.mem_cons.mp (taking.waiting g gate' out.2 used full') with isN | later
      · exact absurd isN out.1
      · exact (pushed g).mpr (.inl later)
  within := by
    refine Finset.insert_subset ?_ taking.within
    rcases taking.stackUsed n List.mem_cons_self with rfl | used
    · exact closed.1
    have atLeast : net₀.slotsFrom K n ≤ net₀.slotsFrom S n :=
      slotsFrom_le_of_users fun p member _ => taking.within member
    have atMost := coherent.slotsFrom_le S full
    refine closed.2 n gate (by simp) (by omega) ?_
    rw [full]
    congr 1
    omega

/-- When the stack is empty, the gates out hold the root and are closed. -/
theorem TakingOut.coneClosed (coherent : net₀.Coherent) {net : Network}
    (taking : TakingOut net₀ root S K [] net) (gate : (net₀.gateFanins root).isSome)
    (unused : net₀.fanoutSize root = .ok 0) : ConeClosed net₀ root #[] K := by
  refine ⟨?_, fun g gate' _ used full => ?_⟩
  · by_contra out
    have none := coherent.slotsFrom_le K unused
    refine List.not_mem_nil (taking.waiting root gate out (.inl rfl) ?_)
    rw [unused]
    congr 1
    omega
  · by_contra out
    exact List.not_mem_nil (taking.waiting g gate' out (.inr used) full)

/-- The take-out walk ends when its fuel exceeds the stack and three pushes for each gate left to
take out, with nothing left on the stack. -/
theorem TakingOut.run (coherent : net₀.Coherent) (closed : ConeClosed net₀ root #[] S) :
    ∀ (fuel : Nat) {K : Finset Node} {stack : List Node} {net : Network},
      TakingOut net₀ root S K stack net → stack.length + 3 * net.numGates < fuel →
      ∃ u net', Always (takeOutLoop fuel stack) net u net' ∧ ∃ K', TakingOut net₀ root S K' [] net'
  | 0, _, _, _, _, enough => absurd enough (Nat.not_lt_zero _)
  | fuel + 1, K, [], net, taking, _ => ⟨(), net, always_pure () net, K, taking⟩
  | fuel + 1, K, n :: stack, net, taking, enough => by
    obtain ⟨d, r, readD, readR, dies, record⟩ :=
      taking.trimmed.read coherent (taking.stackLive n List.mem_cons_self)
    rw [takeOutLoop]
    refine Always.bind_exists (always_query readD) (Always.bind_exists (always_query readR) ?_)
    by_cases out : (net₀.gateFanins n).isSome ∧ n ∉ K ∧ net₀.fanoutSize n = .ok (net₀.slotsFrom K n)
    · obtain ⟨gate, fresh, full⟩ := out
      have condition := dies.mpr ⟨gate, fresh, full⟩
      rw [if_neg (by rw [condition]; simp)]
      have stored := record (by simp at condition; exact condition.1.1)
      obtain ⟨t, unlinked, killedTrim⟩ := taking.trimmed.kill coherent gate fresh
      refine Always.bind_exists (always_log _ _ net)
        (Always.bind_exists (@always_update _ net (net.killed n t) ?_) ?_)
      · -- the gate killed is still counted
        have before := taking.trimmed.numGates
        have after := killedTrim.numGates
        have cardInsert := Finset.card_insert_of_notMem fresh
        simp only [killed] at after
        exact kill_eq_ok.mpr ⟨t, unlinked, by omega, rfl⟩
      dsimp only
      refine always_forIn_bind (fun i net' stack' => Removing net₀ K n d.fanins.toList stack i net' stack')
        (fun i lt net' stack' removing => ?_) (Removing.start killedTrim) (fun stack' net' removing => ?_)
      · obtain ⟨net'', k, removed, fanout, next⟩ := removing.step coherent stored fresh lt
        refine ⟨_, net'', (always_update removed).bind ((always_query fanout).bind ?_), next⟩
        by_cases zero : k = 0
        · simp only [zero, BEq.rfl, if_true]
          exact always_pure _ _
        · simp only [beq_iff_eq, zero, if_false]
          exact always_pure _ _
      · obtain ⟨trimmed', pushed, length⟩ := removing.finish stored fresh
        have before := taking.trimmed.numGates
        have after := trimmed'.numGates
        have cardInsert := Finset.card_insert_of_notMem fresh
        exact TakingOut.run coherent closed fuel
          (taking.kill coherent closed gate fresh full trimmed' pushed) (by simp at enough; omega)
    · rw [if_pos (by cases h : (!d.isGate || r.dead || r.fanout != 0) <;> simp_all)]
      exact TakingOut.run coherent closed fuel (taking.skip out) (by simp at enough; omega)

/-- Taking out a live gate without fan-out of a coherent network succeeds, and it kills exactly
the gates of the gate's cone with no leaves, each counted off. -/
theorem takeOutNode_spec (coherent : net₀.Coherent) (gate : (net₀.gateFanins root).isSome)
    (unused : net₀.fanoutSize root = .ok 0) (cone : IsCone net₀ root #[] S) :
    ∃ net, Always (takeOutNode root) net₀ () net ∧ (∀ m, net₀.Live m ∧ ¬ net.Live m ↔ m ∈ S) ∧
      net.numGates + S.card = net₀.numGates := by
  have fits : [root].length + 3 * net₀.numGates < 4 * net₀.size + 4 := by
    have := net₀.liveGateCount_le_size
    rw [coherent.numGates]
    simp only [List.length_singleton]
    omega
  obtain ⟨u, net, run, K, final⟩ :=
    TakingOut.run coherent cone.1 (4 * net₀.size + 4) (TakingOut.start coherent gate) fits
  have same : K = S :=
    Finset.Subset.antisymm final.within (cone.2 K (final.coneClosed coherent gate unused))
  subst same
  refine ⟨net, (always_get net₀).bind run, fun m => ?_, final.trimmed.numGates⟩
  rw [final.trimmed.live_iff m]
  constructor
  · rintro ⟨live, notBoth⟩
    by_contra out
    exact notBoth ⟨live, out⟩
  · intro member
    obtain ⟨f, stored⟩ := Option.isSome_iff_exists.mp (final.trimmed.gates m member)
    exact ⟨live_of_gateFanins stored, fun both => both.2 member⟩

end Network

namespace Mffc

open Network NetM

/-- The cone of a live gate of a well-formed network, for any leaves: computing it succeeds, and
lists, once each and root first, live gates that form the least closed set; its size is their
number. With no leaves and a root without fan-out, taking the root out succeeds and kills exactly
the cone, and the gate count drops by its size. -/
theorem nodes_least_cone :
    ∀ (net : Network) (root : Node) (leaves : Array Node), net.WellFormed →
      (net.gateFanins root).isSome →
      ∃ cone : Array Node, nodes net root leaves = .ok cone ∧ size net root leaves = .ok cone.size ∧
        cone.toList.Nodup ∧ cone[0]? = some root ∧ (∀ m ∈ cone, (net.gateFanins m).isSome) ∧
        IsCone net root leaves cone.toList.toFinset ∧
        (leaves = #[] → net.fanoutSize root = .ok 0 →
          ∃ net', Always (takeOutNode root) net () net' ∧
            (∀ m, net.Live m ∧ ¬ net'.Live m ↔ m ∈ cone) ∧ net'.numGates + cone.size = net.numGates) := by
  intro net root leaves wf gate
  obtain ⟨cone, found, counted, nodup, first, gates, least⟩ := nodes_spec wf.toCoherent gate leaves
  refine ⟨cone, found, counted, nodup, first, gates, least, ?_⟩
  rintro rfl unused
  obtain ⟨net', run, killed, numGates⟩ := takeOutNode_spec wf.toCoherent gate unused least
  refine ⟨net', run, fun m => by rw [killed m]; simp, ?_⟩
  rwa [List.toFinset_card_of_nodup nodup, Array.length_toList] at numGates

/-- Three inputs, with the conjunction of the first two and then that of the last two: two gates
that nothing uses. -/
theorem two_conjunctions :
    ∃ s₁ net₁ s₂ net, Returns (createAnd (Signal.make ⟨1⟩ false) (Signal.make ⟨2⟩ false))
        Network.empty.addInput.2.addInput.2.addInput.2 s₁ net₁ ∧
      Returns (createAnd (Signal.make ⟨2⟩ false) (Signal.make ⟨3⟩ false)) net₁ s₂ net ∧
      net.WellFormed ∧ net.gateFanins ⟨4⟩ = some ⟨⟨0⟩, ⟨2⟩, ⟨4⟩⟩ ∧
      net.gateFanins ⟨5⟩ = some ⟨⟨0⟩, ⟨4⟩, ⟨6⟩⟩ ∧
      (∀ g, g.id < 4 → net.gateFanins g = none) ∧
      net.fanoutSize ⟨4⟩ = .ok 0 ∧ net.fanoutSize ⟨5⟩ = .ok 0 := by
  -- the first conjunction is a new gate, node 4
  have live₁ : ∀ t ∈ [Signal.zero, Signal.make ⟨1⟩ false, Signal.make ⟨2⟩ false],
      (Network.empty.addInput.2.addInput.2.addInput.2).Live t.node :=
    live_three ⟨_, rfl, rfl⟩ ⟨_, rfl, rfl⟩ ⟨_, rfl, rfl⟩
  obtain ⟨s₁, net₁, first, wf₁, grows₁, -, room₁⟩ :=
    wellFormed_threeInputs.createMaj_step live₁ (room_threeInputs (k := 2) (by decide))
  have gate₁ : Fanins.normalize ⟨Signal.zero, Signal.make ⟨1⟩ false, Signal.make ⟨2⟩ false⟩ =
      .gate ⟨⟨0⟩, ⟨2⟩, ⟨4⟩⟩ false := by decide
  obtain ⟨adds₁, rfl⟩ := wellFormed_threeInputs.createMaj_creates live₁ first gate₁
    (fun g => by simp [gateFanins_threeInputs])
  -- the second is another, node 5
  have live₂ : ∀ t ∈ [Signal.zero, Signal.make ⟨2⟩ false, Signal.make ⟨3⟩ false], net₁.Live t.node :=
    live_three (grows₁.live _ ⟨_, rfl, rfl⟩) (grows₁.live _ ⟨_, rfl, rfl⟩) (grows₁.live _ ⟨_, rfl, rfl⟩)
  obtain ⟨s₂, net, second, wf₂, -, -, -⟩ := wf₁.createMaj_step live₂ room₁
  have gate₂ : Fanins.normalize ⟨Signal.zero, Signal.make ⟨2⟩ false, Signal.make ⟨3⟩ false⟩ =
      .gate ⟨⟨0⟩, ⟨4⟩, ⟨6⟩⟩ false := by decide
  obtain ⟨adds₂, rfl⟩ := wf₁.createMaj_creates live₂ second gate₂
    (fun g => by rw [adds₁.gateFanins]; split <;> simp [gateFanins_threeInputs])
  have size₀ : (Network.empty.addInput.2.addInput.2.addInput.2).size = 4 := rfl
  have size₁ : net₁.size = 5 := adds₁.size
  have size₂ : net.size = 6 := by
    show net.table.cells.size = 6
    rw [adds₂.size, size₁]
  refine ⟨_, net₁, _, net, first, second, wf₂, ?_, ?_, fun g low => ?_, ?_, ?_⟩
  · rw [adds₂.gateFanins, adds₁.gateFanins, size₀, size₁]
    rfl
  · rw [adds₂.gateFanins, size₁]
    rfl
  · rw [adds₂.gateFanins, adds₁.gateFanins, size₀, size₁, if_neg (by omega), if_neg (by omega),
      gateFanins_threeInputs]
  · have uses : net.refs[(⟨4⟩ : Node).id]? = some ⟨0, #[], false⟩ := by
      rw [adds₂.refs, adds₁.refs, size₀, size₁]
      simp [Fanins.toList, Signal.node]
    exact fanoutSize_eq_ok.mpr ⟨_, refsOf_eq_ok.mpr ⟨by rw [size₂]; decide, uses⟩, rfl⟩
  · have uses : net.refs[(⟨5⟩ : Node).id]? = some ⟨0, #[], false⟩ := by
      rw [adds₂.refs, size₁]
      simp
    exact fanoutSize_eq_ok.mpr ⟨_, refsOf_eq_ok.mpr ⟨by rw [size₂]; decide, uses⟩, rfl⟩

/-- Three inputs, the conjunction of the first two, node 4, and the conjunction of that with the
third, node 5: the inner gate has one use, by the outer one, which nothing uses. -/
theorem nested_conjunctions :
    ∃ s₁ net₁ s₂ net, Returns (createAnd (Signal.make ⟨1⟩ false) (Signal.make ⟨2⟩ false))
        Network.empty.addInput.2.addInput.2.addInput.2 s₁ net₁ ∧
      Returns (createAnd s₁ (Signal.make ⟨3⟩ false)) net₁ s₂ net ∧
      net.WellFormed ∧ net.gateFanins ⟨4⟩ = some ⟨⟨0⟩, ⟨2⟩, ⟨4⟩⟩ ∧
      net.gateFanins ⟨5⟩ = some ⟨⟨0⟩, ⟨6⟩, ⟨8⟩⟩ ∧
      (∀ g : Node, g ≠ ⟨4⟩ → g ≠ ⟨5⟩ → net.gateFanins g = none) ∧
      net.fanoutSize ⟨4⟩ = .ok 1 ∧ net.fanoutSize ⟨5⟩ = .ok 0 := by
  have live₁ : ∀ t ∈ [Signal.zero, Signal.make ⟨1⟩ false, Signal.make ⟨2⟩ false],
      (Network.empty.addInput.2.addInput.2.addInput.2).Live t.node :=
    live_three ⟨_, rfl, rfl⟩ ⟨_, rfl, rfl⟩ ⟨_, rfl, rfl⟩
  obtain ⟨s₁, net₁, first, wf₁, grows₁, inner, room₁⟩ :=
    wellFormed_threeInputs.createMaj_step live₁ (room_threeInputs (k := 2) (by decide))
  have gate₁ : Fanins.normalize ⟨Signal.zero, Signal.make ⟨1⟩ false, Signal.make ⟨2⟩ false⟩ =
      .gate ⟨⟨0⟩, ⟨2⟩, ⟨4⟩⟩ false := by decide
  obtain ⟨adds₁, rfl⟩ := wellFormed_threeInputs.createMaj_creates live₁ first gate₁
    (fun g => by simp [gateFanins_threeInputs])
  -- the outer conjunction reads the inner gate, node 4, and the third input
  have live₂ : ∀ t ∈ [Signal.zero, Signal.make ⟨4⟩ false, Signal.make ⟨3⟩ false], net₁.Live t.node :=
    live_three (grows₁.live _ ⟨_, rfl, rfl⟩) inner (grows₁.live _ ⟨_, rfl, rfl⟩)
  obtain ⟨s₂, net, second, wf₂, -, -, -⟩ := wf₁.createMaj_step live₂ room₁
  have gate₂ : Fanins.normalize ⟨Signal.zero, Signal.make ⟨4⟩ false, Signal.make ⟨3⟩ false⟩ =
      .gate ⟨⟨0⟩, ⟨6⟩, ⟨8⟩⟩ false := by decide
  obtain ⟨adds₂, rfl⟩ := wf₁.createMaj_creates live₂ second gate₂
    (fun g => by rw [adds₁.gateFanins]; split <;> simp [gateFanins_threeInputs])
  have size₀ : (Network.empty.addInput.2.addInput.2.addInput.2).size = 4 := rfl
  have size₁ : net₁.size = 5 := adds₁.size
  have size₂ : net.size = 6 := by
    show net.table.cells.size = 6
    rw [adds₂.size, size₁]
  refine ⟨_, net₁, _, net, first, second, wf₂, ?_, ?_, fun g other₄ other₅ => ?_, ?_, ?_⟩
  · rw [adds₂.gateFanins, adds₁.gateFanins, size₀, size₁]
    rfl
  · rw [adds₂.gateFanins, size₁]
    rfl
  · have ne₄ : g.id ≠ 4 := fun same => other₄ (Node.eq_of_id_eq same)
    have ne₅ : g.id ≠ 5 := fun same => other₅ (Node.eq_of_id_eq same)
    rw [adds₂.gateFanins, adds₁.gateFanins, size₀, size₁, if_neg ne₅, if_neg ne₄,
      gateFanins_threeInputs]
  · have uses : net.refs[(⟨4⟩ : Node).id]? = some ⟨1, #[⟨5⟩], false⟩ := by
      rw [adds₂.refs, adds₁.refs, size₀, size₁]
      simp [Fanins.toList, Signal.node, NodeRefs.withUse]
    exact fanoutSize_eq_ok.mpr ⟨_, refsOf_eq_ok.mpr ⟨by rw [size₂]; decide, uses⟩, rfl⟩
  · have uses : net.refs[(⟨5⟩ : Node).id]? = some ⟨0, #[], false⟩ := by
      rw [adds₂.refs, size₁]
      simp
    exact fanoutSize_eq_ok.mpr ⟨_, refsOf_eq_ok.mpr ⟨by rw [size₂]; decide, uses⟩, rfl⟩

/-- A gate over the constant and two inputs, in a network with no gate below it, is its own cone:
none of its fan-ins is a gate. -/
theorem cone_of_conjunction {net : Network} (wf : net.WellFormed)
    (gate₄ : net.gateFanins ⟨4⟩ = some ⟨⟨0⟩, ⟨2⟩, ⟨4⟩⟩)
    (below : ∀ g : Node, g.id < 4 → net.gateFanins g = none) :
    nodes net ⟨4⟩ #[] = .ok #[⟨4⟩] := by
  obtain ⟨cone, found, -, nodup, first, -, -, least⟩ :=
    nodes_spec wf.toCoherent (by rw [gate₄]; rfl) #[]
  -- the root alone is closed: its fan-ins are the constant and two inputs
  have closed : ConeClosed net ⟨4⟩ #[] {⟨4⟩} := by
    refine ⟨Finset.mem_singleton_self _, fun g gate _ used _ => ?_⟩
    simp only [slotsFrom, Finset.sum_singleton, slots_pos_iff, faninNodes_of_gateFanins gate₄,
      Fanins.toList, List.map_cons, List.map_nil, List.mem_cons, List.not_mem_nil, or_false] at used
    have low : g.id < 4 := by rcases used with rfl | rfl | rfl <;> decide
    rw [below g low] at gate
    cases gate
  have within : ∀ m ∈ cone.toList, m = ⟨4⟩ := fun m member =>
    Finset.mem_singleton.mp (least _ closed (List.mem_toFinset.mpr member))
  have single : cone.toList = [⟨4⟩] := by
    have short : cone.toList.length ≤ 1 := by
      simpa using nodup.length_le_of_subset fun m member => List.mem_singleton.mpr (within m member)
    rw [← Array.getElem?_toList] at first
    cases shape : cone.toList with
    | nil => simp [shape] at first
    | cons a rest =>
      rw [shape] at first short
      have empty : rest = [] := by simpa using short
      subst empty
      simpa using first
  rw [found, show cone = #[⟨4⟩] from Array.toList_inj.mp single]

/-- Where gate 5 alone uses gate 4 and no other node is a gate, the cone of 5 holds both: 4 is
used by the cone and only by it. -/
theorem isCone_of_nested_conjunction {net : Network}
    (gate₄ : net.gateFanins ⟨4⟩ = some ⟨⟨0⟩, ⟨2⟩, ⟨4⟩⟩) (gate₅ : net.gateFanins ⟨5⟩ = some ⟨⟨0⟩, ⟨6⟩, ⟨8⟩⟩)
    (others : ∀ g : Node, g ≠ ⟨4⟩ → g ≠ ⟨5⟩ → net.gateFanins g = none)
    (used : net.fanoutSize ⟨4⟩ = .ok 1) {S : Finset Node} (cone : IsCone net ⟨5⟩ #[] S) :
    S = {⟨5⟩, ⟨4⟩} := by
  have slots₄ : ∀ m : Node, net.slots m ⟨4⟩ = if m = ⟨5⟩ then 1 else 0 := by
    intro m
    by_cases five : m = ⟨5⟩
    · subst five
      simp [slots_of_gateFanins gate₅, Fanins.toList, Signal.node]
    by_cases four : m = ⟨4⟩
    · subst four
      simp [slots_of_gateFanins gate₄, Fanins.toList, Signal.node]
    · simp [slots, others m four five, five]
  -- every closed set holds the root, so it has the one use of gate 4 and must hold 4 too
  have holdsFour : ∀ T, ConeClosed net ⟨5⟩ #[] T → ⟨4⟩ ∈ T := by
    intro T closed
    have once : net.slotsFrom T ⟨4⟩ = 1 := by
      simp only [slotsFrom, slots₄]
      exact Finset.sum_ite_eq_of_mem' T ⟨5⟩ (fun _ => 1) closed.1
    exact closed.2 ⟨4⟩ (by rw [gate₄]; rfl) (by simp) (by rw [once]; decide) (by rw [once, used])
  have closed : ConeClosed net ⟨5⟩ #[] {⟨5⟩, ⟨4⟩} := by
    refine ⟨by simp, fun g gate _ _ _ => ?_⟩
    by_contra out
    simp only [Finset.mem_insert, Finset.mem_singleton, not_or] at out
    rw [others g out.2 out.1] at gate
    cases gate
  exact Finset.Subset.antisymm (cone.2 _ closed)
    (Finset.insert_subset cone.1.1 (Finset.singleton_subset_iff.mpr (holdsFour S cone.1)))

/-- Of the nested conjunctions over three inputs, the outer one has both gates as its cone, found
by following its fan-in to the inner gate; taking it out kills the two, and the gate count drops
by two. -/
theorem nodes_least_cone_of_nested_conjunction :
    ∃ net : Network, (∃ s₁ net₁ s₂,
        Returns (createAnd (Signal.make ⟨1⟩ false) (Signal.make ⟨2⟩ false))
          Network.empty.addInput.2.addInput.2.addInput.2 s₁ net₁ ∧
        Returns (createAnd s₁ (Signal.make ⟨3⟩ false)) net₁ s₂ net) ∧
      net.WellFormed ∧ (net.gateFanins ⟨5⟩).isSome ∧ net.fanoutSize ⟨5⟩ = .ok 0 ∧
      ∃ cone : Array Node, nodes net ⟨5⟩ #[] = .ok cone ∧ size net ⟨5⟩ #[] = .ok cone.size ∧
        cone.toList.Nodup ∧ cone[0]? = some ⟨5⟩ ∧ (∀ m ∈ cone, (net.gateFanins m).isSome) ∧
        IsCone net ⟨5⟩ #[] cone.toList.toFinset ∧ cone.toList.toFinset = {⟨5⟩, ⟨4⟩} ∧
        cone.size = 2 ∧
        ∃ net', Always (takeOutNode ⟨5⟩) net () net' ∧
          (∀ m, net.Live m ∧ ¬ net'.Live m ↔ m ∈ cone) ∧ net'.numGates + cone.size = net.numGates := by
  obtain ⟨s₁, net₁, s₂, net, first, second, wf, gate₄, gate₅, others, used, unused⟩ :=
    nested_conjunctions
  have gate : (net.gateFanins ⟨5⟩).isSome := by rw [gate₅]; rfl
  obtain ⟨cone, found, counted, nodup, head, gates, least, takeOut⟩ :=
    nodes_least_cone net ⟨5⟩ #[] wf gate
  have both := isCone_of_nested_conjunction gate₄ gate₅ others used least
  have two : cone.size = 2 := by
    rw [← Array.length_toList, ← List.toFinset_card_of_nodup nodup, both]
    rfl
  exact ⟨net, ⟨s₁, net₁, s₂, first, second⟩, wf, gate, unused, cone, found, counted, nodup, head,
    gates, least, both, two, takeOut rfl unused⟩

/-- A gate that nothing uses stays out of the cone of another gate, although its fan-out, none, is
the number of fan-in slots that the cone's gates have on it. -/
theorem cone_omits_unused_gate :
    ∃ net : Network, (∃ s₁ net₁ s₂,
        Returns (createAnd (Signal.make ⟨1⟩ false) (Signal.make ⟨2⟩ false))
          Network.empty.addInput.2.addInput.2.addInput.2 s₁ net₁ ∧
        Returns (createAnd (Signal.make ⟨2⟩ false) (Signal.make ⟨3⟩ false)) net₁ s₂ net) ∧
      net.WellFormed ∧ nodes net ⟨4⟩ #[] = .ok #[⟨4⟩] ∧ (net.gateFanins ⟨5⟩).isSome ∧
      (⟨5⟩ : Node) ∉ (#[] : Array Node) ∧ net.fanoutSize ⟨5⟩ = .ok (net.slotsFrom {⟨4⟩} ⟨5⟩) ∧
      (⟨5⟩ : Node) ∉ #[(⟨4⟩ : Node)] := by
  obtain ⟨s₁, net₁, s₂, net, first, second, wf, gate₄, gate₅, below, -, unused⟩ :=
    two_conjunctions
  have none : net.slotsFrom {⟨4⟩} ⟨5⟩ = 0 := by
    simp [slotsFrom, slots_of_gateFanins gate₄, Fanins.toList, Signal.node]
  refine ⟨net, ⟨s₁, net₁, s₂, first, second⟩, wf, cone_of_conjunction wf gate₄ below,
    by rw [gate₅]; rfl, by simp, by rw [none, unused], by simp⟩

end Mffc

end MajorityGraph
