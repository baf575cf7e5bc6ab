import MajorityGraph.Proofs.Simulation.Values

/-!
What a network computes, read off its queries alone (`Denotes`), and its exact simulation when
it is `Simulable`.
-/

namespace MajorityGraph

namespace Simulation

open LogicNetwork TruthTable

variable {ν : Type} [LogicNetwork ν]

/-! ### Paths below the outputs -/

theorem Below.trans {ntk : ν} {a b c : Node} (first : Below ntk a b) (second : Below ntk b c) :
    Below ntk a c := by
  induction first with
  | refl => exact second
  | fanin gate fanned member _ ih => exact .fanin gate fanned member (ih second)

variable (ntk : ν)

/-- The transitive fan-in of the outputs: the nodes below some output. -/
def BelowOutput (m : Node) : Prop := ∃ s ∈ pos ntk, Below ntk s.node m

variable {ntk}

theorem BelowOutput.fanin {g : Node} {fs : List Signal} {f : Signal} (below : BelowOutput ntk g)
    (gate : isGate ntk g = .ok true) (fanned : fanins ntk g = .ok fs) (member : f ∈ fs) :
    BelowOutput ntk f.node := by
  obtain ⟨s, output, path⟩ := below
  exact ⟨s, output, path.trans (.fanin gate fanned member (.refl _))⟩

variable (ntk) in
/-- No cycle below the outputs: `rank` falls from each gate below an output to its fan-ins. -/
def RankedBelowOutputs (rank : Node → Nat) : Prop :=
  ∀ g, BelowOutput ntk g → isGate ntk g = .ok true → ∀ fs, fanins ntk g = .ok fs →
    ∀ f ∈ fs, rank f.node < rank g

variable (ntk) in
/-- No node below an output was taken out. -/
def LiveBelowOutputs : Prop := ∀ m, BelowOutput ntk m → isDead ntk m = .ok false

/-! ### The tables of nodes -/

variable (ntk) in
/-- `Denotes ntk n t`: over the inputs of `ntk`, input `i` being variable `i`, node `n` computes
`t`. The constant node computes constant 0, input `i` the projection onto variable `i`, and a
gate what `compute` makes of the tables of its fan-in nodes. -/
inductive Denotes : Node → TruthTable → Prop
  | constant : Denotes Node.constant (zeros (numPis ntk))
  | input {i : Nat} {n : Node} {t : TruthTable} : (pis ntk)[i]? = some n →
      nthVar (numPis ntk) i = .ok t → Denotes n t
  | gate {g : Node} {fs : List Signal} {t : TruthTable} (tab : Node → TruthTable) :
      isGate ntk g = .ok true → fanins ntk g = .ok fs → (∀ f ∈ fs, Denotes f.node (tab f.node)) →
      compute ntk g (fs.map fun f => tab f.node) = .ok t → Denotes g t

variable (ntk) in
/-- What simulation needs of a network below its outputs: the walk can list its gates, ranked
by `rank`; it has at most `maxVars` inputs, listed once each, none of them the constant node or
a gate; every other node below an output that is no gate is the constant; and a gate computes a
table over the inputs from tables over the inputs. -/
structure Simulable (rank : Node → Nat) : Prop where
  walkable : Walkable ntk (BelowOutput ntk) rank
  numPis_eq : numPis ntk = (pis ntk).size
  width : numPis ntk ≤ maxVars
  pisNodup : (pis ntk).toList.Nodup
  pisNonzero : ∀ n ∈ pis ntk, n.id ≠ 0
  pisLeaves : ∀ n ∈ pis ntk, isGate ntk n = .ok false
  leaves : ∀ n, BelowOutput ntk n → isGate ntk n = .ok false → n.id = 0 ∨ n ∈ pis ntk
  computes : ∀ g, BelowOutput ntk g → isGate ntk g = .ok true → ∀ fs, fanins ntk g = .ok fs →
    ∀ tab : Node → TruthTable, (∀ f ∈ fs, Fits (numPis ntk) (tab f.node)) →
      ∃ t, compute ntk g (fs.map fun f => tab f.node) = .ok t ∧ Fits (numPis ntk) t

theorem isGate_constant : isGate ntk Node.constant = .ok false := rfl

/-- A node has at most one table when the inputs are listed once each and are neither the
constant nor gates; the induction is on the first table's rules. -/
theorem Denotes.unique (nodup : (pis ntk).toList.Nodup) (nonzero : ∀ n ∈ pis ntk, n.id ≠ 0)
    (inputLeaves : ∀ n ∈ pis ntk, isGate ntk n = .ok false) {n : Node} {t t' : TruthTable}
    (first : Denotes ntk n t) (second : Denotes ntk n t') : t = t' := by
  induction first generalizing t' with
  | constant =>
    cases second with
    | constant => rfl
    | input member _ => exact absurd rfl (nonzero _ (Array.mem_of_getElem? member))
    | gate _ gate => rw [isGate_constant] at gate; cases gate
  | input member run =>
    cases second with
    | constant => exact absurd rfl (nonzero _ (Array.mem_of_getElem? member))
    | input member' run' =>
      have same := Network.index_eq_of_nodup nodup (by simpa using member) (by simpa using member')
      subst same
      rw [run] at run'
      cases run'
      rfl
    | gate _ gate =>
      rw [inputLeaves _ (Array.mem_of_getElem? member)] at gate
      cases gate
  | @gate g fs t tab gate fanned _ run ih =>
    cases second with
    | constant => rw [isGate_constant] at gate; cases gate
    | input member _ =>
      rw [inputLeaves _ (Array.mem_of_getElem? member)] at gate
      cases gate
    | gate tab' _ fanned' tables' run' =>
      rw [fanned] at fanned'
      cases fanned'
      have same : (fs.map fun f => tab f.node) = fs.map fun f => tab' f.node :=
        List.map_congr_left fun f member => ih f member (tables' f member)
      rw [same, run'] at run
      cases run
      rfl

/-! ### The value map of a simulation -/

variable (ntk) in
/-- Every entry of a value map is the table of its node, over the inputs. -/
def Tabled (values : Values) : Prop :=
  ∀ i t, values[i]? = some t → Denotes ntk ⟨i⟩ t ∧ Fits (numPis ntk) t

theorem Tabled.insert {values : Values} (tabled : Tabled ntk values) {n : Node} {t : TruthTable}
    (denotes : Denotes ntk n t) (fits : Fits (numPis ntk) t) : Tabled ntk (values.insert n.id t) := by
  intro i t' found
  rw [Std.HashMap.getElem?_insert] at found
  split at found
  · rename_i same
    cases found
    rw [show i = n.id from (beq_iff_eq.mp same).symm]
    exact ⟨denotes, fits⟩
  · exact tabled i t' found

/-- The start of a simulation: constant 0 on the constant node and the projections on the
inputs, in order. -/
theorem startValues_tabled (numPis_eq : numPis ntk = (pis ntk).size) (width : numPis ntk ≤ maxVars) :
    ∃ values, startValues (numPis ntk) (pis ntk) = .ok values ∧ Tabled ntk values ∧
      0 ∈ values ∧ ∀ n ∈ pis ntk, n.id ∈ values := by
  simp only [startValues, constant_false_of_le width, except_ok_bind, bind_pure]
  refine forIn_ok (fun k values => Tabled ntk values ∧ 0 ∈ values ∧
      ∀ i < k, ((pis ntk).getD i default).id ∈ values) ?_ ?_ ?_
  · rintro k lt values ⟨tabled, zero, inputs⟩
    simp only [List.length_range] at lt
    obtain ⟨t, run, fits⟩ := nthVar_of_lt (n := numPis ntk) (numPis_eq ▸ lt) width
    simp only [List.getElem_range, run]
    refine ⟨_, rfl, ?_, ?_, ?_⟩
    · refine tabled.insert (.input ?_ run) fits
      simp [Array.getD_eq_getD_getElem?, Array.getElem?_eq_getElem lt]
    · exact Std.HashMap.mem_insert.mpr (.inr zero)
    · intro i lt'
      rcases Nat.lt_succ_iff_lt_or_eq.mp lt' with earlier | rfl
      · exact Std.HashMap.mem_insert.mpr (.inr (inputs i earlier))
      · exact Std.HashMap.mem_insert.mpr (.inl (beq_self_eq_true _))
  · refine ⟨?_, Std.HashMap.mem_insert.mpr (.inl rfl), fun _ lt => absurd lt (Nat.not_lt_zero _)⟩
    intro i t found
    rw [Std.HashMap.getElem?_insert] at found
    split at found
    · rename_i same
      cases found
      rw [← beq_iff_eq.mp same]
      exact ⟨.constant, zeros_fits _⟩
    · simp at found
  · rintro values ⟨tabled, zero, inputs⟩
    refine ⟨tabled, zero, fun n member => ?_⟩
    obtain ⟨i, lt, rfl⟩ := Array.mem_iff_getElem.mp member
    simpa [Array.getD_eq_getD_getElem?, Array.getElem?_eq_getElem lt] using
      inputs i (by simpa using lt)

/-- In a topological list, a gate fan-in of the gate at position `k` comes at an earlier
position. -/
theorem Topological.earlier {good : Node → Prop} {order : List Node}
    (topological : Topological ntk good order) {k : Nat} (lt : k < order.length) {fs : List Signal}
    (fanned : fanins ntk order[k] = .ok fs) {f : Signal} (member : f ∈ fs)
    (gate : isGate ntk f.node = .ok true) : ∃ j < k, order[j]? = some f.node := by
  have split : order = order.take k ++ order[k] :: order.drop (k + 1) := by
    rw [List.getElem_cons_drop, List.take_append_drop]
  obtain ⟨j, lt', same⟩ := List.getElem_of_mem (topological.before _ _ _ split _ fanned f member gate)
  simp only [List.length_take] at lt'
  refine ⟨j, by omega, ?_⟩
  rw [← same, List.getElem_take]
  exact List.getElem?_eq_getElem _

variable {rank : Node → Nat}

/-- A gate below an output whose fan-in nodes have entries is evaluated to its table. -/
theorem Simulable.evaluate (simulable : Simulable ntk rank) {values : Values}
    (tabled : Tabled ntk values) {g : Node} (below : BelowOutput ntk g)
    (gate : isGate ntk g = .ok true) {fs : List Signal} (fanned : fanins ntk g = .ok fs)
    (known : ∀ f ∈ fs, f.node.id ∈ values) :
    ∃ t, Simulation.evaluate ntk g values = .ok t ∧ Denotes ntk g t ∧ Fits (numPis ntk) t := by
  let tab : Node → TruthTable := fun m => values[m.id]?.getD (zeros (numPis ntk))
  have tables : ∀ f ∈ fs, Denotes ntk f.node (tab f.node) ∧ Fits (numPis ntk) (tab f.node) :=
    fun f member => tabled _ _ (Network.lookup_known (known f member) _)
  obtain ⟨t, run, fits⟩ :=
    simulable.computes g below gate fs fanned tab fun f member => (tables f member).2
  refine ⟨t, ?_, .gate tab gate fanned (fun f member => (tables f member).1) run, fits⟩
  simp only [Simulation.evaluate, fanned, except_ok_bind]
  rw [mapM_ok (g := fun f => tab f.node) fun f member => ?lookup]
  · exact run
  · rw [Std.HashMap.get?_eq_getElem?, Network.lookup_known (known f member) (zeros (numPis ntk))]

/-- A node below an output that is no gate has its entry from the start of the simulation. -/
theorem Simulable.known_leaf (simulable : Simulable ntk rank) {values : Values} (zero : 0 ∈ values)
    (inputs : ∀ n ∈ pis ntk, n.id ∈ values) {m : Node} (below : BelowOutput ntk m)
    (leaf : isGate ntk m = .ok false) : m.id ∈ values := by
  rcases simulable.leaves m below leaf with constant | input
  · rw [constant]
    exact zero
  · exact inputs m input

/-- The simulation writes a table of its node for every node below an output, and only such
tables; the gates are evaluated in the walk's order, each after its gate fan-ins. -/
theorem Simulable.simulateNodes (simulable : Simulable ntk rank) :
    ∃ values, Simulation.simulateNodes ntk = .ok values ∧ Tabled ntk values ∧
      ∀ m, BelowOutput ntk m → m.id ∈ values := by
  obtain ⟨start, started, tabled, zero, inputs⟩ :=
    startValues_tabled simulable.numPis_eq simulable.width
  obtain ⟨order, walk, topological, listed⟩ := topologicalOrder_spec simulable.walkable
  simp only [Simulation.simulateNodes]
  show ∃ values, (startValues (numPis ntk) (pis ntk) >>= fun values =>
    topologicalOrder ntk >>= fun order => order.foldlM _ values) = _ ∧ _
  rw [started, walk]
  simp only [bind, Except.bind, ← Array.foldlM_toList]
  refine foldlM_ok (fun k values => Tabled ntk values ∧ 0 ∈ values ∧
      (∀ n ∈ pis ntk, n.id ∈ values) ∧ ∀ j (lt : j < k) (lt' : j < order.toList.length),
        order.toList[j].id ∈ values) ?_
      ⟨tabled, zero, inputs, fun _ lt => absurd lt (Nat.not_lt_zero _)⟩ ?_
  · rintro k lt values ⟨tabled, zero, inputs, earlier⟩
    obtain ⟨gate, below⟩ := (listed _).mp (List.getElem_mem lt)
    obtain ⟨fs, fanned, -, -⟩ := simulable.walkable.fanins _ below gate
    -- each fan-in is a leaf, known from the start, or a gate listed earlier
    have known : ∀ f ∈ fs, f.node.id ∈ values := by
      intro f member
      have belowF := BelowOutput.fanin below gate fanned member
      rcases simulable.walkable.answers _ belowF with gateF | leafF
      · obtain ⟨j, before, atJ⟩ := topological.earlier lt fanned member gateF
        obtain ⟨lt', same⟩ := List.getElem?_eq_some_iff.mp atJ
        rw [← same]
        exact earlier j before lt'
      · exact simulable.known_leaf zero inputs belowF leafF
    obtain ⟨t, run, denotes, fits⟩ := simulable.evaluate tabled below gate fanned known
    refine ⟨_, by rw [run]; rfl, tabled.insert denotes fits, Std.HashMap.mem_insert.mpr (.inr zero),
      fun n member => Std.HashMap.mem_insert.mpr (.inr (inputs n member)), fun j lt' lt'' => ?_⟩
    rcases Nat.lt_succ_iff_lt_or_eq.mp lt' with before | rfl
    · exact Std.HashMap.mem_insert.mpr (.inr (earlier j before lt''))
    · exact Std.HashMap.mem_insert.mpr (.inl (beq_self_eq_true _))
  · rintro values ⟨tabled, zero, inputs, all⟩
    refine ⟨tabled, fun m below => ?_⟩
    rcases simulable.walkable.answers m below with gate | leaf
    · obtain ⟨j, lt, rfl⟩ := List.getElem_of_mem ((listed m).mpr ⟨gate, below⟩)
      exact all j lt lt
    · exact simulable.known_leaf zero inputs below leaf

/-- The simulation gives every output the table of its node, complemented as the output is. -/
theorem Simulable.simulate (simulable : Simulable ntk rank) :
    ∃ tables : Array TruthTable, Simulation.simulate ntk = .ok tables ∧
      tables.size = (pos ntk).size ∧ ∀ (j : Nat) (s : Signal), (pos ntk)[j]? = some s →
        ∃ t, Denotes ntk s.node t ∧ tables[j]? = some (s.onTable t) := by
  obtain ⟨values, run, tabled, known⟩ := simulable.simulateNodes
  let tab : Node → TruthTable := fun m => values[m.id]?.getD (zeros (numPis ntk))
  have tables : ∀ s ∈ pos ntk, values[s.node.id]? = some (tab s.node) :=
    fun s output => Network.lookup_known (known _ ⟨s, output, .refl _⟩) _
  have lookups : (pos ntk).toList.mapM (signalValue values) =
      .ok ((pos ntk).toList.map fun s : Signal => s.onTable (tab s.node)) := by
    refine mapM_ok fun s output => ?_
    simp [signalValue, Signal.onTable, tables s (Array.mem_toList_iff.mp output)]
  refine ⟨((pos ntk).toList.map fun s : Signal => s.onTable (tab s.node)).toArray, ?_, by simp, ?_⟩
  · simp only [Simulation.simulate, run, except_ok_bind]
    rw [Array.mapM_eq_mapM_toList, lookups]
    rfl
  · intro j s output
    exact ⟨tab s.node, (tabled _ _ (tables s (Array.mem_of_getElem? output))).1, by simp [output]⟩

variable (ntk) in
/-- Simulation is exact on `ntk`: the walk lists exactly the gates below the outputs, each once
and after its gate fan-ins, and `simulate` gives every output the one table of its node over the
inputs, complemented as the output is. -/
def SimulatesExactly : Prop :=
  (∃ order, topologicalOrder ntk = .ok order ∧ Topological ntk (BelowOutput ntk) order.toList ∧
      ∀ m, m ∈ order.toList ↔ isGate ntk m = .ok true ∧ BelowOutput ntk m) ∧
    ∃ tables : Array TruthTable, Simulation.simulate ntk = .ok tables ∧
      tables.size = (pos ntk).size ∧ ∀ (j : Nat) (s : Signal), (pos ntk)[j]? = some s →
        ∃ t, (∀ t', Denotes ntk s.node t' ↔ t' = t) ∧ tables[j]? = some (s.onTable t)

/-- Simulation is exact on a simulable network. -/
theorem Simulable.simulatesExactly (simulable : Simulable ntk rank) : SimulatesExactly ntk := by
  obtain ⟨tables, run, size, outputs⟩ := simulable.simulate
  refine ⟨topologicalOrder_spec simulable.walkable, tables, run, size, fun j s output => ?_⟩
  obtain ⟨t, denotes, found⟩ := outputs j s output
  refine ⟨t, fun t' => ⟨fun other => ?_, fun same => same ▸ denotes⟩, found⟩
  exact Denotes.unique simulable.pisNodup simulable.pisNonzero simulable.pisLeaves other denotes

end Simulation

/-! ### Networks -/

namespace Network

open Simulation LogicNetwork TruthTable

variable {net : Network}

/-- The layout a network keeps whatever is done to it: node 0 holds the constant record and no
other node does, and the inputs are listed once each and are exactly the nodes with the input
record. -/
structure Shaped (net : Network) : Prop where
  constant : net.table.valueAt 0 = some NodeData.constant
  onlyConstant : ∀ i d, net.table.valueAt i = some d → d.kind = .constant → i = 0
  inputsNodup : net.inputs.toList.Nodup
  inputs : ∀ n, n ∈ net.inputs ↔ net.table.valueAt n.id = some NodeData.input
  inputRecord : ∀ i d, net.table.valueAt i = some d → d.kind = .input → d = NodeData.input

theorem Coherent.shaped (coherent : net.Coherent) : net.Shaped :=
  ⟨coherent.constant, coherent.onlyConstant, coherent.inputsNodup, coherent.inputs,
    coherent.inputRecord⟩

theorem data_eq_ok_iff {n : Node} {d : NodeData} :
    net.data n = .ok d ↔ net.table.valueAt n.id = some d := by
  unfold Network.data UniqueTable.valueAt
  cases net.table.cells[n.id]? <;> simp

/-- A node whose liveness can be read has its record. -/
theorem data_of_isDead {n : Node} {b : Bool} (read : net.isDead n = .ok b) :
    n.id < net.size ∧ ∃ d, net.data n = .ok d := by
  have lt : n.id < net.table.cells.size := by
    unfold Network.isDead at read
    cases found : net.refsOf n with
    | error e => simp [found, bind, Except.bind] at read
    | ok r => exact (refsOf_eq_ok.mp found).1
  exact ⟨lt, net.table.cells[n.id].value, by simp [Network.data, lt]⟩

/-- The input test reads the record. -/
theorem isPi_of_data {n : Node} {d : NodeData} (read : net.data n = .ok d) :
    net.isPi n = .ok (d.kind == .input) := by
  simp [Network.isPi, read, bind, Except.bind, pure, Except.pure]

/-- An input of a shaped network is listed among its inputs. -/
theorem Shaped.mem_inputs_of_isPi (shaped : net.Shaped) {n : Node} (pi : net.isPi n = .ok true) :
    n ∈ net.inputs := by
  cases read : net.data n with
  | error e => simp [Network.isPi, read, bind, Except.bind] at pi
  | ok d =>
    rw [isPi_of_data read] at pi
    have input : d.kind = .input := by simpa using pi
    have value := data_eq_ok_iff.mp read
    rw [shaped.inputRecord _ d value input] at value
    exact (shaped.inputs n).mpr value

/-- The walk's gate test reads the record: neither node 0 nor an input. -/
theorem isGate_of_data {n : Node} {d : NodeData} (read : net.data n = .ok d) :
    LogicNetwork.isGate net n = .ok (n.id != 0 && d.kind != .input) := by
  have pi : LogicNetwork.isPi net n = .ok (d.kind == .input) := isPi_of_data read
  show (if n.id == 0 then pure false else do pure !(← LogicNetwork.isPi net n)) = _
  by_cases zero : n.id = 0
  · simp [zero, pure, Except.pure]
  · simp only [zero, beq_iff_eq, if_false, pi, bind, Except.bind, pure, Except.pure]
    simp [bne, zero]

theorem fanins_of_data {n : Node} {d : NodeData} (read : net.data n = .ok d) :
    LogicNetwork.fanins net n = .ok (if d.isGate then d.fanins.toList else []) := by
  show net.fanins n = _
  simp [Network.fanins, read, bind, Except.bind, pure, Except.pure]

/-- On the fan-ins of a majority record, a gate computes the majority of its fan-ins' tables,
each complemented as its signal is. -/
theorem computeGate_eq_majTable {g : Node} {f : Fanins} (fanned : net.fanins g = .ok f.toList)
    (tab : Node → TruthTable) :
    net.computeGate g (f.toList.map fun s => tab s.node) = f.majTable tab := by
  simp only [computeGate, fanned, except_ok_bind]
  rfl

/-- In a shaped network, a node that the walk takes for a gate holds a majority record. -/
theorem Shaped.majority_of_isGate (shaped : net.Shaped) {n : Node} {d : NodeData}
    (read : net.data n = .ok d) (gate : LogicNetwork.isGate net n = .ok true) :
    d = NodeData.majority d.fanins := by
  have value := data_eq_ok_iff.mp read
  rw [isGate_of_data read] at gate
  simp only [Except.ok.injEq, Bool.and_eq_true, bne_iff_ne, ne_eq] at gate
  obtain ⟨kind, fanins⟩ := d
  cases kind with
  | constant => exact absurd (shaped.onlyConstant _ _ value rfl) gate.1
  | input => exact absurd rfl gate.2
  | majority => rfl

/-- The walk reads the three stored fan-ins of a node it takes for a gate. -/
theorem Shaped.fanins_of_isGate (shaped : net.Shaped) {n : Node} {d : NodeData}
    (read : net.data n = .ok d) (gate : LogicNetwork.isGate net n = .ok true) :
    LogicNetwork.fanins net n = .ok d.fanins.toList ∧ net.fanins n = .ok d.fanins.toList := by
  have fanned := fanins_of_data read
  rw [shaped.majority_of_isGate read gate] at fanned
  exact ⟨fanned, fanned⟩

/-- An input of a shaped network holds the input record, so the walk takes it for no gate. -/
theorem Shaped.isGate_input (shaped : net.Shaped) {n : Node} (input : n ∈ net.inputs) :
    LogicNetwork.isGate net n = .ok false := by
  rw [isGate_of_data (data_eq_ok_iff.mpr ((shaped.inputs n).mp input))]
  simp [NodeData.input]

variable {rank : Node → Nat}

/-- A shaped network with no cycle and no dead node below its outputs, and at most `maxVars`
inputs, is simulable: a node below an output has its record, a node the walk takes for a gate
holds a majority record over three fan-ins, and any other is node 0 or an input. -/
theorem Shaped.simulable (shaped : net.Shaped) (ranked : RankedBelowOutputs net rank)
    (live : LiveBelowOutputs net) (width : net.numPis ≤ maxVars) : Simulable net rank where
  walkable := {
    answers := fun n below => by
      obtain ⟨-, d, read⟩ := data_of_isDead (live n below)
      rw [isGate_of_data read]
      cases (n.id != 0 && d.kind != .input)
      · exact .inr rfl
      · exact .inl rfl
    fanins := fun n below gate => by
      obtain ⟨-, d, read⟩ := data_of_isDead (live n below)
      have fanned := (shaped.fanins_of_isGate read gate).1
      refine ⟨d.fanins.toList, fanned, by simp [Fanins.toList], fun f member => ?_⟩
      exact ⟨below.fanin gate fanned member, ranked n below gate _ fanned f member⟩
    bound := fun n below _ => (data_of_isDead (live n below)).1
    outputs := fun s output => ⟨s, output, .refl _⟩ }
  numPis_eq := rfl
  width := width
  pisNodup := shaped.inputsNodup
  pisNonzero := fun n input zero => by
    have := (shaped.inputs n).mp input
    rw [zero, shaped.constant] at this
    cases this
  pisLeaves := fun n input => shaped.isGate_input input
  leaves := fun n below leaf => by
    obtain ⟨-, d, read⟩ := data_of_isDead (live n below)
    rw [isGate_of_data read] at leaf
    simp only [Except.ok.injEq, Bool.and_eq_false_iff, bne_eq_false_iff_eq] at leaf
    rcases leaf with constant | input
    · exact .inl constant
    · have value := data_eq_ok_iff.mp read
      rw [shaped.inputRecord _ d value input] at value
      exact .inr ((shaped.inputs n).mpr value)
  computes := fun g below gate fs fanned tab fits => by
    obtain ⟨-, d, read⟩ := data_of_isDead (live g below)
    obtain ⟨fanned', stored⟩ := shaped.fanins_of_isGate read gate
    rw [fanned'] at fanned
    cases fanned
    show ∃ t, net.computeGate g _ = _ ∧ _
    rw [computeGate_eq_majTable stored]
    exact Fanins.majTable_fits fits

end Network

end MajorityGraph
