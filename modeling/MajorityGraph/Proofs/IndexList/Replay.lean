import MajorityGraph.Proofs.Simulation.Majorities
import MajorityGraph.Proofs.IndexList.Codec
import MajorityGraph.Network.Insert
import MajorityGraph.IndexList.Simulate

/-!
Replaying an index list into a network agrees with simulating it, entry by entry
(`WellFormed.insertList_simulates`).
-/

namespace MajorityGraph

theorem Signal.ofBool_eq_xor (b : Bool) : Signal.ofBool b = Signal.zero.xor b := by
  cases b <;> rfl

namespace Network

open NetM TruthTable

variable {net net' : Network} {signals : Array Signal} {values : Array TruthTable}

-----------------------------------------------------------------------------------------
-- Entries and their functions
-----------------------------------------------------------------------------------------

/-- Entry by entry, `values` are the functions that `signals` compute in `net`. -/
structure ComputesEach (net : Network) (signals : Array Signal) (values : Array TruthTable) :
    Prop where
  size : values.size = signals.size
  entry : ∀ (i : Nat) (s : Signal), signals[i]? = some s →
    ∃ v, values[i]? = some v ∧ net.Computes s v

theorem ComputesEach.grows (grows : Grows net net') (each : net.ComputesEach signals values) :
    net'.ComputesEach signals values := by
  refine ⟨each.size, fun i s found => ?_⟩
  obtain ⟨v, atI, computes⟩ := each.entry i s found
  exact ⟨v, atI, computes.grows grows⟩

theorem ComputesEach.push (each : net.ComputesEach signals values) {s : Signal} {v : TruthTable}
    (computes : net.Computes s v) : net.ComputesEach (signals.push s) (values.push v) := by
  refine ⟨by simp [each.size], fun i s' found => ?_⟩
  by_cases last : i = signals.size
  · subst last
    simp only [Array.getElem?_push_size, Option.some.injEq] at found
    subst found
    exact ⟨v, by rw [← each.size, Array.getElem?_push_size], computes⟩
  · rw [Array.getElem?_push, if_neg last] at found
    rw [Array.getElem?_push, each.size, if_neg last]
    exact each.entry i s' found

/-- Entry `i` below the size, read with a default, computes the value read the same way. -/
theorem ComputesEach.getD (each : net.ComputesEach signals values) {i : Nat}
    (lt : i < signals.size) : net.Computes (signals.getD i default) (values.getD i default) := by
  have found : signals[i]? = some (signals.getD i default) := by
    simp [Array.getD_eq_getD_getElem?, Array.getElem?_eq_getElem lt]
  obtain ⟨v, atI, computes⟩ := each.entry i _ found
  rw [show values.getD i default = v by simp [Array.getD_eq_getD_getElem?, atI]]
  exact computes

/-- Constant 0 put before the inputs computes the table that is 0 everywhere. -/
theorem ComputesEach.zero_append (each : net.ComputesEach signals values) :
    net.ComputesEach (#[Signal.zero] ++ signals) (#[zeros net.numPis] ++ values) := by
  refine ⟨by simp [each.size], fun i s found => ?_⟩
  cases i with
  | zero =>
    simp only [Array.getElem?_append, List.size_toArray, List.length_cons, List.length_nil,
      Nat.zero_add, Nat.zero_lt_one, if_true, List.getElem?_toArray,
      List.getElem?_cons_zero, Option.some.injEq] at found ⊢
    subst found
    exact ⟨_, rfl, computes_zero net⟩
  | succ j =>
    simp only [Array.getElem?_append, List.size_toArray, List.length_cons, List.length_nil,
      Nat.zero_add, Nat.not_lt.mpr (Nat.succ_pos j), if_false, Nat.add_sub_cancel] at found ⊢
    exact each.entry j s found

/-- In a coherent network of at most `maxVars` inputs live signals compute functions. -/
theorem Coherent.computesEach (coherent : net.Coherent) (narrow : net.numPis ≤ maxVars)
    (live : ∀ s ∈ signals, net.Live s.node) : ∃ values, net.ComputesEach signals values := by
  classical
  let function : Signal → TruthTable := fun s =>
    if h : ∃ t, net.TableOf s.node t then s.onTable h.choose else zeros 0
  refine ⟨signals.map function, by simp, fun i s found => ⟨function s, by simp [found], ?_⟩⟩
  have known : ∃ t, net.TableOf s.node t :=
    coherent.tableOf_live narrow (live s (Array.mem_of_getElem? found))
  exact ⟨known.choose, known.choose_spec, by simp only [function, dif_pos known]⟩

-----------------------------------------------------------------------------------------
-- Literals
-----------------------------------------------------------------------------------------

/-- With constant 0 as entry 0, a literal of an entry so far reads that entry's signal,
complemented with the literal. -/
theorem literalSignal_eq (zero : signals[0]? = some Signal.zero) {lit : Nat}
    (lt : Literal.index lit < signals.size) :
    literalSignal signals lit =
      .ok ((signals.getD (Literal.index lit) default).xor (Literal.isComplemented lit)) := by
  unfold literalSignal
  simp only [ge_iff_le, Nat.not_le.mpr lt, if_false]
  by_cases first : Literal.index lit = 0
  · -- entry 0 is constant 0, which the literal reads without looking
    have entry : signals.getD (Literal.index lit) default = Signal.zero := by
      simp [Array.getD_eq_getD_getElem?, first, zero]
    rw [if_pos (beq_iff_eq.mpr first), entry, Signal.ofBool_eq_xor]
    rfl
  · rw [if_neg fun isZero => first (beq_iff_eq.mp isZero)]
    rfl

theorem literalValue_eq {lit : Nat} (lt : Literal.index lit < values.size) :
    IndexList.literalValue values lit = .ok (if Literal.isComplemented lit
      then (values.getD (Literal.index lit) default).not
      else values.getD (Literal.index lit) default) := by
  simp [IndexList.literalValue, Array.getElem?_eq_getElem lt, Array.getD_eq_getD_getElem?]

-----------------------------------------------------------------------------------------
-- Replaying gates
-----------------------------------------------------------------------------------------

/-- What a replay keeps from gate to gate: the network is well formed, the signals of the
entries so far are live, entry 0 being constant 0, and the simulated entries are what they
compute. -/
structure Replays (net : Network) (signals : Array Signal) (values : Array TruthTable) :
    Prop where
  wellFormed : net.WellFormed
  zero : signals[0]? = some Signal.zero
  live : ∀ s ∈ signals, net.Live s.node
  computes : net.ComputesEach signals values

/-- A literal of an entry so far reads a live signal and, in the simulation, what it computes. -/
theorem Replays.literal (replays : Replays net signals values) {lit : Nat}
    (lt : Literal.index lit < signals.size) :
    ∃ s v, literalSignal signals lit = .ok s ∧ IndexList.literalValue values lit = .ok v ∧
      net.Live s.node ∧ net.Computes s v := by
  have computes := (replays.computes.getD lt).xor (Literal.isComplemented lit)
  refine ⟨_, _, literalSignal_eq replays.zero lt,
    literalValue_eq (replays.computes.size ▸ lt), ?_, ?_⟩
  · rw [Signal.node_xor]
    exact replays.live _ (by simp [Array.getD_eq_getD_getElem?, Array.getElem?_eq_getElem lt])
  · exact computes

/-- One gate replayed over entries so far, in a network with room for one more node and use:
`insertGate` appends a live signal that computes the table that `simulateGate` appends, and the
network stays well formed, grows, gains at most one gate and spends at most one of its room. -/
theorem Replays.insertGate (replays : Replays net signals values) {g : LitGate}
    (reads : ∀ lit ∈ g.toList, Literal.index lit < signals.size) {k : Nat}
    (room : net.Room (k + 1)) :
    ∃ s net' v, Always (Network.insertGate signals g) net (signals.push s) net' ∧
      IndexList.simulateGate values g = .ok (values.push v) ∧
      Replays net' (signals.push s) (values.push v) ∧ Grows net net' ∧
      net'.size ≤ net.size + 1 ∧ net'.numGates ≤ net.numGates + 1 ∧ net'.Room k := by
  obtain ⟨a, va, readA, valueA, liveA, computesA⟩ := replays.literal (reads g.a (by simp [LitGate.toList]))
  obtain ⟨b, vb, readB, valueB, liveB, computesB⟩ := replays.literal (reads g.b (by simp [LitGate.toList]))
  obtain ⟨c, vc, readC, valueC, liveC, computesC⟩ := replays.literal (reads g.c (by simp [LitGate.toList]))
  have live : ∀ t ∈ [a, b, c], net.Live t.node := by
    simp only [List.mem_cons, List.not_mem_nil, or_false, forall_eq_or_imp, forall_eq]
    exact ⟨liveA, liveB, liveC⟩
  have wf := replays.wellFormed
  obtain ⟨s, net', run, wf', grows, liveS, room'⟩ := wf.createMaj_step live room
  obtain ⟨size, numGates, -⟩ := wf.createMaj_frame live run
  obtain ⟨v, majority, computes⟩ := wf.createMaj_computes live run computesA computesB computesC
  refine ⟨s, net', v, ?_, ?_, ⟨wf', ?_, ?_, (replays.computes.grows grows).push computes⟩, grows,
    size, numGates, room'⟩
  · exact (always_lift readA net).bind ((always_lift readB net).bind ((always_lift readC net).bind
      ((always_of_returns_createMaj run).bind (always_pure _ net'))))
  · simp [IndexList.simulateGate, valueA, valueB, valueC, majority]
  · have nonempty : 0 < signals.size := (Array.getElem?_eq_some_iff.mp replays.zero).1
    rw [Array.getElem?_push, if_neg (Nat.ne_of_lt nonempty)]
    exact replays.zero
  · intro t member
    rcases Array.mem_push.mp member with old | rfl
    · exact grows.live _ (replays.live t old)
    · exact liveS

/-- Gates replayed one after another, each reading only entries before it. The induction is on
the gates, with the entries so far generalized. -/
theorem Replays.insertGates (gates : List LitGate) (replays : Replays net signals values)
    (reads : ∀ k (lt : k < gates.length), ∀ lit ∈ gates[k].toList,
      Literal.index lit < signals.size + k) (room : net.Room gates.length) :
    ∃ signals' net' values', Always (gates.foldlM Network.insertGate signals) net signals' net' ∧
      gates.foldlM IndexList.simulateGate values = .ok values' ∧ Replays net' signals' values' ∧
      signals'.size = signals.size + gates.length ∧ Grows net net' ∧
      net'.size ≤ net.size + gates.length ∧ net'.numGates ≤ net.numGates + gates.length := by
  induction gates generalizing net signals values with
  | nil =>
    exact ⟨signals, net, values, always_pure _ net, rfl, replays, rfl, Grows.refl net, by simp,
      by simp⟩
  | cons g rest ih =>
    obtain ⟨s, net₁, v, first, simulated, replays₁, grows₁, size₁, numGates₁, room₁⟩ :=
      replays.insertGate (fun lit member => by simpa using reads 0 (by simp) lit member)
        (k := rest.length) room
    -- the entry just appended is one more for the gates after it to read
    obtain ⟨signals', net', values', loop, simulated', replays', entries, grows', size', numGates'⟩ :=
      ih replays₁ (fun k lt lit member => by
        have earlier := reads (k + 1) (by simp; omega) lit member
        simp only [Array.size_push]
        omega) room₁
    refine ⟨signals', net', values', ?_, ?_, replays', ?_, grows₁.trans grows', ?_, ?_⟩
    · rw [List.foldlM_cons]
      exact first.bind loop
    · rw [List.foldlM_cons, simulated]
      exact simulated'
    · simp only [entries, Array.size_push, List.length_cons]
      omega
    · simp only [List.length_cons]
      omega
    · simp only [List.length_cons]
      omega

/-- Output literals of entries so far read signals and, in the simulation, what they compute. -/
theorem Replays.outputs (replays : Replays net signals values) {lits : Array Nat}
    (reads : ∀ lit ∈ lits, Literal.index lit < signals.size) :
    ∃ outs tables, Always (lits.mapM fun lit => lift (literalSignal signals lit)) net outs net ∧
      lits.mapM (IndexList.literalValue values) = .ok tables ∧ net.ComputesEach outs tables := by
  let signalOf : Nat → Signal := fun lit =>
    (signals.getD (Literal.index lit) default).xor (Literal.isComplemented lit)
  let valueOf : Nat → TruthTable := fun lit => if Literal.isComplemented lit
    then (values.getD (Literal.index lit) default).not else values.getD (Literal.index lit) default
  have signalsRead : ∀ lit ∈ lits.toList, literalSignal signals lit = .ok (signalOf lit) :=
    fun lit member => literalSignal_eq replays.zero (reads lit (Array.mem_toList_iff.mp member))
  have valuesRead : ∀ lit ∈ lits.toList, IndexList.literalValue values lit = .ok (valueOf lit) :=
    fun lit member =>
      literalValue_eq (replays.computes.size ▸ reads lit (Array.mem_toList_iff.mp member))
  refine ⟨(lits.toList.map signalOf).toArray, (lits.toList.map valueOf).toArray, ?_, ?_, ?_⟩
  · rw [Array.mapM_eq_mapM_toList]
    exact (always_mapM_lift signalsRead net).map
  · rw [Array.mapM_eq_mapM_toList, mapM_ok valuesRead]
    rfl
  · refine ⟨by simp, fun i s found => ?_⟩
    simp only [List.getElem?_toArray, List.getElem?_map, Option.map_eq_some_iff] at found
    obtain ⟨lit, atI, rfl⟩ := found
    have lt := reads lit (Array.mem_of_getElem? (by simpa using atI))
    refine ⟨valueOf lit, by simp [atI], ?_⟩
    exact (replays.computes.getD lt).xor (Literal.isComplemented lit)

-----------------------------------------------------------------------------------------
-- Replaying a list
-----------------------------------------------------------------------------------------

variable {l : IndexList} {inputs : Array Signal}

/-- Replaying a well-formed list of at least one input over live signals of a well-formed network
with room for a node and a use per gate of the list, given what the signals compute: the replay returns from every journal, keeps the network well
formed, grows it by at most one node a gate, and the simulation over those tables computes what
the output signals compute. -/
theorem WellFormed.insertList_replays (wf : net.WellFormed) (constantLive : net.Live Node.constant)
    (narrow : net.numPis ≤ maxVars) (listOk : l.isWellFormed = true) (someInput : 1 ≤ l.numInputs)
    (count : inputs.size = l.numInputs) (live : ∀ s ∈ inputs, net.Live s.node)
    (room : net.Room l.numGates) {ins : Array TruthTable} (each : net.ComputesEach inputs ins) :
    ∃ outs net' tables, Always (insertList l inputs) net outs net' ∧ net'.WellFormed ∧
      Grows net net' ∧ net'.size ≤ net.size + l.numGates ∧
      net'.numGates ≤ net.numGates + l.numGates ∧
      l.simulate ins = .ok tables ∧ net'.ComputesEach outs tables := by
  obtain ⟨gatesRead, outputsRead⟩ := (IndexList.isWellFormed_iff l).mp listOk
  have start : Replays net (#[Signal.zero] ++ inputs) (#[zeros net.numPis] ++ ins) := by
    refine ⟨wf, by rewrite [Array.getElem?_append_left (by simp)]; rfl, fun s member => ?_, each.zero_append⟩
    rcases Array.mem_append.mp member with constant | input
    · rw [show s = Signal.zero by simpa using constant]
      exact constantLive
    · exact live s input
  obtain ⟨signals, net', values, folded, simulated, replays, entries, grows, size, numGates⟩ :=
    start.insertGates l.gates.toList (fun k lt lit member => by
      have reads := gatesRead k (by simpa using lt) lit (by simpa using member)
      simp only [Array.size_append, List.size_toArray, List.length_cons, List.length_nil, count]
      omega) (by rw [Array.length_toList]; exact room)
  obtain ⟨outs, tables, read, readValues, computes⟩ :=
    replays.outputs fun lit (member : lit ∈ l.outputs) => by
      have reads := outputsRead lit member
      simp only [entries, Array.size_append, List.size_toArray, List.length_cons, List.length_nil,
        count, Array.length_toList]
      unfold IndexList.numEntries at reads
      omega
  refine ⟨outs, net', tables, ?_, replays.wellFormed, grows, size, numGates, ?_, computes⟩
  · unfold insertList
    rw [if_neg (by omega), ← Array.foldlM_toList]
    beta_reduce
    exact folded.bind read
  · -- the constant of the simulation has the width of the first input, the inputs' width
    obtain ⟨s, first⟩ : ∃ s, inputs[0]? = some s :=
      ⟨_, Array.getElem?_eq_getElem (by omega)⟩
    obtain ⟨v, atZero, computesV⟩ := each.entry 0 s first
    have width : (ins[0]?.map (·.numVars)).getD 0 = net.numPis := by
      simp [atZero, computesV.valid.fits.1]
    unfold IndexList.simulate
    rw [if_neg (by rw [each.size]; omega), width]
    beta_reduce
    simp only [constant_false_of_le narrow, except_ok_bind, ← Array.foldlM_toList, simulated,
      readValues]

/-- Replaying a list into a network agrees with simulating it. Over live signals of a
well-formed network whose constant is live, whose inputs fit a table and which has room for a
node and a use per gate of the list (past 2^31 nodes or 2^32 - 1 uses of a node the replay
stops with a fault), a well-formed list of at least one input replays: the network stays well formed, keeps its inputs, outputs and the function
of every node, and gains at most one node and one gate per gate of the list. The live signals
compute functions, and for every choice of them the simulation of the list returns, with each
output signal computing the simulated output. -/
theorem WellFormed.insertList_simulates (wf : net.WellFormed) (constantLive : net.Live Node.constant)
    (narrow : net.numPis ≤ maxVars) (listOk : l.isWellFormed = true) (someInput : 1 ≤ l.numInputs)
    (count : inputs.size = l.numInputs) (live : ∀ s ∈ inputs, net.Live s.node)
    (room : net.Room l.numGates) :
    (∃ ins, net.ComputesEach inputs ins) ∧
      ∃ outs net', Returns (insertList l inputs) net outs net' ∧ net'.WellFormed ∧
        Grows net net' ∧ net'.size ≤ net.size + l.numGates ∧
        net'.numGates ≤ net.numGates + l.numGates ∧ (∀ n t, net.TableOf n t → net'.TableOf n t) ∧
        ∀ ins, net.ComputesEach inputs ins →
          ∃ tables, l.simulate ins = .ok tables ∧ net'.ComputesEach outs tables := by
  obtain ⟨ins, each⟩ := wf.toCoherent.computesEach narrow live
  obtain ⟨outs, net', -, run, wf', grows, size, numGates, -⟩ :=
    wf.insertList_replays constantLive narrow listOk someInput count live room each
  refine ⟨⟨ins, each⟩, outs, net', run.returns, wf', grows, size, numGates,
    fun n t table => table.grows grows, fun ins' each' => ?_⟩
  -- the replay does not depend on the tables, so it is the same run for every choice of them
  obtain ⟨outs', net'', tables, run', -, -, -, -, simulated, computes⟩ :=
    wf.insertList_replays constantLive narrow listOk someInput count live room each'
  obtain ⟨rfl, rfl⟩ := run.unique run'
  exact ⟨tables, simulated, computes⟩

/-- The list `<0 x₁ x₂'>`, `<1 g₁ x₁'>` with outputs `g₂'` and `g₁`, replayed over the first
input and the complement of the second of a network of two inputs. -/
theorem insertList_simulates_over_two_inputs :
    (Network.empty.addInput.2.addInput.2).WellFormed ∧
      (Network.empty.addInput.2.addInput.2).Live Node.constant ∧
      (Network.empty.addInput.2.addInput.2).numPis ≤ maxVars ∧
      (⟨2, #[⟨0, 2, 5⟩, ⟨1, 6, 3⟩], #[9, 6]⟩ : IndexList).isWellFormed = true ∧
      1 ≤ (⟨2, #[⟨0, 2, 5⟩, ⟨1, 6, 3⟩], #[9, 6]⟩ : IndexList).numInputs ∧
      #[Signal.make ⟨1⟩ false, Signal.make ⟨2⟩ true].size =
        (⟨2, #[⟨0, 2, 5⟩, ⟨1, 6, 3⟩], #[9, 6]⟩ : IndexList).numInputs ∧
      (∀ s ∈ #[Signal.make ⟨1⟩ false, Signal.make ⟨2⟩ true],
        (Network.empty.addInput.2.addInput.2).Live s.node) ∧
      (Network.empty.addInput.2.addInput.2).Room
        (⟨2, #[⟨0, 2, 5⟩, ⟨1, 6, 3⟩], #[9, 6]⟩ : IndexList).numGates ∧
      ((∃ ins, (Network.empty.addInput.2.addInput.2).ComputesEach
          #[Signal.make ⟨1⟩ false, Signal.make ⟨2⟩ true] ins) ∧
        ∃ outs net', Returns (insertList ⟨2, #[⟨0, 2, 5⟩, ⟨1, 6, 3⟩], #[9, 6]⟩
            #[Signal.make ⟨1⟩ false, Signal.make ⟨2⟩ true]) Network.empty.addInput.2.addInput.2
            outs net' ∧ net'.WellFormed ∧ Grows Network.empty.addInput.2.addInput.2 net' ∧
          net'.size ≤ (Network.empty.addInput.2.addInput.2).size +
            (⟨2, #[⟨0, 2, 5⟩, ⟨1, 6, 3⟩], #[9, 6]⟩ : IndexList).numGates ∧
          net'.numGates ≤ (Network.empty.addInput.2.addInput.2).numGates +
            (⟨2, #[⟨0, 2, 5⟩, ⟨1, 6, 3⟩], #[9, 6]⟩ : IndexList).numGates ∧
          (∀ n t, (Network.empty.addInput.2.addInput.2).TableOf n t → net'.TableOf n t) ∧
          ∀ ins, (Network.empty.addInput.2.addInput.2).ComputesEach
              #[Signal.make ⟨1⟩ false, Signal.make ⟨2⟩ true] ins →
            ∃ tables, (⟨2, #[⟨0, 2, 5⟩, ⟨1, 6, 3⟩], #[9, 6]⟩ : IndexList).simulate ins = .ok tables ∧
              net'.ComputesEach outs tables) := by
  have wf : (Network.empty.addInput.2.addInput.2).WellFormed := wellFormed_twoInputs
  have constantLive : (Network.empty.addInput.2.addInput.2).Live Node.constant := ⟨_, rfl, rfl⟩
  have narrow : (Network.empty.addInput.2.addInput.2).numPis ≤ maxVars := by decide
  have listOk : (⟨2, #[⟨0, 2, 5⟩, ⟨1, 6, 3⟩], #[9, 6]⟩ : IndexList).isWellFormed = true := by
    decide
  have live : ∀ s ∈ #[Signal.make ⟨1⟩ false, Signal.make ⟨2⟩ true],
      (Network.empty.addInput.2.addInput.2).Live s.node := by
    intro s member
    simp only [List.mem_toArray, List.mem_cons, List.not_mem_nil, or_false] at member
    rcases member with rfl | rfl <;> exact ⟨_, rfl, rfl⟩
  have room : (Network.empty.addInput.2.addInput.2).Room
      (⟨2, #[⟨0, 2, 5⟩, ⟨1, 6, 3⟩], #[9, 6]⟩ : IndexList).numGates := room_twoInputs (by decide)
  exact ⟨wf, constantLive, narrow, listOk, by decide, rfl, live, room,
    WellFormed.insertList_simulates wf constantLive narrow listOk (by decide) rfl live room⟩

end Network

end MajorityGraph
