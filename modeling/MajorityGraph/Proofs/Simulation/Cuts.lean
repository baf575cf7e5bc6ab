import MajorityGraph.Proofs.TruthTable.Bits
import MajorityGraph.Proofs.Simulation.ConeViews
import MajorityGraph.Proofs.Network.Substitution
import MajorityGraph.Proofs.Network.HashConsing
import MajorityGraph.Proofs.Cut.Separation

/-!
Simulation over a cut composes with the network exactly when the leaves separate the root from
the inputs (`cut_simulation_composes`).
-/

namespace MajorityGraph

namespace Network

open Simulation TruthTable

variable {net : Network} {n : Node}

/-! ### The kinds of live nodes -/

/-- A live node of a coherent network has its record. -/
theorem Coherent.data_of_live (coherent : net.Coherent) (live : net.Live n) :
    ∃ d, net.data n = .ok d :=
  (data_of_isDead (coherent.isDead_of_live live)).2

/-- An input of a coherent network is read as one. -/
theorem Coherent.isPi_input (coherent : net.Coherent) (input : n ∈ net.inputs) :
    net.isPi n = .ok true := by
  rw [isPi_of_data (data_eq_ok_iff.mpr ((coherent.inputs n).mp input))]
  rfl

/-- A live node of a coherent network that is neither the constant nor an input is a live
gate. -/
theorem Coherent.gate_of_live (coherent : net.Coherent) (live : net.Live n) (nonzero : n.id ≠ 0)
    (notInput : net.isPi n = .ok false) : ∃ f, net.gateFanins n = some f := by
  rcases coherent.live_cases live with rfl | input | gate
  · exact absurd rfl nonzero
  · rw [coherent.isPi_input input] at notInput
    cases notInput
  · exact Option.isSome_iff_exists.mp gate

/-- The input test succeeds on a live node of a coherent network. -/
theorem Coherent.isPi_live (coherent : net.Coherent) (live : net.Live n) :
    ∃ b, net.isPi n = .ok b := by
  obtain ⟨d, read⟩ := coherent.data_of_live live
  exact ⟨_, isPi_of_data read⟩

/-! ### Tables that compose -/

/-- The code of the leaves' values under a valuation of the nodes: leaf `i` is bit `i`. -/
def leafCode (leaves : Array Node) (val : Node → Bool) : Nat :=
  assignmentCode (leaves.toList.map val)

variable {leaves : Array Node} {val : Node → Bool}

theorem leafCode_lt : leafCode leaves val < 2 ^ leaves.size := by
  simpa [leafCode] using assignmentCode_lt (leaves.toList.map val)

theorem testBit_leafCode {i : Nat} (lt : i < leaves.size) :
    (leafCode leaves val).testBit i = val leaves[i] := by
  rw [leafCode, testBit_assignmentCode _ i (by simpa using lt)]
  simp

/-- The code is the sum over the leaves of their values at their powers of two. -/
theorem leafCode_eq_sum :
    leafCode leaves val = ∑ i ∈ Finset.range leaves.size, (val (leaves.getD i default)).toNat * 2 ^ i := by
  rw [leafCode, assignmentCode_eq_sum, List.length_map, Array.length_toList]
  refine Finset.sum_congr rfl fun i member => ?_
  have lt : i < leaves.size := Finset.mem_range.mp member
  simp [Array.getD_eq_getD_getElem?, lt]

/-- Every entry of a value map is a table over the leaves whose bit at the leaves' code is the
value of its node, under every consistent valuation. -/
def Composes (net : Network) (leaves : Array Node) (values : Values) : Prop :=
  ∀ i t, values[i]? = some t → Valid leaves.size t ∧
    ∀ x val, net.Consistent x val → val ⟨i⟩ = t.bit (leafCode leaves val)

variable {values : Values}

theorem Composes.insert (composes : Composes net leaves values) {t : TruthTable}
    (valid : Valid leaves.size t) (law : ∀ x val, net.Consistent x val → val n = t.bit (leafCode leaves val)) :
    Composes net leaves (values.insert n.id t) := by
  intro i t' found
  rw [Std.HashMap.getElem?_insert] at found
  split at found
  · rename_i same
    cases found
    rw [show i = n.id from (beq_iff_eq.mp same).symm]
    exact ⟨valid, law⟩
  · exact composes i t' found

/-- The constant table on the constant node composes. -/
theorem composes_constant : Composes net leaves ((∅ : Values).insert 0 (zeros leaves.size)) := by
  intro i t found
  rw [Std.HashMap.getElem?_insert] at found
  split at found
  · rename_i same
    cases found
    refine ⟨zeros_valid _, fun x val consistent => ?_⟩
    rw [← beq_iff_eq.mp same, bit_zeros]
    exact consistent.constant
  · simp at found

variable (net) in
/-- The start of a cut simulation composes: the constant table on the constant and the
projections on the leaves, which are its only entries. -/
theorem startValues_composes (narrow : leaves.size ≤ maxVars) :
    ∃ values, startValues leaves.size leaves = .ok values ∧ Composes net leaves values ∧
      ∀ i, i ∈ values ↔ i = 0 ∨ ∃ l ∈ leaves, l.id = i := by
  simp only [startValues, constant_false_of_le narrow, except_ok_bind, bind_pure]
  refine forIn_ok (fun k values => Composes net leaves values ∧
      ∀ i, i ∈ values ↔ i = 0 ∨ ∃ j < k, (leaves.getD j default).id = i) ?_ ?_ ?_
  · rintro k lt values ⟨composes, keys⟩
    simp only [List.length_range] at lt
    obtain ⟨t, run, -⟩ := nthVar_of_lt (n := leaves.size) lt narrow
    have leaf : leaves.getD k default = leaves[k] := by simp [Array.getD_eq_getD_getElem?, lt]
    simp only [List.getElem_range, run]
    refine ⟨_, rfl, composes.insert (nthVar_valid run) fun x val _ => ?_, fun i => ?_⟩
    · rw [bit_nthVar run leafCode_lt, testBit_leafCode lt, leaf]
    · rw [Std.HashMap.mem_insert, keys]
      constructor
      · rintro (same | zero | ⟨j, before, rfl⟩)
        · exact .inr ⟨k, Nat.lt_succ_self k, beq_iff_eq.mp same⟩
        · exact .inl zero
        · exact .inr ⟨j, Nat.lt_succ_of_lt before, rfl⟩
      · rintro (zero | ⟨j, before, rfl⟩)
        · exact .inr (.inl zero)
        · rcases Nat.lt_succ_iff_lt_or_eq.mp before with earlier | rfl
          · exact .inr (.inr ⟨j, earlier, rfl⟩)
          · exact .inl (beq_self_eq_true _)
  · refine ⟨composes_constant, fun i => ?_⟩
    rw [Std.HashMap.mem_insert, beq_iff_eq]
    simp [eq_comm]
  · rintro values ⟨composes, keys⟩
    refine ⟨composes, fun i => ?_⟩
    rw [keys]
    constructor
    · rintro (zero | ⟨j, lt, rfl⟩)
      · exact .inl zero
      · have lt : j < leaves.size := by simpa using lt
        exact .inr ⟨leaves[j], Array.getElem_mem lt, by simp [Array.getD_eq_getD_getElem?, lt]⟩
    · rintro (zero | ⟨l, member, rfl⟩)
      · exact .inl zero
      · obtain ⟨j, lt, rfl⟩ := Array.mem_iff_getElem.mp member
        exact .inr ⟨j, by simpa using lt, by simp [Array.getD_eq_getD_getElem?, lt]⟩

/-- A live gate takes the bit of its majority table at the leaves' code when each of its fan-ins
takes the bit of its own table there. -/
theorem Consistent.value_of_majTable {x : Nat → Bool} (consistent : net.Consistent x val) {g : Node}
    {f : Fanins} (gate : net.gateFanins g = some f) {tab : Node → TruthTable} {t : TruthTable}
    (valid : ∀ s ∈ f.toList, Valid leaves.size (tab s.node))
    (fanins : ∀ s ∈ f.toList, val s.node = (tab s.node).bit (leafCode leaves val))
    (run : f.majTable tab = .ok t) : val g = t.bit (leafCode leaves val) := by
  rw [consistent.gates g f gate, Fanins.bit_majTable valid run leafCode_lt]
  exact Fanins.eval_congr_of_mem fanins

/-- A live gate whose fan-ins have entries that compose is evaluated to a table that composes. -/
theorem Composes.evaluate (composes : Composes net leaves values) {g : Node} {f : Fanins}
    (gate : net.gateFanins g = some f) (known : ∀ s ∈ f.toList, s.node.id ∈ values) :
    ∃ t, Simulation.evaluate net g values = .ok t ∧ Valid leaves.size t ∧
      ∀ x val, net.Consistent x val → val g = t.bit (leafCode leaves val) := by
  let tab : Node → TruthTable := fun m => values[m.id]?.getD (zeros leaves.size)
  have entries : ∀ s ∈ f.toList, values[s.node.id]? = some (tab s.node) :=
    fun s member => lookup_known (known s member) _
  have valid : ∀ s ∈ f.toList, Valid leaves.size (tab s.node) :=
    fun s member => (composes _ _ (entries s member)).1
  obtain ⟨t, run, validT⟩ := Fanins.majTable_valid valid
  refine ⟨t, ?_, validT, fun x val consistent => ?_⟩
  · simp only [Simulation.evaluate, fanins_of_gateFanins gate, except_ok_bind]
    rw [mapM_ok (g := fun s => tab s.node) fun s member => by
      rw [Std.HashMap.get?_eq_getElem?, entries s member]]
    exact (computeGate_eq_majTable (fanins_of_gateFanins gate) tab).trans run
  · -- each fan-in's value is the bit of its table, so the gate's is the bit of the majority
    exact consistent.value_of_majTable gate valid
      (fun s member => (composes _ _ (entries s member)).2 x val consistent) run

/-! ### One step of the walk -/

section Steps

variable (net)
variable (fuel : Nat) (stack : List (Node × Bool))

theorem cutWalk_known (b : Bool) (known : n.id ∈ values) :
    cutWalk net (fuel + 1) ((n, b) :: stack) values = cutWalk net fuel stack values := by
  simp [cutWalk, Std.HashMap.contains_iff_mem.mpr known]

theorem cutWalk_input (fresh : n.id ∉ values) (input : net.isPi n = .ok true) :
    cutWalk net (fuel + 1) ((n, false) :: stack) values = .error (.inputOutsideCut n) := by
  have read : LogicNetwork.isPi net n = .ok true := input
  simp [cutWalk, fresh, read]
  rfl

theorem cutWalk_expand (fresh : n.id ∉ values) (notInput : net.isPi n = .ok false) {f : Fanins}
    (gate : net.gateFanins n = some f) :
    cutWalk net (fuel + 1) ((n, false) :: stack) values =
      cutWalk net fuel
        ((((f.toList.filter fun s => !values.contains s.node.id).map (·.node)).reverse.map (·, false)) ++
          (n, true) :: stack) values := by
  have read : LogicNetwork.isPi net n = .ok false := notInput
  simp [cutWalk, fresh, read, fanins_of_gateFanins gate, List.map_reverse]
  rfl

theorem cutWalk_finish (fresh : n.id ∉ values) {t : TruthTable}
    (evaluated : Simulation.evaluate net n values = .ok t) :
    cutWalk net (fuel + 1) ((n, true) :: stack) values = cutWalk net fuel stack (values.insert n.id t) := by
  simp [cutWalk, fresh, evaluated]

end Steps

/-! ### Runs and states of the walk -/

variable (net) in
/-- From `values` the walk works through `stack` within `steps` steps and ends in `r`: in a state
from which it goes on with whatever lies below `stack`, or in a fault. -/
def CutRuns (stack : List (Node × Bool)) (values : Values) (r : Except Fault Values) (steps : Nat) :
    Prop :=
  ∀ fuel rest, steps ≤ fuel →
    cutWalk net fuel (stack ++ rest) values = r >>= fun v => cutWalk net (fuel - steps) rest v

theorem CutRuns.append {s₁ s₂ : List (Node × Bool)} {v₁ v₂ : Values} {r : Except Fault Values}
    {k₁ k₂ : Nat} (first : CutRuns net s₁ v₁ (.ok v₂) k₁) (second : CutRuns net s₂ v₂ r k₂) :
    CutRuns net (s₁ ++ s₂) v₁ r (k₁ + k₂) := by
  intro fuel rest enough
  rw [List.append_assoc, first fuel (s₂ ++ rest) (by omega)]
  show cutWalk net (fuel - k₁) (s₂ ++ rest) v₂ = _
  rw [second (fuel - k₁) rest (by omega), Nat.sub_sub]

theorem CutRuns.append_error {s₁ s₂ : List (Node × Bool)} {v : Values} {e : Fault} {k : Nat}
    (first : CutRuns net s₁ v (.error e) k) : CutRuns net (s₁ ++ s₂) v (.error e) k := by
  intro fuel rest enough
  rw [List.append_assoc, first fuel (s₂ ++ rest) enough]
  rfl

variable {start : Values} {added : List Node}

variable (net leaves) in
/-- A state of the cut walk from the start entries `start`, with `added` the gates it evaluated:
its entries compose, its keys are those of the start and of the added gates, each gate is added
once and is no start key, and every added gate has entries for its fan-ins. -/
structure CutState (start values : Values) (added : List Node) : Prop where
  composes : Composes net leaves values
  keys : ∀ i, i ∈ values ↔ i ∈ start ∨ ∃ g ∈ added, g.id = i
  nodup : added.Nodup
  fresh : ∀ g ∈ added, g.id ∉ start
  closed : ∀ g ∈ added, ∃ f, net.gateFanins g = some f ∧ ∀ s ∈ f.toList, s.node.id ∈ values

/-- The walk starts from entries that compose, having added nothing. -/
theorem CutState.initial (composes : Composes net leaves start) : CutState net leaves start start [] :=
  ⟨composes, fun i => by simp, List.nodup_nil, fun _ member => (nomatch member),
    fun _ member => (nomatch member)⟩

/-- A state that adds gates to another keeps its keys. -/
theorem CutState.grows {values values' : Values} {new : List Node}
    (before : CutState net leaves start values added) (after : CutState net leaves start values' (new ++ added))
    {i : Nat} (key : i ∈ values) : i ∈ values' := by
  rcases (before.keys i).mp key with first | ⟨g, member, same⟩
  · exact (after.keys i).mpr (.inl first)
  · exact (after.keys i).mpr (.inr ⟨g, List.mem_append_right _ member, same⟩)

/-- A node with an entry that is no start key is an added gate. -/
theorem CutState.mem_added (state : CutState net leaves start values added) {m : Node}
    (key : m.id ∈ values) (outside : m.id ∉ start) : m ∈ added := by
  rcases (state.keys _).mp key with first | ⟨g, member, same⟩
  · exact absurd first outside
  · exact Node.eq_of_id_eq same ▸ member

/-- A path from a node with an entry that meets no start entry ends at an added gate: the walk
adds a gate only with entries for all of its fan-ins. -/
theorem CutState.avoids_added (state : CutState net leaves start values added) {a b : Node}
    (path : net.Avoids (·.id ∈ start) a b) (known : a.id ∈ values) : b ∈ added := by
  induction path with
  | refl outside => exact state.mem_added known outside
  | fanin outside gate member _ ih =>
    obtain ⟨f, gate', fanins⟩ := state.closed _ (state.mem_added known outside)
    rw [gate] at gate'
    cases gate'
    exact ih (fanins _ member)

variable (net leaves) in
/-- The outcome of visiting the nodes `roots` in turn from a state with the gates `added`. The
walk spends at most four steps per gate it expands, `new`, and one per root; these gates are
distinct from each other and from `added`, and each lies below a root. It ends either in a state
that adds them and has an entry for every root, or in the fault of an input that a path from a
root reaches without meeting a start entry. -/
structure CutVisited (start : Values) (roots : List Node) (values : Values) (added new : List Node)
    (r : Except Fault Values) : Prop where
  runs : ∃ steps, CutRuns net (roots.map (·, false)) values r steps ∧
    steps ≤ 4 * new.length + roots.length
  distinct : (new ++ added).Nodup
  below : ∀ g ∈ new, (net.gateFanins g).isSome ∧ ∃ c ∈ roots, net.Reaches c g
  outcome : (∃ v, r = .ok v ∧ CutState net leaves start v (new ++ added) ∧ ∀ c ∈ roots, c.id ∈ v) ∨
    ∃ p, r = .error (.inputOutsideCut p) ∧ p ∈ net.inputs ∧
      ∃ c ∈ roots, net.Avoids (·.id ∈ start) c p

theorem CutVisited.nil (state : CutState net leaves start values added) :
    CutVisited net leaves start [] values added [] (.ok values) :=
  ⟨⟨0, fun _ _ _ => rfl, Nat.zero_le _⟩, state.nodup, fun _ member => (nomatch member),
    .inl ⟨values, rfl, state, fun _ member => (nomatch member)⟩⟩

/-- Visiting a node that failed stops the walk there. -/
theorem CutVisited.cons_error {c : Node} {cs : List Node} {new : List Node} {e : Fault}
    (first : CutVisited net leaves start [c] values added new (.error e)) :
    CutVisited net leaves start (c :: cs) values added new (.error e) := by
  obtain ⟨k, runs, steps⟩ := first.runs
  refine ⟨⟨k, runs.append_error, ?_⟩, first.distinct, fun g member => ?_, ?_⟩
  · simp only [List.length_cons, List.length_nil] at steps ⊢
    omega
  · obtain ⟨gate, c', root, path⟩ := first.below g member
    exact ⟨gate, c', List.mem_cons.mpr (.inl (List.mem_singleton.mp root)), path⟩
  · rcases first.outcome with ⟨v, same, -⟩ | ⟨p, same, input, c', root, path⟩
    · cases same
    · exact .inr ⟨p, same, input, c', List.mem_cons.mpr (.inl (List.mem_singleton.mp root)), path⟩

/-- Visiting a node that succeeded, then the others. -/
theorem CutVisited.cons_ok {c : Node} {cs : List Node} {v₁ : Values} {new₁ new₂ : List Node}
    {r : Except Fault Values} (first : CutVisited net leaves start [c] values added new₁ (.ok v₁))
    (rest : CutVisited net leaves start cs v₁ (new₁ ++ added) new₂ r) :
    CutVisited net leaves start (c :: cs) values added (new₂ ++ new₁) r := by
  obtain ⟨k₁, runs₁, steps₁⟩ := first.runs
  obtain ⟨k₂, runs₂, steps₂⟩ := rest.runs
  obtain ⟨v, same, state₁, visited₁⟩ := first.outcome.resolve_right fun ⟨p, same, _⟩ => nomatch same
  cases same
  refine ⟨⟨k₁ + k₂, runs₁.append runs₂, ?_⟩, by rw [List.append_assoc]; exact rest.distinct,
    fun g member => ?_, ?_⟩
  · simp only [List.length_append, List.length_cons, List.length_nil] at steps₁ steps₂ ⊢
    omega
  · rcases List.mem_append.mp member with later | earlier
    · obtain ⟨gate, c', root, path⟩ := rest.below g later
      exact ⟨gate, c', List.mem_cons_of_mem _ root, path⟩
    · obtain ⟨gate, c', root, path⟩ := first.below g earlier
      exact ⟨gate, c', List.mem_cons.mpr (.inl (List.mem_singleton.mp root)), path⟩
  · rcases rest.outcome with ⟨v₂, same, state₂, visited₂⟩ | ⟨p, same, input, c', root, path⟩
    · refine .inl ⟨v₂, same, by rw [List.append_assoc]; exact state₂, fun c' member => ?_⟩
      rcases List.mem_cons.mp member with rfl | later
      · exact state₁.grows state₂ (visited₁ _ (List.mem_singleton_self _))
      · exact visited₂ c' later
    · exact .inr ⟨p, same, input, c', List.mem_cons_of_mem _ root, path⟩

/-- Visiting the nodes `cs` in turn, given that each of them can be visited from every state. -/
theorem cutVisited_all {P : Node → Prop}
    (single : ∀ c, P c → ∀ v A, CutState net leaves start v A →
      ∃ new r, CutVisited net leaves start [c] v A new r) :
    ∀ cs : List Node, (∀ c ∈ cs, P c) → ∀ values added, CutState net leaves start values added →
      ∃ new r, CutVisited net leaves start cs values added new r
  | [], _, values, added, state => ⟨[], _, .nil state⟩
  | c :: cs, all, values, added, state => by
    obtain ⟨new₁, r₁, first⟩ := single c (all c (List.mem_cons_self ..)) values added state
    cases r₁ with
    | error e => exact ⟨new₁, _, first.cons_error⟩
    | ok v₁ =>
      obtain ⟨v, same, state₁, -⟩ := first.outcome.resolve_right fun ⟨p, same, _⟩ => nomatch same
      cases same
      obtain ⟨new₂, r, rest⟩ := cutVisited_all single cs (fun c' member => all c' (List.mem_cons_of_mem _ member))
        _ _ state₁
      exact ⟨_, _, first.cons_ok rest⟩

/-! ### Visits -/

/-- A node with an entry is passed over in one step. -/
theorem cutVisited_known (state : CutState net leaves start values added) (known : n.id ∈ values) :
    CutVisited net leaves start [n] values added [] (.ok values) := by
  refine ⟨⟨1, fun fuel rest enough => ?_, by simp⟩, state.nodup, fun _ member => (nomatch member),
    .inl ⟨values, rfl, state, fun c member => by rw [List.mem_singleton.mp member]; exact known⟩⟩
  obtain ⟨fuel, rfl⟩ : ∃ k, fuel = k + 1 := ⟨fuel - 1, by omega⟩
  exact cutWalk_known net fuel rest false known

/-- An input without an entry is a fault. -/
theorem cutVisited_input (coherent : net.Coherent) (state : CutState net leaves start values added)
    (fresh : n.id ∉ values) (input : net.isPi n = .ok true) :
    CutVisited net leaves start [n] values added [] (.error (.inputOutsideCut n)) := by
  refine ⟨⟨1, fun fuel rest enough => ?_, by simp⟩, state.nodup, fun _ member => (nomatch member),
    .inr ⟨n, rfl, coherent.shaped.mem_inputs_of_isPi input, n, List.mem_singleton_self _,
      .refl fun first => fresh ((state.keys _).mpr (.inl first))⟩⟩
  obtain ⟨fuel, rfl⟩ : ∃ k, fuel = k + 1 := ⟨fuel - 1, by omega⟩
  exact cutWalk_input net fuel rest fresh input

variable {rank : Node → Nat}

/-- Visiting a gate without an entry: the walk expands it, visits its fan-ins without an entry,
and evaluates the gate when it comes back to it; a fault below a fan-in is a fault below the
gate. -/
theorem cutVisited_expand (ranked : net.Ranked rank) (state : CutState net leaves start values added)
    (fresh : n.id ∉ values) (notInput : net.isPi n = .ok false) {f : Fanins}
    (gate : net.gateFanins n = some f)
    (single : ∀ c, net.Live c → rank c < rank n → ∀ v A, CutState net leaves start v A →
      ∃ new r, CutVisited net leaves start [c] v A new r)
    (coherent : net.Coherent) :
    ∃ new r, CutVisited net leaves start [n] values added new r := by
  obtain ⟨cs, listed⟩ : ∃ cs : List Node,
      cs = ((f.toList.filter fun s => !values.contains s.node.id).map (·.node)).reverse := ⟨_, rfl⟩
  have children : ∀ c ∈ cs, ∃ s ∈ f.toList, s.node = c := by
    intro c member
    rw [listed, List.mem_reverse, List.mem_map] at member
    obtain ⟨s, kept, rfl⟩ := member
    exact ⟨s, (List.mem_filter.mp kept).1, rfl⟩
  have few : cs.length ≤ 3 := by
    rw [listed, List.length_reverse, List.length_map]
    exact (List.length_filter_le _ _).trans (by simp [Fanins.toList])
  obtain ⟨new, r, visited⟩ := cutVisited_all (fun c (lower : net.Live c ∧ rank c < rank n) =>
      single c lower.1 lower.2) cs
    (fun c member => by
      obtain ⟨s, slot, rfl⟩ := children c member
      exact ⟨coherent.faninsLive n f gate s slot, ranked n f gate s slot⟩) values added state
  obtain ⟨k, runs, steps⟩ := visited.runs
  -- the gates evaluated below the fan-ins rank below the gate, so the gate is none of them
  have notNew : n ∉ new := by
    intro member
    obtain ⟨-, c, root, path⟩ := visited.below n member
    obtain ⟨s, slot, rfl⟩ := children c root
    exact absurd (Nat.lt_of_le_of_lt (ranked.rank_le_of_reaches path) (ranked n f gate s slot))
      (Nat.lt_irrefl _)
  have notAdded : n ∉ added := fun member => fresh ((state.keys _).mpr (.inr ⟨n, member, rfl⟩))
  have notStart : n.id ∉ start := fun first => fresh ((state.keys _).mpr (.inl first))
  have distinct : (n :: new ++ added).Nodup :=
    List.nodup_cons.mpr ⟨fun member => (List.mem_append.mp member).elim notNew notAdded, visited.distinct⟩
  have below : ∀ g ∈ n :: new, (net.gateFanins g).isSome ∧ ∃ c ∈ [n], net.Reaches c g := by
    intro g member
    rcases List.mem_cons.mp member with rfl | deeper
    · exact ⟨by rw [gate]; rfl, g, List.mem_singleton_self _, .refl _⟩
    · obtain ⟨isGate, c, root, path⟩ := visited.below g deeper
      obtain ⟨s, slot, rfl⟩ := children c root
      exact ⟨isGate, n, List.mem_singleton_self _, .fanin gate slot path⟩
  have expand : ∀ fuel rest, cutWalk net (fuel + 1) ((n, false) :: rest) values =
      cutWalk net fuel (cs.map (·, false) ++ (n, true) :: rest) values := by
    intro fuel rest
    rw [listed]
    exact cutWalk_expand net fuel rest fresh notInput gate
  rcases visited.outcome with ⟨v, rfl, state', visitedAll⟩ | ⟨p, rfl, input, c, root, path⟩
  · -- every fan-in has an entry now, so the gate is evaluated
    have fresh' : n.id ∉ v := by
      rw [state'.keys]
      rintro (first | ⟨g, member, same⟩)
      · exact notStart first
      · exact (List.nodup_cons.mp distinct).1 (Node.eq_of_id_eq same ▸ member)
    have known : ∀ s ∈ f.toList, s.node.id ∈ v := by
      intro s slot
      by_cases seen : s.node.id ∈ values
      · exact state.grows state' seen
      · refine visitedAll s.node ?_
        rw [listed, List.mem_reverse, List.mem_map]
        exact ⟨s, List.mem_filter.mpr ⟨slot, by simpa using seen⟩, rfl⟩
    obtain ⟨t, evaluated, valid, law⟩ := state'.composes.evaluate gate known
    refine ⟨n :: new, .ok (v.insert n.id t), ⟨⟨k + 2, fun fuel rest enough => ?_, ?_⟩, distinct,
      below, .inl ⟨_, rfl, ⟨state'.composes.insert valid law, fun i => ?_, distinct,
        fun g member => ?_, fun g member => ?_⟩, ?_⟩⟩⟩
    · obtain ⟨fuel, rfl⟩ : ∃ m, fuel = m + 1 := ⟨fuel - 1, by omega⟩
      have back : fuel - k = (fuel - k - 1) + 1 := by omega
      simp only [List.map_cons, List.map_nil, List.cons_append, List.nil_append]
      rw [expand, runs fuel ((n, true) :: rest) (by omega)]
      show cutWalk net (fuel - k) ((n, true) :: rest) v = _
      rw [back, cutWalk_finish net _ rest fresh' evaluated]
      show _ = cutWalk net (fuel + 1 - (k + 2)) rest _
      congr 1
      omega
    · simp only [List.length_cons, List.length_nil] at steps ⊢
      omega
    · rw [Std.HashMap.mem_insert, beq_iff_eq, state'.keys]
      simp only [List.cons_append, List.mem_cons, exists_eq_or_imp]
      constructor
      · rintro (rfl | first | ⟨g, member, rfl⟩)
        · exact .inr (.inl rfl)
        · exact .inl first
        · exact .inr (.inr ⟨g, member, rfl⟩)
      · rintro (first | rfl | ⟨g, member, rfl⟩)
        · exact .inr (.inl first)
        · exact .inl rfl
        · exact .inr (.inr ⟨g, member, rfl⟩)
    · rcases List.mem_cons.mp member with rfl | later
      · exact notStart
      · exact state'.fresh g later
    · have grows : ∀ i ∈ v, i ∈ v.insert n.id t := fun i key => Std.HashMap.mem_insert.mpr (.inr key)
      rcases List.mem_cons.mp member with rfl | later
      · exact ⟨f, gate, fun s slot => grows _ (known s slot)⟩
      · obtain ⟨f', gate', fanins⟩ := state'.closed g later
        exact ⟨f', gate', fun s slot => grows _ (fanins s slot)⟩
    · intro c member
      rw [List.mem_singleton.mp member]
      exact Std.HashMap.mem_insert.mpr (.inl (beq_self_eq_true _))
  · -- a fault below a fan-in is a fault below the gate
    refine ⟨n :: new, _, ⟨⟨k + 1, fun fuel rest enough => ?_, ?_⟩, distinct, below,
      .inr ⟨p, rfl, input, n, List.mem_singleton_self _, ?_⟩⟩⟩
    · obtain ⟨fuel, rfl⟩ : ∃ m, fuel = m + 1 := ⟨fuel - 1, by omega⟩
      simp only [List.map_cons, List.map_nil, List.cons_append, List.nil_append]
      rw [expand, runs fuel ((n, true) :: rest) (by omega)]
      rfl
    · simp only [List.length_cons, List.length_nil] at steps ⊢
      omega
    · obtain ⟨s, slot, rfl⟩ := children c root
      exact .fanin notStart gate slot path

/-- Every live node can be visited from every state; the induction is on a bound of the node's
rank. -/
theorem cutVisited_single (coherent : net.Coherent) (ranked : net.Ranked rank) (zero : 0 ∈ start) :
    ∀ k n, rank n < k → net.Live n → ∀ values added, CutState net leaves start values added →
      ∃ new r, CutVisited net leaves start [n] values added new r
  | 0, _, low, _, _, _, _ => absurd low (Nat.not_lt_zero _)
  | k + 1, n, low, live, values, added, state => by
    by_cases known : n.id ∈ values
    · exact ⟨[], _, cutVisited_known state known⟩
    obtain ⟨b, read⟩ := coherent.isPi_live live
    cases b
    · have nonzero : n.id ≠ 0 := fun same => known (same ▸ (state.keys 0).mpr (.inl zero))
      obtain ⟨f, gate⟩ := coherent.gate_of_live live nonzero read
      exact cutVisited_expand ranked state known read gate
        (fun c liveC lowC => cutVisited_single coherent ranked zero k c (by omega) liveC) coherent
    · exact ⟨[], _, cutVisited_input coherent state known read⟩

/-- The walk of `simulateCut` from a start whose entries compose and hold the constant ends
either in a state with an entry for the root, or in the fault of an input that a path from the
root reaches without meeting a start entry. -/
theorem cutWalk_root (coherent : net.Coherent) (composes : Composes net leaves start)
    (zero : 0 ∈ start) {root : Node} (live : net.Live root) :
    (∃ v A, cutWalk net (4 * net.size + 4) [(root, false)] start = .ok v ∧
      CutState net leaves start v A ∧ root.id ∈ v) ∨
    ∃ p, cutWalk net (4 * net.size + 4) [(root, false)] start = .error (.inputOutsideCut p) ∧
      p ∈ net.inputs ∧ net.Avoids (·.id ∈ start) root p := by
  obtain ⟨rank, ranked⟩ := coherent.acyclic
  obtain ⟨new, r, visited⟩ := cutVisited_single coherent ranked zero _ root (Nat.lt_succ_self _) live
    start [] (.initial composes)
  obtain ⟨k, runs, steps⟩ := visited.runs
  -- the expanded gates are distinct nodes of the network, so the fuel covers their steps
  have bounded : new.length ≤ net.size := by
    refine length_le_of_ids_lt (by simpa using visited.distinct) fun g member => ?_
    obtain ⟨f, gate⟩ := Option.isSome_iff_exists.mp (visited.below g member).1
    exact lt_size_of_gateFanins gate
  simp only [List.length_singleton] at steps
  have run : cutWalk net (4 * net.size + 4) [(root, false)] start = r := by
    have := runs (4 * net.size + 4) [] (by omega)
    rw [List.map_singleton, List.append_nil] at this
    rw [this, show 4 * net.size + 4 - k = (4 * net.size + 3 - k) + 1 by omega]
    cases r <;> rfl
  rcases visited.outcome with ⟨v, rfl, state, visitedRoot⟩ | ⟨p, rfl, input, c, root', path⟩
  · exact .inl ⟨v, _, run, state, visitedRoot _ (List.mem_singleton_self _)⟩
  · rw [List.mem_singleton.mp root'] at path
    exact .inr ⟨p, run, input, path⟩

/-- A path that meets no node of `S` and passes only through gates other than `T` nodes, to an end
outside `T`, meets no node of either. -/
theorem Avoids.union {S T : Node → Prop} {a b : Node} (path : net.Avoids S a b)
    (gates : ∀ g f, net.gateFanins g = some f → ¬ T g) (finish : ¬ T b) :
    net.Avoids (fun m => S m ∨ T m) a b := by
  induction path with
  | refl outside => exact .refl fun inside => inside.elim outside finish
  | fanin outside gate member _ ih =>
    exact .fanin (fun inside => inside.elim outside (gates _ _ gate)) gate member (ih finish)

/-- On a coherent network, the simulation over at most `maxVars` leaves of a live root fails with
an input outside the cut exactly when a path from the root reaches an input without meeting a
leaf; when none does, it gives the root a table over the leaves whose bit at the leaves' code is
the root's value under every consistent valuation. -/
theorem Coherent.simulateCut (coherent : net.Coherent) (narrow : leaves.size ≤ maxVars) {root : Node}
    (live : net.Live root) :
    ((∃ p, Simulation.simulateCut net leaves root = .error (.inputOutsideCut p)) ↔
      ∃ p ∈ net.inputs, net.Avoids (· ∈ leaves) root p) ∧
    (net.Separates leaves root → ∃ T values, Simulation.simulateCut net leaves root = .ok (T, values) ∧
      Valid leaves.size T ∧ ∀ x val, net.Consistent x val → val root = T.bit (leafCode leaves val)) := by
  obtain ⟨start, started, composes, keys⟩ := startValues_composes net narrow
  have zero : 0 ∈ start := (keys 0).mpr (.inl rfl)
  -- the start entries are the constant's and the leaves'
  have leafKey : ∀ m, m ∈ leaves → m.id ∈ start := fun m member => (keys _).mpr (.inr ⟨m, member, rfl⟩)
  have startKey : ∀ m : Node, m.id ∈ start → m ∈ leaves ∨ m.id = 0 := by
    intro m key
    rcases (keys _).mp key with zero | ⟨l, member, same⟩
    · exact .inr zero
    · exact .inl (Node.eq_of_id_eq same ▸ member)
  have unfolded : Simulation.simulateCut net leaves root =
      (cutWalk net (4 * net.size + 4) [(root, false)] start >>= fun values =>
        (values.get? root.id).elim (throw .missingEntry) fun t => pure (t, values)) := by
    simp only [Simulation.simulateCut, started, except_ok_bind]
    congr 1
    funext values
    cases values.get? root.id <;> rfl
  rcases cutWalk_root coherent composes zero live with ⟨v, A, run, state, known⟩ | ⟨p, run, input, path⟩
  · obtain ⟨t, found⟩ := Option.isSome_iff_exists.mp (Std.HashMap.isSome_getElem?_iff_mem.mpr known)
    have result : Simulation.simulateCut net leaves root = .ok (t, v) := by
      rw [unfolded, run]
      simp [Std.HashMap.get?_eq_getElem?, found]
      rfl
    -- an input below the root on a path that meets no leaf would have been added as a gate
    have separates : net.Separates leaves root := by
      intro p input path
      have path' : net.Avoids (·.id ∈ start) root p := by
        refine (path.union (T := fun m => m.id = 0) (fun g f gate same => ?_) ?_).mono fun m key => startKey m key
        · rw [show g = Node.constant from Node.eq_of_id_eq same, coherent.gateFanins_constant] at gate
          cases gate
        · intro same
          have constant : p = Node.constant := Node.eq_of_id_eq same
          exact coherent.constant_not_input (constant ▸ input)
      obtain ⟨f, gate, -⟩ := state.closed p (state.avoids_added path' known)
      rw [coherent.gateFanins_input input] at gate
      cases gate
    refine ⟨⟨fun failed => ?_, fun reaches => ?_⟩, fun _ => ⟨t, v, result, state.composes _ _ found⟩⟩
    · obtain ⟨p, failed⟩ := failed
      rw [result] at failed
      cases failed
    · obtain ⟨p, input, path⟩ := reaches
      exact absurd path (separates p input)
  · have result : Simulation.simulateCut net leaves root = .error (.inputOutsideCut p) := by
      rw [unfolded, run]
      rfl
    have path' : net.Avoids (· ∈ leaves) root p := path.mono leafKey
    exact ⟨⟨fun _ => ⟨p, input, path'⟩, fun _ => ⟨p, result⟩⟩,
      fun separates => absurd path' (separates p input)⟩

/-! ### Windows -/

/-- On a coherent network, the simulation over at most `maxVars` leaves of a list of live gates,
each listed after those of its fan-ins that are neither the constant nor a leaf, gives every
listed gate a table over the leaves whose bit at the leaves' code is the gate's value under every
consistent valuation. -/
theorem simulateWindow_composes (narrow : leaves.size ≤ maxVars) {nodes : Array Node}
    (ordered : ∀ k (lt : k < nodes.size), ∃ f, net.gateFanins nodes[k] = some f ∧
      ∀ s ∈ f.toList, s.node = Node.constant ∨ s.node ∈ leaves ∨ ∃ j < k, nodes[j]? = some s.node) :
    ∃ values, Simulation.simulateWindow net leaves nodes = .ok values ∧
      ∀ n ∈ nodes, ∃ T, values[n.id]? = some T ∧ Valid leaves.size T ∧
        ∀ x val, net.Consistent x val → val n = T.bit (leafCode leaves val) := by
  obtain ⟨start, started, composes, keys⟩ := startValues_composes net narrow
  simp only [Simulation.simulateWindow, started, except_ok_bind, ← Array.foldlM_toList]
  refine foldlM_ok (fun k values => Composes net leaves values ∧ (∀ i ∈ start, i ∈ values) ∧
      ∀ j (lt : j < k) (lt' : j < nodes.toList.length), nodes.toList[j].id ∈ values) ?_
    ⟨composes, fun _ key => key, fun _ lt => absurd lt (Nat.not_lt_zero _)⟩ ?_
  · intro k lt values ⟨composes, startKeys, earlier⟩
    obtain ⟨f, gate, fanins⟩ := ordered k (by simpa using lt)
    -- every fan-in is the constant, a leaf or an earlier gate, so it has an entry
    have known : ∀ s ∈ f.toList, s.node.id ∈ values := by
      intro s slot
      rcases fanins s slot with constant | leaf | ⟨j, before, atJ⟩
      · exact startKeys _ ((keys _).mpr (.inl (by rw [constant]; rfl)))
      · exact startKeys _ ((keys _).mpr (.inr ⟨_, leaf, rfl⟩))
      · obtain ⟨lt', same⟩ := Array.getElem?_eq_some_iff.mp atJ
        have := earlier j before (by simpa using lt')
        simpa [same] using this
    obtain ⟨t, evaluated, valid, law⟩ := composes.evaluate gate (by simpa using known)
    have grows : ∀ i ∈ values, i ∈ values.insert nodes.toList[k].id t :=
      fun i key => Std.HashMap.mem_insert.mpr (.inr key)
    refine ⟨_, by simp only [Array.getElem_toList] at evaluated ⊢; rw [evaluated]; rfl,
      composes.insert valid (by simpa using law), fun i key => grows i (startKeys i key),
      fun j lt' lt'' => ?_⟩
    rcases Nat.lt_succ_iff_lt_or_eq.mp lt' with before | rfl
    · exact grows _ (earlier j before lt'')
    · exact Std.HashMap.mem_insert.mpr (.inl (beq_self_eq_true _))
  · rintro values ⟨composes, -, all⟩ n member
    obtain ⟨j, lt, rfl⟩ := List.getElem_of_mem (Array.mem_toList_iff.mpr member)
    obtain ⟨t, found⟩ := Option.isSome_iff_exists.mp
      (Std.HashMap.isSome_getElem?_iff_mem.mpr (all j lt lt))
    exact ⟨t, found, composes _ _ found⟩

/-- A node with no fan-ins, such as an input, is no majority gate: evaluating it is a fault. -/
theorem evaluate_of_fanins_nil (fanned : net.fanins n = .ok []) :
    Simulation.evaluate net n values = .error (.notMajority n 0) := by
  have fanned' : LogicNetwork.fanins net n = .ok [] := fanned
  simp only [Simulation.evaluate, fanned', except_ok_bind, List.mapM_nil]
  show net.computeGate n [] = _
  simp only [computeGate, fanned, except_ok_bind]
  rfl

/-- Over more than `maxVars` leaves the cut simulation is refused before the walk. -/
theorem simulateCut_of_wide (wide : maxVars < leaves.size) (root : Node) :
    Simulation.simulateCut net leaves root = .error (.tooManyVariables leaves.size) := by
  have start : startValues leaves.size leaves = .error (.tooManyVariables leaves.size) := by
    simp only [startValues]
    rw [constant_of_gt false wide]
    rfl
  simp only [Simulation.simulateCut]
  rw [start]
  rfl

/-! ### Simulation over cuts and windows -/

/-- Simulation over at most `maxVars` leaves composes with the network. The cut simulation of a
live root fails with an input outside the cut exactly when a path from the root reaches an input
without meeting a leaf; otherwise it gives the root a table whose bit at the code of the leaves'
values (their sum at powers of two, `leafCode_eq_sum`) is the root's value under every
consistent valuation. A window of live gates, each listed after its fan-ins that are neither the
constant nor a leaf, gives each of them such a table. -/
theorem cut_simulation_composes (coherent : net.Coherent) (narrow : leaves.size ≤ maxVars) :
    (∀ root, net.Live root →
      ((∃ p, Simulation.simulateCut net leaves root = .error (.inputOutsideCut p)) ↔
        ∃ p ∈ net.inputs, net.Avoids (· ∈ leaves) root p) ∧
      (net.Separates leaves root → ∃ T values,
        Simulation.simulateCut net leaves root = .ok (T, values) ∧
        ∀ x val, net.Consistent x val → val root = T.bit (leafCode leaves val))) ∧
    ∀ nodes : Array Node, (∀ k (lt : k < nodes.size), ∃ f, net.gateFanins nodes[k] = some f ∧
        ∀ s ∈ f.toList, s.node = Node.constant ∨ s.node ∈ leaves ∨ ∃ j < k, nodes[j]? = some s.node) →
      ∃ values, Simulation.simulateWindow net leaves nodes = .ok values ∧
        ∀ n ∈ nodes, ∃ T, values[n.id]? = some T ∧
          ∀ x val, net.Consistent x val → val n = T.bit (leafCode leaves val) := by
  refine ⟨fun root live => ?_, fun nodes ordered => ?_⟩
  · obtain ⟨outside, composes⟩ := coherent.simulateCut narrow live
    refine ⟨outside, fun separates => ?_⟩
    obtain ⟨T, values, run, -, law⟩ := composes separates
    exact ⟨T, values, run, law⟩
  · obtain ⟨values, run, tables⟩ := simulateWindow_composes narrow ordered
    refine ⟨values, run, fun n member => ?_⟩
    obtain ⟨T, found, -, law⟩ := tables n member
    exact ⟨T, found, law⟩

/-- Over the network of `(a ∧ b) ∧ (a ∨ b)`: the cut of the top gate by the two gates below it
composes, the cut by `a ∧ b` alone misses the input `a` under `a ∨ b` and is refused, and the
window of the three gates over the two inputs gives each of them its table. -/
theorem cut_simulation_composes_through_gates :
    ∃ net : Network, net.Coherent ∧ net.gateFanins ⟨3⟩ = some ⟨⟨0⟩, ⟨2⟩, ⟨4⟩⟩ ∧
      net.gateFanins ⟨4⟩ = some ⟨⟨1⟩, ⟨2⟩, ⟨4⟩⟩ ∧ net.gateFanins ⟨5⟩ = some ⟨⟨0⟩, ⟨6⟩, ⟨8⟩⟩ ∧
      net.inputs = #[⟨1⟩, ⟨2⟩] ∧
      (∃ T values, Simulation.simulateCut net #[⟨3⟩, ⟨4⟩] ⟨5⟩ = .ok (T, values) ∧
        ∀ x val, net.Consistent x val → val ⟨5⟩ = T.bit (leafCode #[⟨3⟩, ⟨4⟩] val)) ∧
      (∃ p, Simulation.simulateCut net #[⟨3⟩] ⟨5⟩ = .error (.inputOutsideCut p)) ∧
      ∃ values, Simulation.simulateWindow net #[⟨1⟩, ⟨2⟩] #[⟨3⟩, ⟨4⟩, ⟨5⟩] = .ok values ∧
        ∀ n ∈ #[(⟨3⟩ : Node), ⟨4⟩, ⟨5⟩], ∃ T, values[n.id]? = some T ∧
          ∀ x val, net.Consistent x val → val n = T.bit (leafCode #[⟨1⟩, ⟨2⟩] val) := by
  obtain ⟨-, -, -, net, -, -, -, -, wf, gate₃, gate₄, gate₅, others, -, inputs, -, -, -⟩ :=
    andOr_network
  have coherent := wf.toCoherent
  have live₅ : net.Live ⟨5⟩ := live_of_gateFanins gate₅
  -- every path from the top gate passes through one of the gates below it or ends at the constant
  have separates : net.Separates #[⟨3⟩, ⟨4⟩] ⟨5⟩ := by
    intro p input path
    rw [inputs] at input
    cases path with
    | refl => simp at input
    | fanin _ gate member below =>
      rw [gate₅, Option.some.injEq] at gate
      subst gate
      simp only [Fanins.toList, List.mem_cons, List.not_mem_nil, or_false] at member
      rcases member with rfl | rfl | rfl
      · obtain rfl := below.reaches.eq_of_gateFanins_none (others _ (by decide))
        simp [Signal.node] at input
      · exact below.start_outside (show (⟨3⟩ : Node) ∈ (#[⟨3⟩, ⟨4⟩] : Array Node) by simp)
      · exact below.start_outside (show (⟨4⟩ : Node) ∈ (#[⟨3⟩, ⟨4⟩] : Array Node) by simp)
  -- `a ∧ b` alone leaves the path through `a ∨ b` down to `a`
  have missed : net.Avoids (· ∈ (#[⟨3⟩] : Array Node)) ⟨5⟩ ⟨1⟩ :=
    .fanin (by simp) gate₅ (s := ⟨8⟩) (by simp [Fanins.toList])
      (.fanin (by simp [Signal.node]) gate₄ (s := ⟨2⟩) (by simp [Fanins.toList])
        (.refl (by simp [Signal.node])))
  have cut := cut_simulation_composes coherent
    (show (#[⟨3⟩, ⟨4⟩] : Array Node).size ≤ maxVars by decide)
  have single := cut_simulation_composes coherent (show (#[⟨3⟩] : Array Node).size ≤ maxVars by decide)
  have window := cut_simulation_composes coherent
    (show (#[⟨1⟩, ⟨2⟩] : Array Node).size ≤ maxVars by decide)
  refine ⟨net, coherent, gate₃, gate₄, gate₅, inputs, (cut.1 ⟨5⟩ live₅).2 separates,
    (single.1 ⟨5⟩ live₅).1.mpr ⟨⟨1⟩, by rw [inputs]; simp, missed⟩, window.2 _ fun k lt => ?_⟩
  -- each gate of the window reads the constant, the inputs and the gates before it
  rcases k with _ | _ | _ | k
  · exact ⟨_, gate₃, by decide +kernel⟩
  · exact ⟨_, gate₄, by decide +kernel⟩
  · exact ⟨_, gate₅, by decide +kernel⟩
  · have beyond : k + 1 + 1 + 1 < 3 := lt
    omega

/-- A window that lists an input is refused: the input is no majority gate. -/
theorem simulateWindow_rejects_input :
    Simulation.simulateWindow Network.empty.addInput.2 #[⟨1⟩] #[⟨1⟩] = .error (.notMajority ⟨1⟩ 0) := by
  obtain ⟨start, started, -⟩ :=
    startValues_composes Network.empty.addInput.2 (by decide : (#[⟨1⟩] : Array Node).size ≤ maxVars)
  have fanned : (Network.empty.addInput.2).fanins ⟨1⟩ = .ok [] := rfl
  simp only [Simulation.simulateWindow, started, except_ok_bind, ← Array.foldlM_toList,
    List.foldlM_cons, List.foldlM_nil]
  simp [evaluate_of_fanins_nil fanned, bind, Except.bind]

end Network

end MajorityGraph
