import MajorityGraph.Proofs.Network.Gates
import MajorityGraph.Proofs.Network.Reach

/-!
Canonical, hash-consed majorities: `createMaj` answers every order of its arguments alike and
makes at most one gate (`WellFormed.majorities_canonical`).
-/

namespace MajorityGraph

-----------------------------------------------------------------------------------------
-- Normal forms
-----------------------------------------------------------------------------------------

namespace Signal

/-- A signal is fixed by its values: two signals with one value under every valuation of the
nodes are on one node with one polarity. -/
theorem eq_of_eval {s t : Signal} (same : ∀ val : Node → Bool, s.eval val = t.eval val) : s = t := by
  have polarity : s.isComplemented = t.isComplemented := by
    simpa [eval] using same fun _ => false
  have node : t.node = s.node := by
    have atNode := same fun n => decide (n = s.node)
    cases h : t.isComplemented <;> simp_all [eval]
  rw [← make_node_isComplemented s, ← make_node_isComplemented t, node, polarity]

@[simp] theorem complement_make (n : Node) (c : Bool) : (make n c).complement = make n (!c) := by
  simp [complement]

theorem complement_inj {s t : Signal} : s.complement = t.complement ↔ s = t :=
  ⟨fun same => by rw [← complement_complement s, same, complement_complement], congrArg _⟩

@[simp] theorem xor_xor (s : Signal) (b : Bool) : (s.xor b).xor b = s := by
  cases b <;> simp [Signal.xor]

theorem xor_inj {s t : Signal} {b : Bool} : s.xor b = t.xor b ↔ s = t := by
  cases b <;> simp [Signal.xor, complement_inj]

end Signal

/-- The outcome of normalizing the complements of three fan-ins: the complement of the signal, or
the same gate with the other output polarity. -/
def Normalized.complement : Normalized → Normalized
  | .trivial s => .trivial s.complement
  | .gate f c => .gate f (!c)

namespace Fanins

theorem toList_injective {f g : Fanins} (same : f.toList = g.toList) : f = g := by
  obtain ⟨a, b, c⟩ := f
  obtain ⟨a', b', c'⟩ := g
  simp only [toList, List.cons.injEq, and_true] at same
  obtain ⟨rfl, rfl, rfl⟩ := same
  rfl

theorem sort_pairwise (f : Fanins) : f.sort.toList.Pairwise (fun x y => x.raw ≤ y.raw) := by
  obtain ⟨ab, bc⟩ := sort_sorted f
  simp only [toList, List.pairwise_cons, List.mem_cons, List.not_mem_nil, or_false,
    forall_eq_or_imp, forall_eq, List.Pairwise.nil, false_implies, implies_true, and_true]
  omega

/-- Sorting gives one result for every order of the fan-ins. -/
theorem sort_eq_of_perm {f g : Fanins} (perm : f.toList.Perm g.toList) : f.sort = g.sort := by
  refine toList_injective (List.Perm.eq_of_pairwise ?_ (sort_pairwise f) (sort_pairwise g)
    ((sort_perm f).trans (perm.trans (sort_perm g).symm)))
  rintro ⟨x⟩ ⟨y⟩ _ _ le ge
  simp only [Signal.mk.injEq] at le ge ⊢
  omega

/-- Normalization sees which signals the fan-ins are, not their order. -/
theorem normalize_eq_of_perm {f g : Fanins} (perm : f.toList.Perm g.toList)
    : f.normalize = g.normalize := by
  unfold normalize
  rw [sort_eq_of_perm perm]

/-- Sorted fan-ins on three distinct nodes sit on increasing nodes. -/
theorem sort_nodes_lt {f : Fanins} (distinct : (f.toList.map Signal.node).Nodup)
    : f.sort.a.node.id < f.sort.b.node.id ∧ f.sort.b.node.id < f.sort.c.node.id := by
  have sortedDistinct : (f.sort.toList.map Signal.node).Nodup :=
    ((sort_perm f).map Signal.node).nodup_iff.mpr distinct
  simp only [toList, List.map_cons, List.map_nil, List.nodup_cons, List.mem_cons,
    List.not_mem_nil, or_false, not_or] at sortedDistinct
  obtain ⟨⟨ab, -⟩, bc, -⟩ := sortedDistinct
  obtain ⟨le₁, le₂⟩ := sort_sorted f
  have ab' : f.sort.a.node.id ≠ f.sort.b.node.id := fun same => ab (congrArg Node.mk same)
  have bc' : f.sort.b.node.id ≠ f.sort.c.node.id := fun same => bc (congrArg Node.mk same)
  have := Signal.node_le_of_raw_le le₁
  have := Signal.node_le_of_raw_le le₂
  omega

/-- A majority is trivial exactly when two of its fan-ins share a node. -/
theorem normalize_trivial_iff {f : Fanins}
    : (∃ t, f.normalize = .trivial t) ↔ ¬ (f.toList.map Signal.node).Nodup := by
  constructor
  · rintro ⟨t, trivial⟩ distinct
    obtain ⟨ab, bc⟩ := sort_nodes_lt distinct
    unfold normalize at trivial
    rw [if_neg fun same => Nat.ne_of_lt ab (congrArg Node.id same),
      if_neg fun same => Nat.ne_of_lt bc (congrArg Node.id same)] at trivial
    split at trivial <;> cases trivial
  · intro shared
    cases gate : f.normalize with
    | trivial t => exact ⟨t, rfl⟩
    | gate g c =>
        exact absurd ((nodes_normalize gate).nodup_iff.mp (nodes_nodup_of_normalize gate)) shared

/-- Complementing fan-ins on distinct nodes keeps their sorted order. -/
theorem sort_map_complement {f : Fanins} (distinct : (f.toList.map Signal.node).Nodup)
    : (f.map Signal.complement).sort = f.sort.map Signal.complement := by
  have perm : (f.map Signal.complement).toList.Perm (f.sort.map Signal.complement).toList := by
    simp only [toList_map]
    exact (sort_perm f).symm.map _
  obtain ⟨ab, bc⟩ := sort_nodes_lt distinct
  rw [sort_eq_of_perm perm]
  exact sort_of_lt (Signal.raw_lt_of_node_lt (by simpa [map] using ab))
    (Signal.raw_lt_of_node_lt (by simpa [map] using bc))

/-- Self-duality of normal forms: the complements of three fan-ins normalize to the complement
of their normal form. -/
theorem normalize_map_complement (f : Fanins)
    : (f.map Signal.complement).normalize = f.normalize.complement := by
  by_cases distinct : (f.toList.map Signal.node).Nodup
  · -- the same sorted nodes, with the complemented count flipped
    obtain ⟨ab, bc⟩ := sort_nodes_lt distinct
    have count := complementCount_map_complement f.sort
    have ab' : f.sort.a.node ≠ f.sort.b.node := fun same => Nat.ne_of_lt ab (congrArg Node.id same)
    have bc' : f.sort.b.node ≠ f.sort.c.node := fun same => Nat.ne_of_lt bc (congrArg Node.id same)
    have ab'' : (f.sort.map Signal.complement).a.node ≠ (f.sort.map Signal.complement).b.node := by
      simpa [map] using ab'
    have bc'' : (f.sort.map Signal.complement).b.node ≠ (f.sort.map Signal.complement).c.node := by
      simpa [map] using bc'
    unfold normalize
    rw [sort_map_complement distinct, if_neg ab'', if_neg bc'', if_neg ab', if_neg bc']
    by_cases many : 2 ≤ f.sort.complementCount
    · rw [if_pos many, if_neg (show ¬ (f.sort.map Signal.complement).complementCount ≥ 2 by omega)]
      rfl
    · rw [if_neg many, if_pos (show (f.sort.map Signal.complement).complementCount ≥ 2 by omega)]
      simp [Normalized.complement, map]
  · -- both are trivial, and a trivial outcome is fixed by its values
    obtain ⟨t, trivial⟩ := normalize_trivial_iff.mpr distinct
    have shared : ¬ ((f.map Signal.complement).toList.map Signal.node).Nodup := by
      simpa [toList_map, List.map_map, Function.comp_def] using distinct
    obtain ⟨t', trivial'⟩ := normalize_trivial_iff.mpr shared
    rw [trivial, trivial', Normalized.complement]
    congr 1
    refine Signal.eq_of_eval fun val => ?_
    rw [eval_of_normalize_eq_trivial val trivial', eval_map_complement, Signal.eval_complement,
      eval_of_normalize_eq_trivial val trivial]

end Fanins

namespace Network

open NetM

variable {net net' : Network} {a b c s : Signal}

-----------------------------------------------------------------------------------------
-- Runs of `createMaj`
-----------------------------------------------------------------------------------------

/-- Each outcome of `createMaj_cases` is reached, whatever journal the call starts from. -/
theorem always_createMaj
    (outcome : (Fanins.normalize ⟨a, b, c⟩ = .trivial s ∧ net' = net) ∨
      ∃ f compl p created, Fanins.normalize ⟨a, b, c⟩ = .gate f compl ∧
        net.addGate f = .ok ((p, created), net') ∧ s = Signal.make p compl)
    : Always (createMaj a b c) net s net' := by
  intro j
  rcases outcome with ⟨trivial, rfl⟩ | ⟨f, compl, p, created, gate, added, rfl⟩
  · simp [createMaj, trivial, Network.log]
    exact ⟨_, rfl⟩
  · cases created <;> simp [createMaj, gate, Network.change, added, Network.lift, orFail,
      StateT.run_bind, Network.log] <;> exact ⟨_, rfl⟩

/-- A run of `createMaj` is exactly one of the two outcomes of `createMaj_cases`. -/
theorem returns_createMaj_iff : Returns (createMaj a b c) net s net' ↔
    (Fanins.normalize ⟨a, b, c⟩ = .trivial s ∧ net' = net) ∨
      ∃ f compl p created, Fanins.normalize ⟨a, b, c⟩ = .gate f compl ∧
        net.addGate f = .ok ((p, created), net') ∧ s = Signal.make p compl :=
  ⟨createMaj_cases, fun outcome => (always_createMaj outcome).returns⟩

/-- A run of `createMaj` is reached from every journal. -/
theorem always_of_returns_createMaj (run : Returns (createMaj a b c) net s net')
    : Always (createMaj a b c) net s net' :=
  Network.always_createMaj (createMaj_cases run)

/-- `createMaj` sees its arguments only through their normal form. -/
theorem returns_createMaj_congr {a' b' c' : Signal}
    (same : Fanins.normalize ⟨a, b, c⟩ = Fanins.normalize ⟨a', b', c'⟩)
    : Returns (createMaj a b c) net s net' ↔ Returns (createMaj a' b' c') net s net' := by
  rw [returns_createMaj_iff, returns_createMaj_iff, same]

/-- Complementing the three arguments complements what `createMaj` returns and builds the same
network. -/
theorem returns_createMaj_complement
    : Returns (createMaj a.complement b.complement c.complement) net s.complement net' ↔
        Returns (createMaj a b c) net s net' := by
  have dual := Fanins.normalize_map_complement ⟨a, b, c⟩
  simp only [Fanins.map] at dual
  rw [returns_createMaj_iff, returns_createMaj_iff, dual]
  cases Fanins.normalize ⟨a, b, c⟩ with
  | trivial t => simp [Normalized.complement, Signal.complement_inj]
  | gate g compl =>
      simp only [Normalized.complement, reduceCtorEq, false_and, Normalized.gate.injEq, false_or]
      constructor
      · rintro ⟨f, compl', p, created, ⟨rfl, rfl⟩, added, same⟩
        refine ⟨_, compl, p, created, ⟨rfl, rfl⟩, added, ?_⟩
        rw [← Signal.complement_inj, same, Signal.complement_make]
      · rintro ⟨f, compl', p, created, ⟨rfl, rfl⟩, added, rfl⟩
        exact ⟨_, !compl, p, created, ⟨rfl, rfl⟩, added, Signal.complement_make p compl⟩

/-- A call of `createMaj` has one outcome. -/
theorem createMaj_unique {s₂ : Signal} {net₂ : Network}
    (run : Returns (createMaj a b c) net s net') (other : Returns (createMaj a b c) net s₂ net₂)
    : s₂ = s ∧ net₂ = net' := by
  rcases createMaj_cases run with ⟨trivial, rfl⟩ | ⟨f, compl, p, created, gate, added, rfl⟩ <;>
    rcases createMaj_cases other with ⟨trivial', rfl⟩ | ⟨f', compl', p', created', gate', added', rfl⟩
  · rw [trivial] at trivial'
    cases trivial'
    exact ⟨rfl, rfl⟩
  · rw [trivial] at gate'
    cases gate'
  · rw [gate] at trivial'
    cases trivial'
  · rw [gate] at gate'
    cases gate'
    rw [added] at added'
    cases added'
    exact ⟨rfl, rfl⟩

-----------------------------------------------------------------------------------------
-- Calls on a well-formed network
-----------------------------------------------------------------------------------------

/-- In a well-formed network the unique table finds every live gate by its fan-ins. -/
theorem WellFormed.find_gate (wf : net.WellFormed) {g : Node} {f : Fanins}
    (gate : net.gateFanins g = some f) : net.table.find (NodeData.majority f) = some g.id := by
  obtain ⟨c, _, cell, _, value, _⟩ := gateFanins_eq_some.mp gate
  have linked := wf.allLinked g f gate
  have onCell : c.linked = true := by simpa [UniqueTable.linkedAt, cell] using linked
  obtain ⟨i, found⟩ := Option.isSome_iff_exists.mp
    (wf.indexed.find_isSome_iff.mpr ⟨g.id, c, cell, onCell, value⟩)
  -- the cell found is a linked live gate over the same fan-ins, so it is `g` itself
  obtain ⟨c', cell', on', _⟩ := wf.indexed.find_eq_some found
  have same := wf.distinct ⟨i⟩ g f (wf.sound.gateFanins_of_find found) gate
    (by simp [UniqueTable.linkedAt, cell', on']) linked
  rw [found, ← same]

/-- `createMaj` over live nodes of a well-formed network returns when a node id is left for a
new gate and the arguments' nodes have room for one more use each. -/
theorem WellFormed.createMaj_returns_of_uses (wf : net.WellFormed)
    (live : ∀ t ∈ [a, b, c], net.Live t.node) (fits : net.size ≤ Node.maxId)
    (uses : ∀ t ∈ [a, b, c], ∀ r, net.refs[t.node.id]? = some r → r.fanout < NodeRefs.maxFanout) :
    ∃ s net', Returns (Network.createMaj a b c) net s net' := by
  cases normal : Fanins.normalize ⟨a, b, c⟩ with
  | trivial t => exact ⟨t, net, returns_createMaj_iff.mpr (.inl ⟨normal, rfl⟩)⟩
  | gate f compl =>
      cases look : net.table.find (NodeData.majority f) with
      | some i =>
          exact ⟨_, _, returns_createMaj_iff.mpr
            (.inr ⟨f, compl, ⟨i⟩, false, normal, wf.addGate_of_find_some look, rfl⟩)⟩
      | none =>
          obtain ⟨net', added, -⟩ := wf.sound.addGate_of_find_none look
            (Fanins.nodes_nodup_of_normalize normal)
            (Fanins.forall_nodes_of_normalize (fun n => n.id < net.size) normal
              fun t member => wf.lt_size_of_live (live t member)) fits
            (Fanins.forall_nodes_of_normalize
              (fun n => ∀ r, net.refs[n.id]? = some r → r.fanout < NodeRefs.maxFanout) normal uses)
          exact ⟨_, _, returns_createMaj_iff.mpr (.inr ⟨f, compl, _, true, normal, added, rfl⟩)⟩

/-- `createMaj` over live nodes of a well-formed network with room for one more node returns. -/
theorem WellFormed.createMaj_returns (wf : net.WellFormed) (live : ∀ t ∈ [a, b, c], net.Live t.node)
    (room : net.Room 1) : ∃ s net', Returns (Network.createMaj a b c) net s net' :=
  wf.createMaj_returns_of_uses live room.size_le fun t _ _ uses => room.fanout_lt t.node uses

/-- One `createMaj` over live nodes of a well-formed network with room for `k + 1` more nodes and
uses: it returns a live signal, and the network it leaves is well formed, grows the first one
and has room for `k` more. -/
theorem WellFormed.createMaj_step (wf : net.WellFormed) (live : ∀ t ∈ [a, b, c], net.Live t.node)
    {k : Nat} (room : net.Room (k + 1)) :
    ∃ s net', Returns (Network.createMaj a b c) net s net' ∧ net'.WellFormed ∧ Grows net net' ∧
      net'.Live s.node ∧ net'.Room k := by
  obtain ⟨s, net', run⟩ := wf.createMaj_returns live (room.mono (Nat.le_add_left 1 k))
  obtain ⟨wf', grows, sLive⟩ := wf.createMaj live run
  exact ⟨s, net', run, wf', grows, sLive,
    wf.sound.room_createMaj (fun t member => wf.lt_size_of_live (live t member)) room run⟩

/-- A call that returned is answered by the unique table in every well-formed network that keeps
the gates of the network it left: it returns the same signal and changes nothing. -/
theorem WellFormed.createMaj_later {later : Network} (wf : net.WellFormed)
    (live : ∀ t ∈ [a, b, c], net.Live t.node) (run : Returns (Network.createMaj a b c) net s net')
    (wfLater : later.WellFormed) (grows : Grows net' later)
    : Returns (Network.createMaj a b c) later s later := by
  rcases createMaj_cases run with ⟨trivial, rfl⟩ | ⟨f, compl, p, created, gate, added, rfl⟩
  · exact returns_createMaj_iff.mpr (.inl ⟨trivial, rfl⟩)
  · obtain ⟨-, isGate, -⟩ := wf.addGate (Fanins.normalize_normalize gate)
      (Fanins.forall_nodes_of_normalize net.Live gate live) added
    have kept : later.gateFanins p = some f := by
      rw [grows.gates p (lt_size_of_gateFanins isGate)]
      exact isGate
    exact returns_createMaj_iff.mpr
      (.inr ⟨f, compl, p, false, gate, wfLater.addGate_of_find_some (wfLater.find_gate kept), rfl⟩)

/-- A valuation consistent with a network is consistent with every network it grows from. -/
theorem Grows.consistent {x : Nat → Bool} {val : Node → Bool} (grows : Grows net net')
    (consistent : net'.Consistent x val) : net.Consistent x val where
  constant := consistent.constant
  inputs i n input := consistent.inputs i n (by rw [grows.inputs]; exact input)
  gates g f gate := consistent.gates g f (by rw [grows.gates g (lt_size_of_gateFanins gate)]; exact gate)

/-- Under every valuation consistent with the network it leaves, `createMaj` returns the
majority of its arguments. -/
theorem WellFormed.eval_createMaj (wf : net.WellFormed) (live : ∀ t ∈ [a, b, c], net.Live t.node)
    (run : Returns (Network.createMaj a b c) net s net') {x : Nat → Bool} {val : Node → Bool}
    (consistent : net'.Consistent x val)
    : s.eval val = maj3 (a.eval val) (b.eval val) (c.eval val) := by
  rcases createMaj_cases run with ⟨trivial, rfl⟩ | ⟨f, compl, p, created, gate, added, rfl⟩
  · exact Fanins.eval_of_normalize_eq_trivial val trivial
  · obtain ⟨-, isGate, -⟩ := wf.addGate (Fanins.normalize_normalize gate)
      (Fanins.forall_nodes_of_normalize net.Live gate live) added
    rw [Signal.eval_make, consistent.gates p f isGate]
    exact Fanins.eval_of_normalize_eq_gate val gate

/-- A call either changes nothing or adds one gate over the nodes of its arguments, and returns
a signal on that gate. -/
theorem WellFormed.createMaj_adds (wf : net.WellFormed) (live : ∀ t ∈ [a, b, c], net.Live t.node)
    (run : Returns (Network.createMaj a b c) net s net')
    : net' = net ∨ ∃ f, AddsGate net net' f ∧
        (f.toList.map Signal.node).Perm ([a, b, c].map Signal.node) ∧ s.node = ⟨net.size⟩ := by
  rcases createMaj_cases run with ⟨trivial, rfl⟩ | ⟨f, compl, p, created, gate, added, rfl⟩
  · exact .inl rfl
  · obtain ⟨-, -, outcome⟩ := wf.addGate (Fanins.normalize_normalize gate)
      (Fanins.forall_nodes_of_normalize net.Live gate live) added
    cases created with
    | false => exact .inl outcome
    | true =>
        obtain ⟨rfl, adds⟩ := outcome
        exact .inr ⟨f, adds, Fanins.nodes_normalize gate, Signal.node_make _ _⟩

/-- A call returns one of its arguments and changes nothing exactly when two arguments share a
node: otherwise it returns a gate over the three nodes, which is none of them. -/
theorem WellFormed.createMaj_argument_iff (wf : net.WellFormed)
    (live : ∀ t ∈ [a, b, c], net.Live t.node) (run : Returns (Network.createMaj a b c) net s net')
    : (s ∈ [a, b, c] ∧ net' = net) ↔ ¬ ([a, b, c].map Signal.node).Nodup := by
  rcases createMaj_cases run with ⟨trivial, rfl⟩ | ⟨f, compl, p, created, gate, added, rfl⟩
  · have shared := Fanins.normalize_trivial_iff.mp ⟨s, trivial⟩
    exact iff_of_true ⟨Fanins.mem_of_normalize_eq_trivial trivial, rfl⟩ shared
  · have distinct := (Fanins.nodes_normalize gate).nodup_iff.mp (Fanins.nodes_nodup_of_normalize gate)
    refine iff_of_false (fun ⟨member, _⟩ => ?_) (fun shared => shared distinct)
    -- the gate would be one of its own fan-in nodes
    obtain ⟨wf', isGate, -⟩ := wf.addGate (Fanins.normalize_normalize gate)
      (Fanins.forall_nodes_of_normalize net.Live gate live) added
    obtain ⟨t, tMember, same⟩ := List.mem_map.mp ((Fanins.nodes_normalize gate).symm.subset
      (List.mem_map_of_mem (f := Signal.node) member))
    obtain ⟨rank, ranked⟩ := wf'.acyclic
    have below := ranked p f isGate t tMember
    rw [same, Signal.node_make] at below
    exact Nat.lt_irrefl _ below

/-- A call whose normal form is a gate that no live gate has yet adds it as the last node. -/
theorem WellFormed.createMaj_creates (wf : net.WellFormed) (live : ∀ t ∈ [a, b, c], net.Live t.node)
    (run : Returns (Network.createMaj a b c) net s net') {f : Fanins} {compl : Bool}
    (gate : Fanins.normalize ⟨a, b, c⟩ = .gate f compl) (fresh : ∀ g, net.gateFanins g ≠ some f)
    : AddsGate net net' f ∧ s = Signal.make ⟨net.size⟩ compl := by
  rcases createMaj_cases run with ⟨trivial, rfl⟩ | ⟨f', compl', p, created, gate', added, rfl⟩
  · rw [gate] at trivial
    cases trivial
  · rw [gate] at gate'
    cases gate'
    obtain ⟨-, isGate, outcome⟩ := wf.addGate (Fanins.normalize_normalize gate)
      (Fanins.forall_nodes_of_normalize net.Live gate live) added
    cases created with
    | false =>
        rw [if_neg Bool.false_ne_true] at outcome
        subst outcome
        exact absurd isGate (fresh p)
    | true =>
        obtain ⟨rfl, adds⟩ := outcome
        exact ⟨adds, rfl⟩

/-- A call either changes nothing or adds one last node, and every node other than the
arguments' keeps its uses. -/
theorem WellFormed.createMaj_frame (wf : net.WellFormed) (live : ∀ t ∈ [a, b, c], net.Live t.node)
    (run : Returns (Network.createMaj a b c) net s net')
    : net'.size ≤ net.size + 1 ∧ net'.numGates ≤ net.numGates + 1 ∧
        ∀ n : Node, n.id < net.size → n ∉ [a, b, c].map Signal.node →
          net'.refs[n.id]? = net.refs[n.id]? := by
  rcases wf.createMaj_adds live run with rfl | ⟨f, adds, nodes, -⟩
  · exact ⟨Nat.le_succ _, Nat.le_succ _, fun _ _ _ => rfl⟩
  · refine ⟨Nat.le_of_eq adds.size, Nat.le_of_eq adds.numGates, fun n old other => ?_⟩
    have notFanin : n ∉ f.toList.map Signal.node := fun member => other (nodes.subset member)
    rw [adds.refs, if_neg (Nat.ne_of_lt old)]
    cases net.refs[n.id]? <;> simp [notFanin]

-----------------------------------------------------------------------------------------
-- Canonical majorities
-----------------------------------------------------------------------------------------

/-- Once a call is known to return `s` and leave `net'`, every run of it does. -/
theorem returns_createMaj_iff_of (run : Returns (createMaj a b c) net s net') {s₂ : Signal}
    {net₂ : Network} : Returns (createMaj a b c) net s₂ net₂ ↔ s₂ = s ∧ net₂ = net' :=
  ⟨fun other => createMaj_unique run other, by rintro ⟨rfl, rfl⟩; exact run⟩

/-- A call with the arguments in another order has the outcome of the call. -/
theorem returns_createMaj_perm {a' b' c' : Signal} (perm : [a', b', c'].Perm [a, b, c])
    : Returns (createMaj a' b' c') net s net' ↔ Returns (createMaj a b c) net s net' :=
  returns_createMaj_congr (Fanins.normalize_eq_of_perm perm)

/-- A call with the arguments in another order, all complemented when `flip` holds, has the
outcome of the call, with its signal complemented along. -/
theorem returns_createMaj_reordered {a' b' c' : Signal} (perm : [a', b', c'].Perm [a, b, c])
    (flip : Bool)
    : Returns (createMaj (a'.xor flip) (b'.xor flip) (c'.xor flip)) net (s.xor flip) net' ↔
        Returns (createMaj a b c) net s net' := by
  have reordered : Returns (createMaj a' b' c') net s net' ↔ Returns (createMaj a b c) net s net' :=
    returns_createMaj_perm perm
  cases flip with
  | false => simpa [Signal.xor] using reordered
  | true => simpa [Signal.xor] using returns_createMaj_complement.trans reordered

/-- After a run, a call with the arguments in another order, all complemented or not, has one
outcome: the same network and the signal complemented along. -/
theorem returns_createMaj_reordered_iff (run : Returns (createMaj a b c) net s net')
    {a' b' c' : Signal} (perm : [a', b', c'].Perm [a, b, c]) (flip : Bool) {s₂ : Signal}
    {net₂ : Network}
    : Returns (createMaj (a'.xor flip) (b'.xor flip) (c'.xor flip)) net s₂ net₂ ↔
        s₂ = s.xor flip ∧ net₂ = net' := by
  obtain ⟨t, rfl⟩ : ∃ t, s₂ = t.xor flip := ⟨s₂.xor flip, (Signal.xor_xor s₂ flip).symm⟩
  rw [returns_createMaj_reordered perm flip, returns_createMaj_iff_of run, Signal.xor_inj]

/-- What a call `createMaj a b c` from `net` that returned `s` and left `net'` guarantees. -/
structure CanonicalMajority (net : Network) (a b c s : Signal) (net' : Network) : Prop where
  /-- The network stays well formed, so a new gate is stored in normal form and linked. -/
  wellFormed : net'.WellFormed
  /-- The signal is the majority of the arguments. -/
  value : ∀ x val, net'.Consistent x val → s.eval val = maj3 (a.eval val) (b.eval val) (c.eval val)
  /-- The arguments in any order, all complemented or not, give the same network and the signal
  complemented along. -/
  reordered : ∀ a' b' c', [a', b', c'].Perm [a, b, c] → ∀ (flip : Bool) s₂ net₂,
    Returns (createMaj (a'.xor flip) (b'.xor flip) (c'.xor flip)) net s₂ net₂ ↔
      s₂ = s.xor flip ∧ net₂ = net'
  /-- Repeated in any of these forms, the call changes nothing. -/
  repeated : ∀ a' b' c', [a', b', c'].Perm [a, b, c] → ∀ (flip : Bool) s₂ net₂,
    Returns (createMaj (a'.xor flip) (b'.xor flip) (c'.xor flip)) net' s₂ net₂ ↔
      s₂ = s.xor flip ∧ net₂ = net'
  /-- At most one gate is made. -/
  size : net'.size ≤ net.size + 1
  numGates : net'.numGates ≤ net.numGates + 1
  /-- The nodes that were there keep their fan-ins, and all but the arguments' keep their uses. -/
  keepsFanins : ∀ n : Node, n.id < net.size → net'.gateFanins n = net.gateFanins n
  keepsUses : ∀ n : Node, n.id < net.size → n ∉ [a, b, c].map Signal.node →
    net'.refs[n.id]? = net.refs[n.id]?
  /-- The nodes that were there keep their values. -/
  keepsValues : ∀ x val, net'.Consistent x val → net.Consistent x val
  extendsValues : ∀ x val, net.Consistent x val →
    ∃ val', net'.Consistent x val' ∧ ∀ n : Node, n.id < net.size → val' n = val n
  /-- An argument is returned, with nothing made, exactly when two arguments share a node. -/
  argument : (s ∈ [a, b, c] ∧ net' = net) ↔ ¬ ([a, b, c].map Signal.node).Nodup

/-- `createMaj` over live nodes of a well-formed network with room for one more node returns,
and its run is a canonical, hash-consed majority. -/
theorem WellFormed.createMaj_canonical (wf : net.WellFormed)
    (live : ∀ t ∈ [a, b, c], net.Live t.node) (room : net.Room 1)
    : ∃ s net', Returns (Network.createMaj a b c) net s net' ∧ CanonicalMajority net a b c s net' := by
  obtain ⟨s, net', run⟩ := wf.createMaj_returns live room
  obtain ⟨wf', grows, -⟩ := wf.createMaj live run
  obtain ⟨size, numGates, keepsUses⟩ := wf.createMaj_frame live run
  have again := wf.createMaj_later live run wf' (Grows.refl net')
  refine ⟨s, net', run,
    { wellFormed := wf'
      value := fun x val consistent => wf.eval_createMaj live run consistent
      reordered := fun a' b' c' perm flip s₂ net₂ => returns_createMaj_reordered_iff run perm flip
      repeated := fun a' b' c' perm flip s₂ net₂ => returns_createMaj_reordered_iff again perm flip
      size, numGates
      keepsFanins := grows.gates
      keepsUses
      keepsValues := fun x val consistent => grows.consistent consistent
      extendsValues := fun x val consistent => ?_
      argument := wf.createMaj_argument_iff live run }⟩
  obtain ⟨val', follows, -⟩ := wf.sound.follows_createMaj
    (fun t member => wf.lt_size_of_live (live t member)) run consistent
  exact ⟨val', follows.consistent, follows.agree⟩

-----------------------------------------------------------------------------------------
-- Conjunction, disjunction and exclusive or
-----------------------------------------------------------------------------------------

theorem maj3_false_left (x y : Bool) : maj3 false x y = (x && y) := by
  cases x <;> cases y <;> rfl

theorem maj3_true_left (x y : Bool) : maj3 true x y = (x || y) := by
  cases x <;> cases y <;> rfl

theorem Consistent.eval_zero {x : Nat → Bool} {val : Node → Bool} (consistent : net.Consistent x val)
    : Signal.zero.eval val = false := by
  simpa [Signal.eval, Signal.zero, Signal.node, Signal.isComplemented] using consistent.constant

theorem Consistent.eval_one {x : Nat → Bool} {val : Node → Bool} (consistent : net.Consistent x val)
    : Signal.one.eval val = true := by
  simpa [Signal.eval, Signal.one, Signal.node, Signal.isComplemented] using consistent.constant

/-- Conjunction is the majority with constant 0, so it is a canonical majority, and computes AND. -/
theorem WellFormed.createAnd_canonical (wf : net.WellFormed)
    (live : ∀ t ∈ [Signal.zero, a, b], net.Live t.node) (room : net.Room 1)
    : ∃ s net', Returns (createAnd a b) net s net' ∧ CanonicalMajority net Signal.zero a b s net' ∧
        ∀ x val, net'.Consistent x val → s.eval val = (a.eval val && b.eval val) := by
  obtain ⟨s, net', run, canonical⟩ := wf.createMaj_canonical live room
  refine ⟨s, net', run, canonical, fun x val consistent => ?_⟩
  rw [canonical.value x val consistent, consistent.eval_zero, maj3_false_left]

/-- Disjunction is the majority with constant 1, so it is a canonical majority, and computes OR. -/
theorem WellFormed.createOr_canonical (wf : net.WellFormed)
    (live : ∀ t ∈ [Signal.one, a, b], net.Live t.node) (room : net.Room 1)
    : ∃ s net', Returns (createOr a b) net s net' ∧ CanonicalMajority net Signal.one a b s net' ∧
        ∀ x val, net'.Consistent x val → s.eval val = (a.eval val || b.eval val) := by
  obtain ⟨s, net', run, canonical⟩ := wf.createMaj_canonical live room
  refine ⟨s, net', run, canonical, fun x val consistent => ?_⟩
  rw [canonical.value x val consistent, consistent.eval_one, maj3_true_left]

/-- A run of `createXor` is three runs of `createMaj`: `x = <0 a !b>`, `y = <0 !a b>` and
`<1 x y>`. -/
theorem createXor_steps (run : Returns (createXor a b) net s net')
    : ∃ x net₁ y net₂, Returns (createMaj Signal.zero a b.complement) net x net₁ ∧
        Returns (createMaj Signal.zero a.complement b) net₁ y net₂ ∧
        Returns (createMaj Signal.one x y) net₂ s net' := by
  obtain ⟨x, net₁, first, rest⟩ := run.bind
  obtain ⟨y, net₂, second, third⟩ := rest.bind
  exact ⟨x, net₁, y, net₂, first, second, third⟩

/-- Three runs of `createMaj` in a row are a run of `createXor`. -/
theorem returns_createXor {x y : Signal} {net₁ net₂ : Network}
    (first : Returns (createMaj Signal.zero a b.complement) net x net₁)
    (second : Returns (createMaj Signal.zero a.complement b) net₁ y net₂)
    (third : Returns (createMaj Signal.one x y) net₂ s net') : Returns (createXor a b) net s net' :=
  ((always_of_returns_createMaj first).bind ((always_of_returns_createMaj second).bind
    (always_of_returns_createMaj third))).returns

/-- A call of `createXor` has one outcome. -/
theorem createXor_unique {s₂ : Signal} {net₂ : Network} (run : Returns (createXor a b) net s net')
    (other : Returns (createXor a b) net s₂ net₂) : s₂ = s ∧ net₂ = net' := by
  obtain ⟨x, net₁, y, net₃, first, second, third⟩ := createXor_steps run
  obtain ⟨x', net₁', y', net₃', first', second', third'⟩ := createXor_steps other
  obtain ⟨rfl, rfl⟩ := createMaj_unique first first'
  obtain ⟨rfl, rfl⟩ := createMaj_unique second second'
  exact createMaj_unique third third'

/-- What a call `createXor a b` from `net` that returned `s` and left `net'` guarantees. -/
structure CanonicalXor (net : Network) (a b s : Signal) (net' : Network) : Prop where
  /-- The network stays well formed. -/
  wellFormed : net'.WellFormed
  /-- The signal is the exclusive or of the arguments. -/
  value : ∀ x val, net'.Consistent x val → s.eval val = (a.eval val ^^ b.eval val)
  /-- Repeated, in either order, the call returns the same signal and changes nothing. -/
  repeated : ∀ s₂ net₂, Returns (createXor a b) net' s₂ net₂ ↔ s₂ = s ∧ net₂ = net'
  swapped : ∀ s₂ net₂, Returns (createXor b a) net' s₂ net₂ ↔ s₂ = s ∧ net₂ = net'
  /-- At most three gates are made. -/
  size : net'.size ≤ net.size + 3
  numGates : net'.numGates ≤ net.numGates + 3
  /-- The nodes that were there keep their fan-ins and their values. -/
  keepsFanins : ∀ n : Node, n.id < net.size → net'.gateFanins n = net.gateFanins n
  keepsValues : ∀ x val, net'.Consistent x val → net.Consistent x val
  extendsValues : ∀ x val, net.Consistent x val →
    ∃ val', net'.Consistent x val' ∧ ∀ n : Node, n.id < net.size → val' n = val n

/-- Three signals are live when each is. -/
theorem live_three {net : Network} {u v w : Signal} (lu : net.Live u.node) (lv : net.Live v.node)
    (lw : net.Live w.node) : ∀ t ∈ [u, v, w], net.Live t.node := by
  intro t member
  simp only [List.mem_cons, List.not_mem_nil, or_false] at member
  rcases member with rfl | rfl | rfl <;> assumption

/-- `createXor` over live nodes of a well-formed network with room for three more nodes returns;
it computes XOR with at most three gates, and a repeated call in either order changes nothing. -/
theorem WellFormed.createXor_canonical (wf : net.WellFormed)
    (live : ∀ t ∈ [Signal.zero, a, b], net.Live t.node) (room : net.Room 3)
    : ∃ s net', Returns (createXor a b) net s net' ∧ CanonicalXor net a b s net' := by
  have zero := live Signal.zero (by simp)
  have aLive := live a (by simp)
  have bLive := live b (by simp)
  -- the three majorities, each over live nodes of the network the one before leaves
  have live₁ := live_three zero aLive (by simpa using bLive : net.Live b.complement.node)
  obtain ⟨x, net₁, first⟩ := wf.createMaj_returns live₁ (room.mono (by decide))
  obtain ⟨wf₁, grows₁, xLive⟩ := wf.createMaj live₁ first
  have room₁ := wf.sound.room_createMaj (fun t member => wf.lt_size_of_live (live₁ t member)) room
    first
  have live₂ := live_three (grows₁.live _ zero) (by simpa using grows₁.live _ aLive : net₁.Live a.complement.node)
    (grows₁.live _ bLive)
  obtain ⟨y, net₂, second⟩ := wf₁.createMaj_returns live₂ (room₁.mono (by decide))
  obtain ⟨wf₂, grows₂, yLive⟩ := wf₁.createMaj live₂ second
  have room₂ := wf₁.sound.room_createMaj (fun t member => wf₁.lt_size_of_live (live₂ t member))
    room₁ second
  have live₃ := live_three (grows₂.live _ (grows₁.live _ zero) : net₂.Live Signal.one.node)
    (grows₂.live _ xLive) yLive
  obtain ⟨s, net₃, third⟩ := wf₂.createMaj_returns live₃ room₂
  obtain ⟨wf₃, grows₃, -⟩ := wf₂.createMaj live₃ third
  obtain ⟨size₁, gates₁, -⟩ := wf.createMaj_frame live₁ first
  obtain ⟨size₂, gates₂, -⟩ := wf₁.createMaj_frame live₂ second
  obtain ⟨size₃, gates₃, -⟩ := wf₂.createMaj_frame live₃ third
  have grows := (grows₁.trans grows₂).trans grows₃
  -- the same three majorities, asked again from the last network, are answered by the table
  have first' := wf.createMaj_later live₁ first wf₃ (grows₂.trans grows₃)
  have second' := wf₁.createMaj_later live₂ second wf₃ grows₃
  have third' := wf₂.createMaj_later live₃ third wf₃ (Grows.refl net₃)
  have again := returns_createXor first' second' third'
  have swapped := returns_createXor
    ((returns_createMaj_perm (List.Perm.cons _ (List.Perm.swap _ _ _))).mpr second')
    ((returns_createMaj_perm (List.Perm.cons _ (List.Perm.swap _ _ _))).mpr first')
    ((returns_createMaj_perm (List.Perm.cons _ (List.Perm.swap _ _ _))).mpr third')
  refine ⟨s, net₃, returns_createXor first second third,
    { wellFormed := wf₃
      value := fun x val consistent => ?_
      repeated := fun s₂ net₂ => ⟨fun other => createXor_unique again other, by rintro ⟨rfl, rfl⟩; exact again⟩
      swapped := fun s₂ net₂ => ⟨fun other => createXor_unique swapped other, by rintro ⟨rfl, rfl⟩; exact swapped⟩
      size := by omega
      numGates := by omega
      keepsFanins := grows.gates
      keepsValues := fun x val consistent => grows.consistent consistent
      extendsValues := fun x val consistent => ?_ }⟩
  · -- `x` and `y` are read in the networks they were made in
    have consistent₂ := grows₃.consistent consistent
    have consistent₁ := grows₂.consistent consistent₂
    rw [wf₂.eval_createMaj live₃ third consistent, consistent.eval_one, maj3_true_left,
      wf.eval_createMaj live₁ first consistent₁, consistent₁.eval_zero, maj3_false_left,
      wf₁.eval_createMaj live₂ second consistent₂, consistent₂.eval_zero, maj3_false_left,
      Signal.eval_complement, Signal.eval_complement]
    cases a.eval val <;> cases b.eval val <;> rfl
  · obtain ⟨val₁, follows₁, -⟩ := wf.sound.follows_createMaj
      (fun t member => wf.lt_size_of_live (live₁ t member)) first consistent
    obtain ⟨val₂, follows₂, -⟩ := wf₁.sound.follows_createMaj
      (fun t member => wf₁.lt_size_of_live (live₂ t member)) second follows₁.consistent
    obtain ⟨val₃, follows₃, -⟩ := wf₂.sound.follows_createMaj
      (fun t member => wf₂.lt_size_of_live (live₃ t member)) third follows₂.consistent
    exact ⟨val₃, follows₃.consistent, (follows₁.trans (follows₂.trans follows₃)).agree⟩

/-- Majorities are canonical and hash-consed. `createMaj` over live nodes of a well-formed network
with room for three more nodes returns, and its run is a canonical majority. With the constant
live, conjunction and disjunction are canonical majorities with a constant fan-in, computing AND
and OR, and exclusive or, built of three majorities, computes XOR with at most three gates. -/
theorem WellFormed.majorities_canonical (wf : net.WellFormed)
    (live : ∀ t ∈ [a, b, c], net.Live t.node) (room : net.Room 3)
    : (∃ s net', Returns (Network.createMaj a b c) net s net' ∧ CanonicalMajority net a b c s net') ∧
      (net.Live Node.constant →
        (∃ s net', Returns (createAnd a b) net s net' ∧ CanonicalMajority net Signal.zero a b s net' ∧
          ∀ x val, net'.Consistent x val → s.eval val = (a.eval val && b.eval val)) ∧
        (∃ s net', Returns (createOr a b) net s net' ∧ CanonicalMajority net Signal.one a b s net' ∧
          ∀ x val, net'.Consistent x val → s.eval val = (a.eval val || b.eval val)) ∧
        ∃ s net', Returns (createXor a b) net s net' ∧ CanonicalXor net a b s net') := by
  have room₁ : net.Room 1 := room.mono (by decide)
  refine ⟨wf.createMaj_canonical live room₁, fun constant => ?_⟩
  have aLive := live a (by simp)
  have bLive := live b (by simp)
  exact ⟨wf.createAnd_canonical (live_three constant aLive bLive) room₁,
    wf.createOr_canonical (live_three constant aLive bLive) room₁,
    wf.createXor_canonical (live_three constant aLive bLive) room⟩

/-- The majority of two inputs and the constant, and the derived gates of the two inputs, in
the network of two inputs. -/
theorem majorities_canonical_over_two_inputs :
    (Network.empty.addInput.2.addInput.2).WellFormed ∧
      (∀ t ∈ [Signal.make ⟨1⟩ false, Signal.make ⟨2⟩ false, Signal.zero],
        (Network.empty.addInput.2.addInput.2).Live t.node) ∧
      (Network.empty.addInput.2.addInput.2).Room 3 ∧
      ((∃ s net', Returns (Network.createMaj (Signal.make ⟨1⟩ false) (Signal.make ⟨2⟩ false)
            Signal.zero) Network.empty.addInput.2.addInput.2 s net' ∧
          CanonicalMajority Network.empty.addInput.2.addInput.2 (Signal.make ⟨1⟩ false)
            (Signal.make ⟨2⟩ false) Signal.zero s net') ∧
        ((Network.empty.addInput.2.addInput.2).Live Node.constant →
          (∃ s net', Returns (createAnd (Signal.make ⟨1⟩ false) (Signal.make ⟨2⟩ false))
              Network.empty.addInput.2.addInput.2 s net' ∧
            CanonicalMajority Network.empty.addInput.2.addInput.2 Signal.zero (Signal.make ⟨1⟩ false)
              (Signal.make ⟨2⟩ false) s net' ∧
            ∀ x val, net'.Consistent x val →
              s.eval val = ((Signal.make ⟨1⟩ false).eval val && (Signal.make ⟨2⟩ false).eval val)) ∧
          (∃ s net', Returns (createOr (Signal.make ⟨1⟩ false) (Signal.make ⟨2⟩ false))
              Network.empty.addInput.2.addInput.2 s net' ∧
            CanonicalMajority Network.empty.addInput.2.addInput.2 Signal.one (Signal.make ⟨1⟩ false)
              (Signal.make ⟨2⟩ false) s net' ∧
            ∀ x val, net'.Consistent x val →
              s.eval val = ((Signal.make ⟨1⟩ false).eval val || (Signal.make ⟨2⟩ false).eval val)) ∧
          ∃ s net', Returns (createXor (Signal.make ⟨1⟩ false) (Signal.make ⟨2⟩ false))
              Network.empty.addInput.2.addInput.2 s net' ∧
            CanonicalXor Network.empty.addInput.2.addInput.2 (Signal.make ⟨1⟩ false)
              (Signal.make ⟨2⟩ false) s net')) := by
  have wf := wellFormed_twoInputs
  have live : ∀ t ∈ [Signal.make ⟨1⟩ false, Signal.make ⟨2⟩ false, Signal.zero],
      (Network.empty.addInput.2.addInput.2).Live t.node :=
    live_three ⟨_, rfl, rfl⟩ ⟨_, rfl, rfl⟩ ⟨_, rfl, rfl⟩
  have room := room_twoInputs (k := 3) (by decide)
  exact ⟨wf, live, room, WellFormed.majorities_canonical wf live room⟩

/-- Exclusive or of the two inputs of a network without gates makes three gates, `<0 a !b>`,
`<0 !a b>` and their disjunction, where a majority makes at most one. -/
theorem createXor_makes_three_gates :
    ∃ s net', Returns (createXor (Signal.make ⟨1⟩ false) (Signal.make ⟨2⟩ false))
      Network.empty.addInput.2.addInput.2 s net' ∧ net'.numGates = 3 := by
  have wf := wellFormed_twoInputs
  have noGates := gateFanins_twoInputs
  have live : ∀ t ∈ [Signal.zero, Signal.make ⟨1⟩ false, Signal.make ⟨2⟩ false],
      (Network.empty.addInput.2.addInput.2).Live t.node :=
    live_three ⟨_, rfl, rfl⟩ ⟨_, rfl, rfl⟩ ⟨_, rfl, rfl⟩
  obtain ⟨s, net', run, -⟩ := wf.createXor_canonical live (room_twoInputs (by decide))
  refine ⟨s, net', run, ?_⟩
  obtain ⟨x, net₁, y, net₂, first, second, third⟩ := createXor_steps run
  -- `<0 a !b>` is new
  have live₁ : ∀ t ∈ [Signal.zero, Signal.make ⟨1⟩ false, (Signal.make ⟨2⟩ false).complement],
      (Network.empty.addInput.2.addInput.2).Live t.node :=
    live_three ⟨_, rfl, rfl⟩ ⟨_, rfl, rfl⟩ ⟨_, rfl, rfl⟩
  have gate₁ : Fanins.normalize ⟨Signal.zero, Signal.make ⟨1⟩ false,
      (Signal.make ⟨2⟩ false).complement⟩ = .gate ⟨⟨0⟩, ⟨2⟩, ⟨5⟩⟩ false := by decide
  obtain ⟨adds₁, rfl⟩ := wf.createMaj_creates live₁ first gate₁ (fun g => by simp [noGates])
  obtain ⟨wf₁, grows₁, -⟩ := wf.createMaj live₁ first
  -- `<0 !a b>` differs from it
  have live₂ : ∀ t ∈ [Signal.zero, (Signal.make ⟨1⟩ false).complement, Signal.make ⟨2⟩ false],
      net₁.Live t.node :=
    live_three (grows₁.live _ ⟨_, rfl, rfl⟩) (grows₁.live _ ⟨_, rfl, rfl⟩) (grows₁.live _ ⟨_, rfl, rfl⟩)
  have gate₂ : Fanins.normalize ⟨Signal.zero, (Signal.make ⟨1⟩ false).complement,
      Signal.make ⟨2⟩ false⟩ = .gate ⟨⟨0⟩, ⟨3⟩, ⟨4⟩⟩ false := by decide
  obtain ⟨adds₂, rfl⟩ := wf₁.createMaj_creates live₂ second gate₂
    (fun g => by rw [adds₁.gateFanins]; split <;> simp [noGates])
  obtain ⟨wf₂, grows₂, -⟩ := wf₁.createMaj live₂ second
  -- and their disjunction is new as well
  have size₁ : net₁.size = 4 := adds₁.size
  have live₃ : ∀ t ∈ [Signal.one, Signal.make ⟨Network.empty.addInput.2.addInput.2.size⟩ false,
      Signal.make ⟨net₁.size⟩ false], net₂.Live t.node :=
    live_three (grows₂.live _ (grows₁.live _ ⟨_, rfl, rfl⟩))
      (grows₂.live _ ((adds₁.live _).mpr (.inr (by simp)))) ((adds₂.live _).mpr (.inr (by simp)))
  have gate₃ : Fanins.normalize ⟨Signal.one, Signal.make ⟨Network.empty.addInput.2.addInput.2.size⟩ false,
      Signal.make ⟨net₁.size⟩ false⟩ = .gate ⟨⟨1⟩, ⟨6⟩, ⟨8⟩⟩ false := by
    rw [size₁]
    decide
  obtain ⟨adds₃, -⟩ := wf₂.createMaj_creates live₃ third gate₃
    (fun g => by
      rw [adds₂.gateFanins, adds₁.gateFanins]
      split
      · simp
      · split <;> simp [noGates])
  rw [adds₃.numGates, adds₂.numGates, adds₁.numGates]
  rfl

-----------------------------------------------------------------------------------------
-- A network with a redundant gate
-----------------------------------------------------------------------------------------

/-- The gates `a ∧ b` (node 3) and `a ∨ b` (node 4) over inputs `a` and `b` (nodes 1 and 2), from
which the later examples start. -/
theorem andOr_gates :
    ∃ net₃ net₄,
      Returns (createAnd (Signal.make ⟨1⟩ false) (Signal.make ⟨2⟩ false))
        (Network.empty.addInput.2.addInput.2) (Signal.make ⟨3⟩ false) net₃ ∧
      Returns (createOr (Signal.make ⟨1⟩ false) (Signal.make ⟨2⟩ false)) net₃
        (Signal.make ⟨4⟩ false) net₄ ∧
      net₄.WellFormed ∧ Grows Network.empty.addInput.2.addInput.2 net₄ ∧
      net₄.gateFanins ⟨3⟩ = some ⟨⟨0⟩, ⟨2⟩, ⟨4⟩⟩ ∧ net₄.gateFanins ⟨4⟩ = some ⟨⟨1⟩, ⟨2⟩, ⟨4⟩⟩ ∧
      (∀ g : Node, g.id < 3 ∨ 4 < g.id → net₄.gateFanins g = none) ∧
      net₄.outputs = #[] ∧ net₄.inputs = #[⟨1⟩, ⟨2⟩] ∧ net₄.size = 5 ∧ net₄.numGates = 2 ∧
      net₄.Room 3 := by
  have wf₂ := wellFormed_twoInputs
  -- `a ∧ b` is node 3
  have live₃ : ∀ t ∈ [Signal.zero, Signal.make ⟨1⟩ false, Signal.make ⟨2⟩ false],
      (Network.empty.addInput.2.addInput.2).Live t.node :=
    live_three ⟨_, rfl, rfl⟩ ⟨_, rfl, rfl⟩ ⟨_, rfl, rfl⟩
  obtain ⟨s₃, net₃, run₃, wf₃, grows₃, made₃, room₃⟩ :=
    wf₂.createMaj_step live₃ (room_twoInputs (k := 5) (by decide))
  have gate₃ : Fanins.normalize ⟨Signal.zero, Signal.make ⟨1⟩ false, Signal.make ⟨2⟩ false⟩ =
      .gate ⟨⟨0⟩, ⟨2⟩, ⟨4⟩⟩ false := by decide
  obtain ⟨adds₃, rfl⟩ := wf₂.createMaj_creates live₃ run₃ gate₃
    (fun g => by simp [gateFanins_twoInputs])
  -- `a ∨ b` is node 4
  have live₄ : ∀ t ∈ [Signal.one, Signal.make ⟨1⟩ false, Signal.make ⟨2⟩ false], net₃.Live t.node :=
    live_three (grows₃.live _ ⟨_, rfl, rfl⟩) (grows₃.live _ ⟨_, rfl, rfl⟩) (grows₃.live _ ⟨_, rfl, rfl⟩)
  obtain ⟨s₄, net₄, run₄, wf₄, grows₄, made₄, room₄⟩ := wf₃.createMaj_step live₄ room₃
  have gate₄ : Fanins.normalize ⟨Signal.one, Signal.make ⟨1⟩ false, Signal.make ⟨2⟩ false⟩ =
      .gate ⟨⟨1⟩, ⟨2⟩, ⟨4⟩⟩ false := by decide
  obtain ⟨adds₄, rfl⟩ := wf₃.createMaj_creates live₄ run₄ gate₄
    (fun g => by rw [adds₃.gateFanins]; split <;> simp [gateFanins_twoInputs])
  have size₃ : net₃.size = 4 := adds₃.size
  rw [size₃] at run₄
  refine ⟨net₃, net₄, run₃, run₄, wf₄, grows₃.trans grows₄, ?_, ?_, fun g far => ?_, ?_, ?_,
    ?_, ?_, room₄⟩
  · rw [adds₄.gateFanins, adds₃.gateFanins, size₃]
    rfl
  · rw [adds₄.gateFanins, size₃]
    rfl
  · rw [adds₄.gateFanins, adds₃.gateFanins, size₃,
      show (Network.empty.addInput.2.addInput.2).size = 3 from rfl, if_neg (by omega),
      if_neg (by omega), gateFanins_twoInputs]
  · rw [adds₄.outputs, adds₃.outputs]
    rfl
  · rw [adds₄.inputs, adds₃.inputs]
    rfl
  · show net₄.table.cells.size = 5
    rw [adds₄.size, size₃]
  · rw [adds₄.numGates, adds₃.numGates]
    rfl

/-- The network the later examples run on: inputs `a` and `b` (nodes 1 and 2), the gates
`a ∧ b` (node 3), `a ∨ b` (node 4) and `(a ∧ b) ∧ (a ∨ b)` (node 5), and an output on node 5.
Node 5 computes what node 3 does, and no gate uses it. -/
theorem andOr_network :
    ∃ net₃ net₄ net₅ net,
      Returns (createAnd (Signal.make ⟨1⟩ false) (Signal.make ⟨2⟩ false))
        (Network.empty.addInput.2.addInput.2) (Signal.make ⟨3⟩ false) net₃ ∧
      Returns (createOr (Signal.make ⟨1⟩ false) (Signal.make ⟨2⟩ false)) net₃
        (Signal.make ⟨4⟩ false) net₄ ∧
      Returns (createAnd (Signal.make ⟨3⟩ false) (Signal.make ⟨4⟩ false)) net₄
        (Signal.make ⟨5⟩ false) net₅ ∧
      net₅.createPo (Signal.make ⟨5⟩ false) = .ok (0, net) ∧ net.WellFormed ∧
      net.gateFanins ⟨3⟩ = some ⟨⟨0⟩, ⟨2⟩, ⟨4⟩⟩ ∧ net.gateFanins ⟨4⟩ = some ⟨⟨1⟩, ⟨2⟩, ⟨4⟩⟩ ∧
      net.gateFanins ⟨5⟩ = some ⟨⟨0⟩, ⟨6⟩, ⟨8⟩⟩ ∧
      (∀ g : Node, g.id < 3 ∨ 5 < g.id → net.gateFanins g = none) ∧
      net.outputs = #[Signal.make ⟨5⟩ false] ∧ net.inputs = #[⟨1⟩, ⟨2⟩] ∧ net.size = 6 ∧
      net.numGates = 3 ∧ net.Room 1 := by
  obtain ⟨net₃, net₄, run₃, run₄, wf₄, grows₄, gate₃, gate₄, others, outputs₄, inputs₄, size₄,
    numGates₄, room₄⟩ := andOr_gates
  -- their conjunction is node 5
  have live₅ : ∀ t ∈ [Signal.zero, Signal.make ⟨3⟩ false, Signal.make ⟨4⟩ false], net₄.Live t.node :=
    live_three (grows₄.live _ ⟨_, rfl, rfl⟩) (live_of_gateFanins gate₃) (live_of_gateFanins gate₄)
  obtain ⟨s₅, net₅, run₅, wf₅, -, made₅, room₅⟩ := wf₄.createMaj_step live₅ room₄
  have gate₅ : Fanins.normalize ⟨Signal.zero, Signal.make ⟨3⟩ false, Signal.make ⟨4⟩ false⟩ =
      .gate ⟨⟨0⟩, ⟨6⟩, ⟨8⟩⟩ false := by decide
  obtain ⟨adds₅, rfl⟩ := wf₄.createMaj_creates live₅ run₅ gate₅ fun g => by
    by_cases far : g.id < 3 ∨ 4 < g.id
    · simp [others g far]
    obtain rfl | rfl : g = ⟨3⟩ ∨ g = ⟨4⟩ := by
      obtain ⟨i⟩ := g
      dsimp only at far
      simp only [Node.mk.injEq]
      omega
    · simp [gate₃]
    · simp [gate₄]
  rw [size₄] at run₅ made₅
  -- and the output on it adds one use
  obtain ⟨net, created, wf⟩ :=
    wf₅.createPo (f := Signal.make ⟨5⟩ false) made₅ fun r uses => room₅.fanout_lt _ uses
  have noOutputs : net₅.outputs.size = 0 := by
    rw [adds₅.outputs, outputs₄]
    rfl
  rw [noOutputs] at created
  obtain ⟨r, -, -, -, same⟩ := createPo_eq_ok_iff.mp created
  have gates : ∀ g, net.gateFanins g = net₅.gateFanins g :=
    gateFanins_of_modify (i := (Signal.make ⟨5⟩ false).node.id)
      (g := fun r => { r with fanout := r.fanout + 1 }) (by rw [same]) (by rw [same]) fun _ => rfl
  refine ⟨net₃, net₄, net₅, net, run₃, run₄, run₅, created, wf, ?_, ?_, ?_, fun g far => ?_, ?_, ?_,
    ?_, ?_, (room₅.mono (by decide)).createPo created⟩
  · rw [gates, adds₅.gateFanins, size₄, if_neg (by decide), gate₃]
  · rw [gates, adds₅.gateFanins, size₄, if_neg (by decide), gate₄]
  · rw [gates, adds₅.gateFanins, size₄]
    rfl
  · rw [gates, adds₅.gateFanins, size₄, if_neg (by omega), others g (by omega)]
  · rw [same, adds₅.outputs, outputs₄]
    rfl
  · rw [same, adds₅.inputs, inputs₄]
  · rw [same]
    show net₅.table.cells.size = 6
    rw [adds₅.size, size₄]
  · rw [same]
    show net₅.numGates = 3
    rw [adds₅.numGates, numGates₄]

end Network

end MajorityGraph
