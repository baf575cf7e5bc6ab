import Mathlib.Data.Set.Card
import MajorityGraph.Network.Cleanup
import MajorityGraph.Proofs.Network.HashConsing
import MajorityGraph.Proofs.Simulation.Values

/-!
Compaction rebuilds a well-formed network exactly, one new gate per kept gate
(`WellFormed.cleanupDangling_rebuilds`).
-/

namespace MajorityGraph

namespace Logged

variable {α β : Type}

/-- From every journal, the computation returns `a`. -/
def Yields (x : Logged α) (a : α) : Prop := ∀ j, ∃ j', x.runFrom j = (.ok a, j')

theorem yields_pure (a : α) : Yields (pure a) a := fun j => ⟨j, rfl⟩

theorem Yields.bind {x : Logged α} {f : α → Logged β} {a : α} {b : β} (first : Yields x a)
    (rest : Yields (f a) b) : Yields (x >>= f) b := by
  intro j
  obtain ⟨j₁, run₁⟩ := first j
  obtain ⟨j₂, run₂⟩ := rest j₁
  refine ⟨j₂, ?_⟩
  simp only [runFrom, ExceptT.run_bind, StateT.run_bind] at run₁ run₂ ⊢
  rw [run₁]
  exact run₂

theorem yields_orFail {x : Except Fault α} {a : α} (ok : x = .ok a) :
    Yields (orFail x : Logged α) a := by
  subst ok
  exact yields_pure a

theorem yields_logAt (l : Level) (msg : String) : Yields (logAt l msg) () := fun _ => ⟨_, rfl⟩

/-- A computation that returns from every journal returns one value. -/
theorem Yields.unique {x : Logged α} {a b : α} (first : Yields x a) (second : Yields x b) :
    a = b := by
  obtain ⟨j₁, run₁⟩ := first (Journal.start none)
  obtain ⟨j₂, run₂⟩ := second (Journal.start none)
  rw [run₁, Prod.mk.injEq, Except.ok.injEq] at run₂
  exact run₂.1

theorem exists_bind {x : Logged α} {f : α → Logged β} {P : α → Prop} {R : β → Prop}
    (first : ∃ a, Yields x a ∧ P a) (rest : ∀ a, P a → ∃ b, Yields (f a) b ∧ R b) :
    ∃ b, Yields (x >>= f) b ∧ R b := by
  obtain ⟨a, ya, pa⟩ := first
  obtain ⟨b, yb, rb⟩ := rest a pa
  exact ⟨b, ya.bind yb, rb⟩

/-- A run of network work that returns from every journal is a logged computation that does. -/
theorem yields_run {x : NetM α} {net net' : Network} {a : α} (always : NetM.Always x net a net') :
    Yields (x.run net) (a, net') :=
  always

/-- A loop over a list whose every pass goes on and keeps a property indexed by the position
returns from every journal, with the property at the end. -/
theorem yields_forIn {l : List α} {init : β} {body : α → β → Logged (ForInStep β)}
    {R : β → Prop} (inv : Nat → β → Prop)
    (step : ∀ i (lt : i < l.length) b, inv i b → ∃ b', Yields (body l[i] b) (.yield b') ∧ inv (i + 1) b')
    (start : inv 0 init) (final : ∀ b, inv l.length b → R b) :
    ∃ b, Yields (forIn l init body) b ∧ R b := by
  induction l generalizing init inv with
  | nil => exact ⟨init, yields_pure init, final init start⟩
  | cons a rest ih =>
    obtain ⟨b, first, kept⟩ := step 0 (by simp) init start
    obtain ⟨b', loop, holds⟩ := ih (fun i => inv (i + 1))
      (fun i lt c => step (i + 1) (by simp; omega) c) kept (fun c => final c)
    refine ⟨b', ?_, holds⟩
    rw [List.forIn_cons]
    exact first.bind loop

end Logged

namespace Fanins

theorem eq_sort_of_normal {f : Fanins} (normal : f.normalize = .gate f false) : f.sort = f := by
  obtain ⟨-, -, shape, -⟩ := normalize_eq_gate normal
  simpa using shape.symm

theorem not_many_complements {f : Fanins} (normal : f.normalize = .gate f false) :
    ¬ 2 ≤ f.complementCount := by
  obtain ⟨-, -, -, flag⟩ := normalize_eq_gate normal
  rw [eq_sort_of_normal normal] at flag
  simpa using flag

theorem complementCount_of_perm {f g : Fanins} (perm : f.toList.Perm g.toList) :
    f.complementCount = g.complementCount :=
  (perm.filter _).length_eq

@[simp] theorem complementCount_map_rename (ρ : Node → Node) (f : Fanins) :
    (f.map (Signal.rename ρ)).complementCount = f.complementCount := by
  simp only [complementCount, toList_map, List.filter_map, List.length_map]
  congr 1
  exact List.filter_congr fun s _ => by simp

theorem nodes_map_rename (ρ : Node → Node) (f : Fanins) :
    (f.map (Signal.rename ρ)).toList.map Signal.node = (f.toList.map Signal.node).map ρ := by
  simp [map, toList]

/-- A normal form whose nodes are renamed injectively normalizes to its sorted renaming, with no
complement. -/
theorem normalize_map_rename {f : Fanins} (normal : f.normalize = .gate f false) {ρ : Node → Node}
    (inj : ∀ n ∈ f.toList.map Signal.node, ∀ n' ∈ f.toList.map Signal.node, ρ n = ρ n' → n = n') :
    (f.map (Signal.rename ρ)).normalize = .gate (f.map (Signal.rename ρ)).sort false := by
  have distinct : ((f.map (Signal.rename ρ)).toList.map Signal.node).Nodup := by
    rw [nodes_map_rename]
    exact (nodes_nodup_of_normalize normal).map_on inj
  cases gate : (f.map (Signal.rename ρ)).normalize with
  | trivial t => exact absurd distinct (normalize_trivial_iff.mp ⟨t, gate⟩)
  | gate g c =>
    obtain ⟨-, -, shape, flag⟩ := normalize_eq_gate gate
    have few : ¬ 2 ≤ (f.map (Signal.rename ρ)).sort.complementCount := by
      rw [complementCount_of_perm (sort_perm _), complementCount_map_rename]
      exact not_many_complements normal
    cases c with
    | false => simpa using shape
    | true => exact absurd (flag.mp rfl) few

end Fanins

theorem Signal.xor_make_false (n : Node) (c : Bool) : (Signal.make n false).xor c = Signal.make n c := by
  cases c <;> simp [Signal.xor]

namespace Network

open NetM Simulation

theorem Reaches.trans {net : Network} {a b c : Node} (first : net.Reaches a b)
    (second : net.Reaches b c) : net.Reaches a c := by
  induction first with
  | refl => exact second
  | fanin gate member _ ih => exact .fanin gate member (ih second)

-----------------------------------------------------------------------------------------
-- The kept nodes and their new numbers
-----------------------------------------------------------------------------------------

section Renumbering

variable (net : Network) (order : Array Node)

/-- The nodes that the rebuild keeps, in the order it creates them. -/
def keptNodes : List Node := Node.constant :: (net.inputs.toList ++ order.toList)

/-- The node that the rebuild creates for a kept node: the one numbered by its position. -/
def renumber (n : Node) : Node := ⟨(keptNodes net order).idxOf n⟩

/-- The kept node that the rebuild numbered `n'`. -/
def original (n' : Node) : Node := (keptNodes net order).getD n'.id Node.constant

theorem length_keptNodes : (keptNodes net order).length = 1 + net.inputs.size + order.size := by
  simp [keptNodes]
  omega

theorem keptNodes_zero : (keptNodes net order)[0]? = some Node.constant := rfl

theorem keptNodes_input {i : Nat} (lt : i < net.inputs.size) :
    (keptNodes net order)[1 + i]? = net.inputs[i]? := by
  rw [Nat.add_comm, keptNodes, List.getElem?_cons_succ, List.getElem?_append_left (by simpa using lt)]
  simp

theorem keptNodes_gate (j : Nat) :
    (keptNodes net order)[1 + net.inputs.size + j]? = order[j]? := by
  rw [show 1 + net.inputs.size + j = (net.inputs.size + j) + 1 by omega, keptNodes,
    List.getElem?_cons_succ, List.getElem?_append_right (by simp)]
  simp

variable {net order}

theorem mem_keptNodes {n : Node} :
    n ∈ keptNodes net order ↔ n = Node.constant ∨ n ∈ net.inputs ∨ n ∈ order.toList := by
  simp [keptNodes]

theorem original_renumber {n : Node} (kept : n ∈ keptNodes net order) :
    original net order (renumber net order n) = n := by
  simp [original, renumber, List.getD_eq_getElem?_getD, List.getElem?_idxOf kept]

theorem map_rename_original {l : List Signal} (kept : ∀ s ∈ l, s.node ∈ keptNodes net order) :
    (l.map (Signal.rename (renumber net order))).map (Signal.rename (original net order)) = l := by
  rw [List.map_map]
  conv_rhs => rw [← List.map_id l]
  exact List.map_congr_left fun s member => by
    simp [Signal.rename, original_renumber (kept s member), Signal.make_node_isComplemented]

theorem renumber_inj {n n' : Node} (kept : n ∈ keptNodes net order)
    (kept' : n' ∈ keptNodes net order) (same : renumber net order n = renumber net order n') :
    n = n' := by
  rw [← original_renumber kept, same, original_renumber kept']

variable (nodup : (keptNodes net order).Nodup)
include nodup

theorem renumber_of_getElem? {k : Nat} {n : Node} (kept : (keptNodes net order)[k]? = some n) :
    renumber net order n = ⟨k⟩ := by
  obtain ⟨lt, rfl⟩ := List.getElem?_eq_some_iff.mp kept
  simpa [renumber] using List.get_idxOf nodup ⟨k, lt⟩

theorem getElem?_keptNodes_inj {k k' : Nat} {n : Node} (first : (keptNodes net order)[k]? = some n)
    (second : (keptNodes net order)[k']? = some n) : k = k' :=
  index_eq_of_nodup nodup first second

end Renumbering

-----------------------------------------------------------------------------------------
-- The order of the rebuild
-----------------------------------------------------------------------------------------

/-- A live gate that an output reaches. -/
def ReachedGate (net : Network) (g : Node) : Prop :=
  (net.gateFanins g).isSome ∧ ∃ s ∈ net.outputs, net.Reaches s.node g

/-- An order of the live gates that the outputs reach, each once and after its gate fan-ins. -/
structure ReachOrder (net : Network) (order : Array Node) : Prop where
  topological : Topological net net.Live order.toList
  listed : ∀ m, m ∈ order.toList ↔ net.ReachedGate m

/-- A kept gate is one of the order. -/
theorem Coherent.mem_order_of_kept {net : Network} {order : Array Node} (coherent : net.Coherent)
    {g : Node} {f : Fanins} (kept : g ∈ keptNodes net order) (gate : net.gateFanins g = some f) :
    g ∈ order.toList := by
  rcases mem_keptNodes.mp kept with rfl | input | inOrder
  · simp [coherent.gateFanins_constant] at gate
  · simp [coherent.gateFanins_input input] at gate
  · exact inOrder

section Kept

variable {net : Network} {order : Array Node} (reach : ReachOrder net order)
  (coherent : net.Coherent)
include reach coherent

theorem ReachOrder.keptNodes_nodup : (keptNodes net order).Nodup := by
  have gates : ∀ n ∈ order.toList, (net.gateFanins n).isSome :=
    fun n member => ((reach.listed n).mp member).1
  refine List.nodup_cons.mpr ⟨fun member => ?_, List.nodup_append.mpr
    ⟨coherent.inputsNodup, reach.topological.nodup, fun a input b gate same => ?_⟩⟩
  · rcases List.mem_append.mp member with input | gate
    · exact coherent.constant_not_input (Array.mem_toList_iff.mp input)
    · simpa [coherent.gateFanins_constant] using gates _ gate
  · subst same
    simpa [coherent.gateFanins_input (Array.mem_toList_iff.mp input)] using gates _ gate

/-- The kept nodes are distinct nodes of the network, so there are no more of them than nodes. -/
theorem ReachOrder.length_keptNodes_le : (keptNodes net order).length ≤ net.size :=
  length_le_of_ids_lt (reach.keptNodes_nodup coherent) fun n kept => by
    rcases mem_keptNodes.mp kept with rfl | input | inOrder
    · exact lt_size_of_valueAt coherent.constant
    · exact lt_size_of_valueAt ((coherent.inputs n).mp input)
    · obtain ⟨f, gate⟩ := Option.isSome_iff_exists.mp ((reach.listed n).mp inOrder).1
      exact lt_size_of_gateFanins gate

/-- The fan-ins of a kept gate are kept. -/
theorem ReachOrder.fanin_kept {g : Node} {f : Fanins} (kept : g ∈ keptNodes net order)
    (gate : net.gateFanins g = some f) {s : Signal} (member : s ∈ f.toList) :
    s.node ∈ keptNodes net order := by
  obtain ⟨-, out, output, path⟩ := (reach.listed g).mp (coherent.mem_order_of_kept kept gate)
  rcases coherent.live_cases (coherent.faninsLive g f gate s member) with constant | input | isGate
  · exact mem_keptNodes.mpr (.inl constant)
  · exact mem_keptNodes.mpr (.inr (.inl input))
  · exact mem_keptNodes.mpr (.inr (.inr ((reach.listed _).mpr
      ⟨isGate, out, output, path.trans (.fanin gate member (.refl _))⟩)))

/-- The nodes of the outputs are kept. -/
theorem ReachOrder.output_kept {s : Signal} (output : s ∈ net.outputs) :
    s.node ∈ keptNodes net order := by
  rcases coherent.live_cases (coherent.outputsLive s output) with constant | input | isGate
  · exact mem_keptNodes.mpr (.inl constant)
  · exact mem_keptNodes.mpr (.inr (.inl input))
  · exact mem_keptNodes.mpr (.inr (.inr ((reach.listed _).mpr ⟨isGate, s, output, .refl _⟩)))

/-- The fan-ins of the `j`-th gate of the order are kept before it. -/
theorem ReachOrder.fanin_before {j : Nat} {g : Node} (at_j : order[j]? = some g) {f : Fanins}
    (gate : net.gateFanins g = some f) {s : Signal} (member : s ∈ f.toList) :
    ∃ q < 1 + net.inputs.size + j, (keptNodes net order)[q]? = some s.node := by
  rcases coherent.live_cases (coherent.faninsLive g f gate s member) with constant | input | isGate
  · exact ⟨0, by omega, by rw [constant]; rfl⟩
  · obtain ⟨i, lt, same⟩ := Array.mem_iff_getElem.mp input
    refine ⟨1 + i, by omega, ?_⟩
    rw [keptNodes_input net order lt, Array.getElem?_eq_getElem lt, same]
  · obtain ⟨lt, rfl⟩ := Array.getElem?_eq_some_iff.mp at_j
    obtain ⟨j', before, atJ'⟩ :=
      coherent.fanin_earlier reach.topological (by simpa using lt) (by simpa using gate) member isGate
    refine ⟨1 + net.inputs.size + j', by omega, ?_⟩
    rw [keptNodes_gate]
    simpa using atJ'

end Kept

-----------------------------------------------------------------------------------------
-- Use counts
-----------------------------------------------------------------------------------------

/-- A node of a coherent network has no more parents than a list that holds each of them, read
through `σ`, at least as often as it uses the node, when `ρ` reads each entry back. -/
theorem Coherent.parents_size_le {net : Network} (coherent : net.Coherent) {x : Node}
    {r : NodeRefs} (uses : net.refs[x.id]? = some r) {l : List Node} (ρ σ : Node → Node)
    (covered : ∀ g', 0 < net.slots g' x → net.slots g' x ≤ l.count (σ g') ∧ ρ (σ g') = g') :
    r.parents.size ≤ l.length := by
  have sub : r.parents.toList.Subperm (l.map ρ) := by
    refine List.subperm_ext_iff.mpr fun g' member => ?_
    have counted : r.parents.toList.count g' = net.slots g' x := by
      rw [Array.count_toList]
      exact coherent.parents x r g' uses
    obtain ⟨le, back⟩ := covered g' (counted ▸ List.count_pos_iff.mpr member)
    calc r.parents.toList.count g' = net.slots g' x := counted
      _ ≤ l.count (σ g') := le
      _ ≤ (l.map ρ).count (ρ (σ g')) := List.count_le_count_map
      _ = (l.map ρ).count g' := by rw [back]
  simpa using sub.length_le

-----------------------------------------------------------------------------------------
-- The state of the rebuild
-----------------------------------------------------------------------------------------

/-- The rebuild after it created the first `p` kept nodes: the result holds them as its nodes
`0, …, p - 1`, all live, with the inputs among them as its inputs, each gate among them over its
renamed fan-ins in sorted order and no other gate, and no output yet; `map` sends each of them to
its new node, uncomplemented. -/
structure Rebuilt (net : Network) (order : Array Node) (p : Nat) (map : Std.HashMap Nat Signal)
    (result : Network) : Prop where
  wf : result.WellFormed
  size : result.size = p
  live : ∀ k < p, result.Live ⟨k⟩
  inputs : result.inputs.toList = (net.inputs.toList.take (p - 1)).map (renumber net order)
  outputs : result.outputs = #[]
  numGates : result.numGates = p - 1 - net.inputs.size
  gates : ∀ k < p, ∀ g f, (keptNodes net order)[k]? = some g → net.gateFanins g = some f →
    result.gateFanins ⟨k⟩ = some (f.map (Signal.rename (renumber net order))).sort
  onlyGates : ∀ k, (result.gateFanins ⟨k⟩).isSome →
    ∃ g, (keptNodes net order)[k]? = some g ∧ (net.gateFanins g).isSome
  map : ∀ k < p, ∀ n, (keptNodes net order)[k]? = some n →
    map[n.id]? = some (Signal.make ⟨k⟩ false)

section Steps

variable {net : Network} {order : Array Node} {p : Nat} {map : Std.HashMap Nat Signal}
  {result : Network}

/-- A network one node larger whose new node is live has all of its first `p + 1` nodes live. -/
theorem live_next {result result' : Network} {p : Nat} (lives : ∀ k < p, result.Live ⟨k⟩)
    (size : result.size = p) (grown : ∀ n, result'.Live n ↔ result.Live n ∨ n.id = result.size) :
    ∀ k < p + 1, result'.Live ⟨k⟩ := by
  intro k lt
  refine (grown ⟨k⟩).mpr ?_
  rcases Nat.lt_succ_iff_lt_or_eq.mp lt with old | rfl
  · exact .inl (lives k old)
  · exact .inr size.symm

/-- Sending the `p`-th kept node to node `p` extends a map of the first `p` kept nodes. -/
theorem map_insert_next (nodup : (keptNodes net order).Nodup)
    (mapped : ∀ k < p, ∀ n, (keptNodes net order)[k]? = some n →
      map[n.id]? = some (Signal.make ⟨k⟩ false))
    {n : Node} (next : (keptNodes net order)[p]? = some n) :
    ∀ k < p + 1, ∀ m, (keptNodes net order)[k]? = some m →
      (map.insert n.id (Signal.make ⟨p⟩ false))[m.id]? = some (Signal.make ⟨k⟩ false) := by
  intro k lt m atK
  rw [Std.HashMap.getElem?_insert]
  rcases Nat.lt_succ_iff_lt_or_eq.mp lt with old | rfl
  · have other : n.id ≠ m.id := fun same => by
      have named : n = m := congrArg Node.mk same
      subst named
      have := getElem?_keptNodes_inj nodup next atK
      omega
    simp [other, mapped k old m atK]
  · rw [next] at atK
    cases atK
    simp

theorem Rebuilt.start (coherent : net.Coherent) :
    Rebuilt net order 1 ((∅ : Std.HashMap Nat Signal).insert 0 Signal.zero) Network.empty where
  wf := wellFormed_empty
  size := rfl
  live k lt := by
    obtain rfl : k = 0 := by omega
    exact ⟨_, rfl, rfl⟩
  inputs := rfl
  outputs := rfl
  numGates := by simp [Network.empty]
  gates k lt g f kept gate := by
    obtain rfl : k = 0 := by omega
    rw [keptNodes_zero] at kept
    cases kept
    simp [coherent.gateFanins_constant] at gate
  onlyGates k gate := by simp [gateFanins_empty] at gate
  map k lt n kept := by
    obtain rfl : k = 0 := by omega
    rw [keptNodes_zero] at kept
    cases kept
    simp [Node.constant]
    rfl

/-- A kept signal of the rebuilt nodes is mapped to its new node, with its polarity. -/
theorem Rebuilt.mapSignal (nodup : (keptNodes net order).Nodup) (rebuilt : Rebuilt net order p map result)
    {s : Signal} {q : Nat} (lt : q < p) (kept : (keptNodes net order)[q]? = some s.node) :
    mapSignal map s = .ok (s.rename (renumber net order)) := by
  simp [Network.mapSignal, Std.HashMap.get?_eq_getElem?, rebuilt.map q lt _ kept, Signal.rename,
    renumber_of_getElem? nodup kept, Signal.xor_make_false]

/-- A gate rebuilt so far uses a rebuilt node in as many slots as the gate it stands for uses the
node that the rebuilt one stands for. -/
theorem Rebuilt.slots_le (coherent : net.Coherent) (reach : ReachOrder net order)
    (rebuilt : Rebuilt net order p map result) {k : Nat} {n : Node}
    (kept : (keptNodes net order)[k]? = some n) (g' : Node) :
    result.slots g' ⟨k⟩ ≤ net.slots (original net order g') n ∧
      (0 < result.slots g' ⟨k⟩ →
        g'.id < p ∧ (keptNodes net order)[g'.id]? = some (original net order g')) := by
  cases isGate : result.gateFanins g' with
  | none => simp [slots, isGate]
  | some f' =>
    obtain ⟨h, atH, hGate⟩ := rebuilt.onlyGates g'.id (by simp [isGate])
    obtain ⟨f, gate⟩ := Option.isSome_iff_exists.mp hGate
    have below : g'.id < p := rebuilt.size ▸ lt_size_of_gateFanins isGate
    have stored := rebuilt.gates g'.id below h f atH gate
    rw [show (⟨g'.id⟩ : Node) = g' from rfl, isGate, Option.some.injEq] at stored
    subst stored
    have named : original net order g' = h := by simp [original, List.getD_eq_getElem?_getD, atH]
    refine ⟨le_of_eq ?_, fun _ => ⟨below, named ▸ atH⟩⟩
    -- the renaming is one to one on the kept fan-ins, so it keeps the count of each node
    simp only [slots, isGate, named, gate]
    rw [(Fanins.sort_perm _).countP_eq, Fanins.toList_map, List.countP_map]
    refine List.countP_congr fun s member => ?_
    have faninKept := reach.fanin_kept coherent (List.mem_of_getElem? atH) gate member
    simp only [Function.comp_apply, Signal.node_rename, decide_eq_true_eq,
      ← renumber_of_getElem? (reach.keptNodes_nodup coherent) kept]
    exact ⟨renumber_inj faninKept (List.mem_of_getElem? kept), congrArg _⟩

/-- While gates are rebuilt, a rebuilt node has no more uses than a list that holds each kept
parent of the node it stands for as often as that parent uses it. -/
theorem Rebuilt.fanout_le (coherent : net.Coherent) (reach : ReachOrder net order)
    (rebuilt : Rebuilt net order p map result) {k : Nat} {n : Node}
    (kept : (keptNodes net order)[k]? = some n) {r' : NodeRefs} (uses : result.refs[k]? = some r')
    {l : List Node}
    (counts : ∀ q < p, ∀ h, (keptNodes net order)[q]? = some h → net.slots h n ≤ l.count h) :
    r'.fanout ≤ l.length := by
  have noOutputs : result.outputUses ⟨k⟩ = 0 := by simp [outputUses, rebuilt.outputs]
  rw [rebuilt.wf.fanout ⟨k⟩ r' uses, noOutputs, Nat.zero_add]
  refine rebuilt.wf.parents_size_le uses (renumber net order) (original net order) fun g' used => ?_
  obtain ⟨le, atG⟩ := rebuilt.slots_le coherent reach kept g'
  obtain ⟨below, atG⟩ := atG used
  exact ⟨le.trans (counts g'.id below _ atG), renumber_of_getElem? (reach.keptNodes_nodup coherent) atG⟩

/-- The rebuild stays below the network's size, so a node id is left for every kept node. -/
theorem Rebuilt.size_le_maxId (coherent : net.Coherent) (reach : ReachOrder net order)
    (rebuilt : Rebuilt net order p map result) (lt : p < (keptNodes net order).length) :
    result.size ≤ Node.maxId := by
  have := reach.length_keptNodes_le coherent
  have := coherent.fits
  rw [rebuilt.size]
  omega

/-- Creating the next input keeps the rebuild's invariant. -/
theorem Rebuilt.createPi (coherent : net.Coherent) (nodup : (keptNodes net order).Nodup) {i : Nat}
    {n : Node} (input : net.inputs[i]? = some n) (rebuilt : Rebuilt net order (1 + i) map result)
    (fits : result.size ≤ Node.maxId) :
    Rebuilt net order (2 + i) (map.insert n.id result.addInput.1) result.addInput.2 := by
  have lt : i < net.inputs.size := (Array.getElem?_eq_some_iff.mp input).1
  have kept : (keptNodes net order)[1 + i]? = some n := by rw [keptNodes_input net order lt, input]
  have size := rebuilt.size
  have notGate : net.gateFanins n = none := coherent.gateFanins_input (Array.mem_of_getElem? input)
  refine ⟨rebuilt.wf.addInput fits, by simp [size]; omega, fun k lt' => ?_, ?_, rebuilt.outputs,
    by simp [rebuilt.numGates]; omega, fun k lt' g f kept' gate => ?_, fun k gate => ?_,
    fun k lt' m kept' => ?_⟩
  · exact live_next rebuilt.live size rebuilt.wf.live_addInput k (by omega)
  · rw [inputs_addInput, Array.toList_push, rebuilt.inputs, show 2 + i - 1 = i + 1 by omega,
      show 1 + i - 1 = i by omega, List.take_add_one, List.map_append, Array.getElem?_toList, input]
    simp [size, renumber_of_getElem? nodup kept]
  · rw [rebuilt.wf.gateFanins_addInput]
    rcases Nat.lt_succ_iff_lt_or_eq.mp (show k < 1 + i + 1 by omega) with old | rfl
    · exact rebuilt.gates k old g f kept' gate
    · rw [kept] at kept'
      cases kept'
      simp [notGate] at gate
  · rw [rebuilt.wf.gateFanins_addInput] at gate
    exact rebuilt.onlyGates k gate
  · rw [addInput_fst, size]
    exact map_insert_next nodup rebuilt.map kept k (by omega) m kept'

/-- No gate rebuilt so far has the renamed fan-ins of the next kept gate: it would stand for a
kept gate over the same fan-ins, and a well-formed network has no two such gates. -/
theorem Rebuilt.fresh (wf : net.WellFormed) (reach : ReachOrder net order) {j : Nat}
    {g : Node} (at_j : order[j]? = some g) {f : Fanins} (gate : net.gateFanins g = some f)
    (rebuilt : Rebuilt net order (1 + net.inputs.size + j) map result) (g' : Node) :
    result.gateFanins g' ≠ some (f.map (Signal.rename (renumber net order))).sort := by
  have nodup := reach.keptNodes_nodup wf.toCoherent
  have kept : (keptNodes net order)[1 + net.inputs.size + j]? = some g := by
    rw [keptNodes_gate, at_j]
  have faninKept := fun s (member : s ∈ f.toList) =>
    reach.fanin_kept wf.toCoherent (List.mem_of_getElem? kept) gate member
  have normal : f.normalize = .gate f false := wf.normal g f gate (wf.allLinked g f gate)
  intro other
  obtain ⟨h, atK, isGate⟩ := rebuilt.onlyGates g'.id (by simp [other])
  obtain ⟨f', gate'⟩ := Option.isSome_iff_exists.mp isGate
  have below : g'.id < 1 + net.inputs.size + j := rebuilt.size ▸ lt_size_of_gateFanins other
  have sorted := rebuilt.gates g'.id below h f' atK gate'
  rw [show (⟨g'.id⟩ : Node) = g' from rfl, other, Option.some.injEq] at sorted
  have perm : (f'.map (Signal.rename (renumber net order))).toList.Perm
      (f.map (Signal.rename (renumber net order))).toList :=
    (Fanins.sort_perm _).symm.trans (sorted ▸ Fanins.sort_perm _)
  have back := perm.map (Signal.rename (original net order))
  simp only [Fanins.toList_map] at back
  rw [map_rename_original (faninKept · ·),
    map_rename_original fun _ member =>
      reach.fanin_kept wf.toCoherent (List.mem_of_getElem? atK) gate' member] at back
  have same : f' = f := by
    rw [← Fanins.eq_sort_of_normal (wf.normal h f' gate' (wf.allLinked h f' gate')),
      ← Fanins.eq_sort_of_normal normal, Fanins.sort_eq_of_perm back]
  subst same
  have := wf.distinct h g f' gate' gate (wf.allLinked h f' gate') (wf.allLinked g f' gate)
  subst this
  have := getElem?_keptNodes_inj nodup atK kept
  omega

/-- A fan-in of the next kept gate, renamed, has a use left in the rebuilt network: the gate
being rebuilt is among the fan-in's parents, and no rebuilt gate stands for it. -/
theorem Rebuilt.fanout_lt_of_fanin (wf : net.WellFormed) (reach : ReachOrder net order) {j : Nat}
    {g : Node} (at_j : order[j]? = some g) {f : Fanins} (gate : net.gateFanins g = some f)
    (rebuilt : Rebuilt net order (1 + net.inputs.size + j) map result) {s : Signal}
    (sMember : s ∈ f.toList) {r' : NodeRefs}
    (uses : result.refs[(s.rename (renumber net order)).node.id]? = some r') :
    r'.fanout < NodeRefs.maxFanout := by
  have nodup := reach.keptNodes_nodup wf.toCoherent
  have kept : (keptNodes net order)[1 + net.inputs.size + j]? = some g := by
    rw [keptNodes_gate, at_j]
  obtain ⟨q, -, atQ⟩ := reach.fanin_before wf.toCoherent at_j gate sMember
  obtain ⟨u, found, -⟩ := wf.faninsLive g f gate s sMember
  rw [Signal.node_rename, renumber_of_getElem? nodup atQ] at uses
  have parent : g ∈ u.parents.toList := by
    rw [← List.count_pos_iff, Array.count_toList, wf.parents _ u g found, slots, gate]
    exact List.countP_pos_iff.mpr ⟨s, sMember, by simp⟩
  -- the rebuilt gates are kept gates other than `g`, so they account for the parents but `g`
  have bound := rebuilt.fanout_le wf.toCoherent reach atQ uses (l := u.parents.toList.erase g)
    fun q' before h atH => by
      have other : h ≠ g := fun same => by
        subst same
        have := getElem?_keptNodes_inj nodup atH kept
        omega
      rw [List.count_erase_of_ne other, Array.count_toList, wf.parents _ u h found]
  have := List.length_pos_of_mem parent
  rw [List.length_erase_of_mem parent] at bound
  simp only [Array.length_toList] at bound this
  have := wf.fanout _ u found
  have := wf.fanoutFits _ u found
  omega

/-- Creating the `j`-th gate of the order over its renamed fan-ins adds it as the next node,
uncomplemented, and keeps the rebuild's invariant. -/
theorem Rebuilt.createMaj (wf : net.WellFormed) (reach : ReachOrder net order) {j : Nat}
    {g : Node} (at_j : order[j]? = some g) {f : Fanins} (gate : net.gateFanins g = some f)
    (rebuilt : Rebuilt net order (1 + net.inputs.size + j) map result) :
    ∃ r, NetM.Always (Network.createMaj (f.a.rename (renumber net order))
        (f.b.rename (renumber net order)) (f.c.rename (renumber net order))) result
        (Signal.make ⟨result.size⟩ false) r ∧
      Rebuilt net order (2 + net.inputs.size + j)
        (map.insert g.id (Signal.make ⟨result.size⟩ false)) r := by
  have nodup := reach.keptNodes_nodup wf.toCoherent
  have kept : (keptNodes net order)[1 + net.inputs.size + j]? = some g := by
    rw [keptNodes_gate, at_j]
  have faninKept := fun s (member : s ∈ f.toList) =>
    reach.fanin_kept wf.toCoherent (List.mem_of_getElem? kept) gate member
  have size := rebuilt.size
  have live : ∀ t ∈ [f.a.rename (renumber net order), f.b.rename (renumber net order),
      f.c.rename (renumber net order)], result.Live t.node := by
    intro t member
    obtain ⟨s, sMember, rfl⟩ : ∃ s ∈ f.toList, s.rename (renumber net order) = t := by
      simpa [Fanins.toList, eq_comm] using member
    obtain ⟨q, lt, atQ⟩ := reach.fanin_before wf.toCoherent at_j gate sMember
    rw [Signal.node_rename, renumber_of_getElem? nodup atQ]
    exact rebuilt.live q lt
  have normal : f.normalize = .gate f false := wf.normal g f gate (wf.allLinked g f gate)
  have normalizes := Fanins.normalize_map_rename normal (ρ := renumber net order)
    fun n member n' member' same => by
      obtain ⟨s, sMember, rfl⟩ := List.mem_map.mp member
      obtain ⟨s', sMember', rfl⟩ := List.mem_map.mp member'
      exact renumber_inj (faninKept s sMember) (faninKept s' sMember') same
  have fits := rebuilt.size_le_maxId wf.toCoherent reach (List.getElem?_eq_some_iff.mp kept).1
  have uses : ∀ t ∈ [f.a.rename (renumber net order), f.b.rename (renumber net order),
      f.c.rename (renumber net order)], ∀ r', result.refs[t.node.id]? = some r' →
        r'.fanout < NodeRefs.maxFanout := by
    intro t member r' uses'
    obtain ⟨s, sMember, rfl⟩ : ∃ s ∈ f.toList, s.rename (renumber net order) = t := by
      simpa [Fanins.toList, eq_comm] using member
    exact rebuilt.fanout_lt_of_fanin wf reach at_j gate sMember uses'
  obtain ⟨s, r, run⟩ := rebuilt.wf.createMaj_returns_of_uses live fits uses
  obtain ⟨adds, rfl⟩ := rebuilt.wf.createMaj_creates live run normalizes
    (rebuilt.fresh wf reach at_j gate)
  have grown : r.size = result.size + 1 := adds.size
  refine ⟨r, always_of_returns_createMaj run, (rebuilt.wf.createMaj live run).1,
    by omega, fun k lt => ?_, ?_, by rw [adds.outputs, rebuilt.outputs],
    by rw [adds.numGates, rebuilt.numGates]; omega, fun k lt h f' atK gate' => ?_,
    fun k isGate => ?_, fun k lt m atK => ?_⟩
  · exact live_next rebuilt.live size adds.live k (by omega)
  · rw [adds.inputs, rebuilt.inputs, List.take_of_length_le (by simp; omega),
      List.take_of_length_le (by simp; omega)]
  · rw [adds.gateFanins]
    split
    · rename_i here
      have : k = 1 + net.inputs.size + j := by simp at here; omega
      subst this
      rw [kept] at atK
      cases atK
      rw [gate] at gate'
      cases gate'
      rfl
    · rename_i other
      exact rebuilt.gates k (by simp at other; omega) h f' atK gate'
  · rw [adds.gateFanins] at isGate
    split at isGate
    · rename_i here
      have : k = 1 + net.inputs.size + j := by simp at here; omega
      subst this
      exact ⟨g, kept, by simp [gate]⟩
    · exact rebuilt.onlyGates k isGate
  · rw [size]
    exact map_insert_next nodup rebuilt.map kept k (by omega) m atK

end Steps

-----------------------------------------------------------------------------------------
-- The whole rebuild
-----------------------------------------------------------------------------------------

/-- The result of the rebuild: a well-formed network whose nodes are the kept nodes in their
order, with the inputs, the outputs and the fan-ins of every kept gate renamed, and no other
gate. -/
structure Compacted (net : Network) (order : Array Node) (r : Network) : Prop where
  wf : r.WellFormed
  size : r.size = (keptNodes net order).length
  inputs : r.inputs.toList = net.inputs.toList.map (renumber net order)
  outputs : r.outputs.toList = net.outputs.toList.map (Signal.rename (renumber net order))
  numGates : r.numGates = order.size
  gates : ∀ k g f, (keptNodes net order)[k]? = some g → net.gateFanins g = some f →
    r.gateFanins ⟨k⟩ = some (f.map (Signal.rename (renumber net order))).sort
  onlyGates : ∀ k, (r.gateFanins ⟨k⟩).isSome →
    ∃ g, (keptNodes net order)[k]? = some g ∧ (net.gateFanins g).isSome

section Rebuild

variable {net : Network} {order : Array Node}

/-- The outputs loop of the rebuild on top of the rebuilt nodes: `r` is `result` with its uses
changed and the first `i` outputs added, renamed, and each rebuilt node has fewer uses than the
node it stands for by at least the outputs on it still to add. -/
def OutputsAdded (net : Network) (order : Array Node) (result : Network) (i : Nat) (r : Network) :
    Prop :=
  r.WellFormed ∧ r.table = result.table ∧ r.inputs = result.inputs ∧
    r.numGates = result.numGates ∧ (∀ n, r.gateFanins n = result.gateFanins n) ∧
    (∀ n, r.Live n ↔ result.Live n) ∧
    r.outputs.toList = (net.outputs.toList.take i).map (Signal.rename (renumber net order)) ∧
    ∀ (k : Nat) (n : Node), (keptNodes net order)[k]? = some n → ∀ r' u : NodeRefs, r.refs[k]? = some r' →
      net.refs[n.id]? = some u →
        r'.fanout + (net.outputs.toList.drop i).countP (·.node = n) ≤ u.fanout

/-- Adding the next output, renamed, keeps the outputs loop's invariant. -/
theorem OutputsAdded.createPo {result r : Network} {i : Nat} (coherent : net.Coherent)
    (nodup : (keptNodes net order).Nodup) (added : OutputsAdded net order result i r) {s : Signal}
    (output : net.outputs[i]? = some s) {q : Nat} (atQ : (keptNodes net order)[q]? = some s.node)
    (live : result.Live ⟨q⟩) :
    ∃ r', r.createPo (s.rename (renumber net order)) = .ok (r.outputs.size, r') ∧
      OutputsAdded net order result (i + 1) r' := by
  obtain ⟨wf, table, inputs, numGates, gates, lives, outputs, counted⟩ := added
  have renamed : (s.rename (renumber net order)).node = ⟨q⟩ := by
    rw [Signal.node_rename, renumber_of_getElem? nodup atQ]
  have liveS : r.Live (s.rename (renumber net order)).node := by
    rw [renamed]
    exact (lives _).mpr live
  obtain ⟨uses, found, -⟩ := wf.refsOf_live liveS
  have usesAtQ : r.refs[q]? = some uses := by
    have := (refsOf_eq_ok.mp found).2
    rwa [renamed] at this
  have rest : net.outputs.toList.drop i = s :: net.outputs.toList.drop (i + 1) := by
    obtain ⟨lt, atI⟩ := List.getElem?_eq_some_iff.mp
      (show net.outputs.toList[i]? = some s by rw [Array.getElem?_toList]; exact output)
    rw [List.drop_eq_getElem_cons lt, atI]
  obtain ⟨u, netUses, -⟩ := coherent.outputsLive s (Array.mem_of_getElem? output)
  -- the output being added is one of those held in reserve, so the node has a use left
  have reserve := counted q s.node atQ uses u usesAtQ netUses
  rw [rest, List.countP_cons_of_pos (by simp)] at reserve
  have fits := coherent.fanoutFits s.node u netUses
  have room : uses.fanout < NodeRefs.maxFanout := by omega
  obtain ⟨r', created, wf'⟩ := wf.createPo liveS fun r₀ uses₀ => by
    rw [(refsOf_eq_ok.mp found).2, Option.some.injEq] at uses₀
    exact uses₀ ▸ room
  rw [createPo_eq_ok found room, Except.ok.injEq, Prod.mk.injEq] at created
  obtain ⟨-, rfl⟩ := created
  have keepsDead : ∀ r : NodeRefs, ({ r with fanout := r.fanout + 1 } : NodeRefs).dead = r.dead :=
    fun _ => rfl
  refine ⟨_, createPo_eq_ok found room, wf', table, inputs, numGates, fun n => ?_, fun n => ?_, ?_,
    fun k n atK r'' u' uses'' netUses' => ?_⟩
  · rw [← gates n]
    refine gateFanins_of_modify (i := (s.rename (renumber net order)).node.id) ?_ ?_ keepsDead n <;> rfl
  · rw [← lives n]
    refine live_of_modify (i := (s.rename (renumber net order)).node.id) ?_ keepsDead n
    rfl
  · simp [outputs, List.take_add_one, Array.getElem?_toList, output]
  · have before := counted k n atK
    simp only [Array.getElem?_modify, renamed] at uses''
    by_cases same : q = k
    · -- the node of the output: one more use, one output fewer in reserve
      subst same
      obtain rfl : n = s.node := by rw [atQ] at atK; exact (Option.some.inj atK).symm
      rw [netUses, Option.some.injEq] at netUses'
      subst netUses'
      simp only [if_true, usesAtQ, Option.map_some, Option.some.injEq] at uses''
      subst uses''
      simp only
      omega
    · -- another node: the same uses, and the output is not on it
      rw [if_neg same] at uses''
      have other : ¬ s.node = n := fun on => same (getElem?_keptNodes_inj nodup atQ (on ▸ atK))
      have := before r'' u' uses'' netUses'
      rw [rest, List.countP_cons_of_neg (by simpa using other)] at this
      exact this

/-- The rebuilt network starts the outputs loop's invariant: before the outputs, a rebuilt node
has no more uses than its node has parents. -/
theorem Rebuilt.outputsAdded (wf : net.WellFormed) (reach : ReachOrder net order) {p : Nat}
    {map : Std.HashMap Nat Signal} {result : Network} (rebuilt : Rebuilt net order p map result) :
    OutputsAdded net order result 0 result := by
  refine ⟨rebuilt.wf, rfl, rfl, rfl, fun _ => rfl, fun _ => Iff.rfl, by simp [rebuilt.outputs],
    fun k n atK r' u uses netUses => ?_⟩
  have parents := rebuilt.fanout_le wf.toCoherent reach atK uses (l := u.parents.toList)
    fun q _ h _ => by rw [Array.count_toList, wf.parents _ u h netUses]
  have total := wf.fanout n u netUses
  simp only [outputUses, Array.length_toList] at parents total
  rw [List.drop_zero]
  omega

/-- The rebuild returns, from every journal, a compaction of a well-formed network. -/
theorem WellFormed.cleanupDangling_compacted (wf : net.WellFormed) (reach : ReachOrder net order)
    (walk : Simulation.topologicalOrder net = .ok order) :
    ∃ r, Logged.Yields (cleanupDangling net) r ∧ Compacted net order r := by
  have nodup := reach.keptNodes_nodup wf.toCoherent
  unfold cleanupDangling
  refine Logged.exists_bind (P := fun s => Rebuilt net order (1 + net.inputs.size) s.1 s.2) ?_
    fun built rebuilt => ?_
  · -- the inputs, in order
    rw [← Array.forIn_toList]
    refine Logged.yields_forIn (fun i s => Rebuilt net order (1 + i) s.1 s.2)
      (fun i lt s rebuilt => ?_) (Rebuilt.start wf.toCoherent)
      (fun s rebuilt => by simpa using rebuilt)
    have input : net.inputs[i]? = some net.inputs.toList[i] := by simp
    have fits := rebuilt.size_le_maxId wf.toCoherent reach (by simp [length_keptNodes] at lt ⊢; omega)
    refine ⟨_, (Logged.yields_orFail (createPi_eq_ok fits)).bind (Logged.yields_pure _), ?_⟩
    rw [show 1 + (i + 1) = 2 + i by omega]
    exact rebuilt.createPi wf.toCoherent nodup input fits
  refine Logged.exists_bind (P := fun o => o = order) ⟨order, Logged.yields_orFail walk, rfl⟩
    fun o same => ?_
  subst same
  refine Logged.exists_bind
    (P := fun s => Rebuilt net o (1 + net.inputs.size + o.size) s.1 s.2) ?_ fun done rebuilt' => ?_
  · -- the gates, in topological order
    rw [← Array.forIn_toList]
    refine Logged.yields_forIn (fun j s => Rebuilt net o (1 + net.inputs.size + j) s.1 s.2)
      (fun j lt s rebuilt => ?_) (by simpa using rebuilt) (fun s rebuilt => by simpa using rebuilt)
    have at_j : o[j]? = some o.toList[j] := by simp
    obtain ⟨f, gate⟩ := Option.isSome_iff_exists.mp ((reach.listed _).mp (List.getElem_mem lt)).1
    obtain ⟨r, always, rebuilt'⟩ := rebuilt.createMaj wf reach at_j gate
    have lookups : f.toList.mapM (mapSignal s.1) = .ok (f.toList.map (Signal.rename (renumber net o))) :=
      mapM_ok fun t member => by
        obtain ⟨q, lt', atQ⟩ := reach.fanin_before wf.toCoherent at_j gate member
        exact rebuilt.mapSignal nodup lt' atQ
    exact ⟨_, (Logged.yields_orFail (fanins_of_gateFanins gate)).bind
      ((Logged.yields_orFail lookups).bind ((Logged.yields_run always).bind (Logged.yields_pure _))),
      by rw [show 1 + net.inputs.size + (j + 1) = 2 + net.inputs.size + j by omega]; exact rebuilt'⟩
  refine Logged.exists_bind (P := OutputsAdded net o done.2 net.outputs.size) ?_ fun r added => ?_
  · -- the outputs, in order
    rw [← Array.forIn_toList]
    refine Logged.yields_forIn (OutputsAdded net o done.2) (fun i lt r added => ?_)
      (rebuilt'.outputsAdded wf reach) (fun r added => by simpa using added)
    have output : net.outputs[i]? = some net.outputs.toList[i] := by simp
    obtain ⟨q, atQ⟩ := List.getElem?_of_mem (reach.output_kept wf.toCoherent (Array.mem_of_getElem? output))
    have below : q < 1 + net.inputs.size + o.size := by
      have := (List.getElem?_eq_some_iff.mp atQ).1
      rw [length_keptNodes] at this
      exact this
    obtain ⟨r', created, added'⟩ :=
      added.createPo wf.toCoherent nodup output atQ (rebuilt'.live q below)
    exact ⟨r', (Logged.yields_orFail (rebuilt'.mapSignal nodup below atQ)).bind
      ((Logged.yields_orFail created).bind (Logged.yields_pure _)), added'⟩
  obtain ⟨wf', table, inputs, numGates, gates, -, outputs, -⟩ := added
  have size : r.size = done.2.size := by simp only [Network.size, table]
  refine ⟨r, (Logged.yields_logAt _ _).bind (Logged.yields_pure r), wf', ?_, ?_, ?_, ?_, ?_, ?_⟩
  · rw [size, rebuilt'.size, length_keptNodes]
  · rw [inputs, rebuilt'.inputs, List.take_of_length_le (by simp; omega)]
  · rw [outputs, List.take_of_length_le (by simp)]
  · rw [numGates, rebuilt'.numGates]
    omega
  · intro k g f atK gate
    rw [gates]
    have lt := (List.getElem?_eq_some_iff.mp atK).1
    rw [length_keptNodes] at lt
    exact rebuilt'.gates k lt g f atK gate
  · intro k isGate
    rw [gates] at isGate
    exact rebuilt'.onlyGates k isGate

end Rebuild

-----------------------------------------------------------------------------------------
-- What the compaction keeps
-----------------------------------------------------------------------------------------

section Compaction

variable {net : Network} {order : Array Node} {r : Network} (compacted : Compacted net order r)
  (reach : ReachOrder net order) (coherent : net.Coherent)
include compacted

theorem Compacted.numPis : r.numPis = net.numPis := by
  simpa [Network.numPis] using congrArg List.length compacted.inputs

theorem Compacted.getElem?_inputs (i : Nat) : r.inputs[i]? = net.inputs[i]?.map (renumber net order) := by
  rw [← Array.getElem?_toList, compacted.inputs, List.getElem?_map, Array.getElem?_toList]

theorem Compacted.getElem?_outputs (i : Nat) :
    r.outputs[i]? = net.outputs[i]?.map (Signal.rename (renumber net order)) := by
  rw [← Array.getElem?_toList, compacted.outputs, List.getElem?_map, Array.getElem?_toList]

include reach coherent

/-- A kept node has in the compacted network the table it had. -/
theorem Compacted.tableOf {n : Node} {t : TruthTable} (table : net.TableOf n t)
    (kept : n ∈ keptNodes net order) : r.TableOf (renumber net order n) t := by
  have nodup := reach.keptNodes_nodup coherent
  induction table with
  | constant =>
    rw [renumber_of_getElem? nodup (keptNodes_zero net order), ← compacted.numPis]
    exact .constant
  | input member run =>
    refine .input (by rw [compacted.getElem?_inputs, member]; rfl) ?_
    rwa [compacted.numPis]
  | @gate g f t tab gate fanins run ih =>
    obtain ⟨k, atK⟩ := List.getElem?_of_mem kept
    have faninKept := fun s (member : s ∈ f.toList) => reach.fanin_kept coherent kept gate member
    -- the new gate reads its fan-ins' tables back through the numbering
    let tab' : Node → TruthTable := fun n' => tab (original net order n')
    have renamed : ∀ s ∈ f.toList, tab' (renumber net order s.node) = tab s.node :=
      fun s member => by simp [tab', original_renumber (faninKept s member)]
    have onRenamed : ∀ s' ∈ (f.map (Signal.rename (renumber net order))).toList,
        ∃ s ∈ f.toList, s' = s.rename (renumber net order) := by
      intro s' member
      simpa [Fanins.toList_map, eq_comm] using member
    have tables : ∀ s' ∈ (f.map (Signal.rename (renumber net order))).sort.toList,
        r.TableOf s'.node (tab' s'.node) := by
      intro s' member
      obtain ⟨s, sMember, rfl⟩ := onRenamed s' ((Fanins.sort_perm _).subset member)
      rw [Signal.node_rename, renamed s sMember]
      exact ih s sMember (faninKept s sMember)
    have fits : ∀ s' ∈ (f.map (Signal.rename (renumber net order))).toList,
        TruthTable.Fits net.numPis (tab' s'.node) := by
      intro s' member
      obtain ⟨s, sMember, rfl⟩ := onRenamed s' member
      rw [Signal.node_rename, renamed s sMember]
      exact (fanins s sMember).fits
    rw [renumber_of_getElem? nodup atK]
    refine .gate tab' (compacted.gates k g f atK gate) tables ?_
    rw [Fanins.majTable_sort fits, Fanins.majTable_map_rename renamed, run]

/-- The compacted network simulates to the same output tables. -/
theorem Compacted.simulate : Simulation.simulate r = Simulation.simulate net := by
  by_cases le : net.numPis ≤ TruthTable.maxVars
  · obtain ⟨tables, run, size, outputs⟩ := coherent.simulate le
    obtain ⟨tables', run', size', outputs'⟩ :=
      compacted.wf.toCoherent.simulate (compacted.numPis ▸ le)
    rw [run, run']
    congr 1
    refine Array.ext_getElem? fun i => ?_
    cases output : net.outputs[i]? with
    | none =>
      have : r.outputs[i]? = none := by rw [compacted.getElem?_outputs, output]; rfl
      rw [Array.getElem?_eq_none (by rw [size']; exact Array.getElem?_eq_none_iff.mp this),
        Array.getElem?_eq_none (by rw [size]; exact Array.getElem?_eq_none_iff.mp output)]
    | some s =>
      obtain ⟨t, table, found⟩ := outputs i s output
      obtain ⟨t', table', found'⟩ := outputs' i _ (by rw [compacted.getElem?_outputs, output]; rfl)
      have kept := reach.output_kept coherent (Array.mem_of_getElem? output)
      have same := (compacted.tableOf reach coherent table kept).unique compacted.wf.toCoherent
        (by simpa using table')
      rw [found, found', ← same]
      simp [Signal.onTable]
  · have gt := Nat.lt_of_not_le le
    rw [simulate_of_gt gt, simulate_of_gt (compacted.numPis ▸ gt), compacted.numPis]

end Compaction

/-- Compaction rebuilds a well-formed network exactly. From every journal it returns a
well-formed network with no dead node, as many inputs and outputs, the same simulation, and one
gate for each live gate that the outputs reach. Its nodes are the constant, the inputs and these
gates, each under its own new number: every gate is rebuilt over the new nodes of its fan-ins
with their polarities, in sorted order, and every output is renamed with its polarity. -/
theorem WellFormed.cleanupDangling_rebuilds {net : Network} (wf : net.WellFormed) :
    ∃ r, Logged.Yields (cleanupDangling net) r ∧ r.WellFormed ∧ r.numDead = .ok 0 ∧
      r.numPis = net.numPis ∧ r.numPos = net.numPos ∧
      Simulation.simulate r = Simulation.simulate net ∧
      r.numGates = {g | net.ReachedGate g}.ncard ∧ r.size = 1 + r.numPis + r.numGates ∧
      ∃ rename : Node → Node,
        Set.InjOn rename {n | n = Node.constant ∨ n ∈ net.inputs ∨ net.ReachedGate n} ∧
        rename Node.constant = Node.constant ∧
        (∀ i : Nat, r.inputs[i]? = net.inputs[i]?.map rename) ∧
        (∀ i : Nat, r.outputs[i]? = net.outputs[i]?.map (Signal.rename rename)) ∧
        (∀ g f, net.ReachedGate g → net.gateFanins g = some f →
          r.gateFanins (rename g) = some (f.map (Signal.rename rename)).sort) ∧
        ∀ g', (r.gateFanins g').isSome → ∃ g, net.ReachedGate g ∧ rename g = g' := by
  obtain ⟨order, walk, topological, listed⟩ := wf.toCoherent.topologicalOrder
  have reach : ReachOrder net order := ⟨topological, listed⟩
  have nodup := reach.keptNodes_nodup wf.toCoherent
  obtain ⟨r, yields, compacted⟩ := wf.cleanupDangling_compacted reach walk
  have numPis := compacted.numPis
  have size : r.size = 1 + net.inputs.size + order.size := by
    rw [compacted.size, length_keptNodes]
  have kept : ∀ n, n ∈ keptNodes net order ↔ n = Node.constant ∨ n ∈ net.inputs ∨ net.ReachedGate n :=
    fun n => by rw [mem_keptNodes, reach.listed]
  have reached : {g | net.ReachedGate g} = (order.toList.toFinset : Set Node) := by
    ext g
    simp [reach.listed]
  refine ⟨r, yields, compacted.wf, ?_, numPis, ?_, compacted.simulate reach wf.toCoherent, ?_, ?_,
    renumber net order, fun a member b member' same => renumber_inj ((kept a).mpr member)
      ((kept b).mpr member') same,
    renumber_of_getElem? nodup (keptNodes_zero net order), compacted.getElem?_inputs,
    compacted.getElem?_outputs, fun g f gate fanins => ?_, fun g' isGate => ?_⟩
  · simp only [Network.numPis] at numPis
    rw [compacted.wf.numDead_eq, size, compacted.numGates, numPis]
    congr 1
    omega
  · simpa [Network.numPos] using congrArg List.length compacted.outputs
  · rw [compacted.numGates, reached, Set.ncard_coe_finset, List.toFinset_card_of_nodup topological.nodup]
    simp
  · rw [size, numPis, compacted.numGates]
    rfl
  · obtain ⟨k, atK⟩ := List.getElem?_of_mem ((kept g).mpr (.inr (.inr gate)))
    rw [renumber_of_getElem? nodup atK]
    exact compacted.gates k g f atK fanins
  · obtain ⟨g, atK, isGate'⟩ := compacted.onlyGates g'.id isGate
    obtain ⟨f, fanins⟩ := Option.isSome_iff_exists.mp isGate'
    refine ⟨g, (reach.listed g).mp (wf.toCoherent.mem_order_of_kept (List.mem_of_getElem? atK) fanins),
      renumber_of_getElem? nodup atK⟩

/-- Compaction of `a ∨ b` under an output, beside an unused `a ∧ b` made before it: the unused
gate is dropped, and the disjunction is rebuilt under a number below 4 with the output on it. -/
theorem cleanupDangling_drops_unused_gate :
    ∃ net r, net.WellFormed ∧ net.size = 5 ∧ net.numGates = 2 ∧
      net.gateFanins ⟨3⟩ = some ⟨⟨0⟩, ⟨2⟩, ⟨4⟩⟩ ∧ net.gateFanins ⟨4⟩ = some ⟨⟨1⟩, ⟨2⟩, ⟨4⟩⟩ ∧
      net.outputs = #[Signal.make ⟨4⟩ false] ∧
      Logged.Yields (cleanupDangling net) r ∧ r.WellFormed ∧ r.numDead = .ok 0 ∧ r.size = 4 ∧
      r.numGates = 1 ∧ Simulation.simulate r = Simulation.simulate net ∧
      ∃ g' : Node, g'.id < 4 ∧ (r.gateFanins g').isSome ∧ r.outputs = #[Signal.make g' false] := by
  obtain ⟨-, net₄, -, -, wf₄, -, gate₃, gate₄, others, outputs₄, inputs₄, size₄, numGates₄, room₄⟩ :=
    andOr_gates
  -- the output on `a ∨ b`
  obtain ⟨net, created, wf⟩ := wf₄.createPo (f := Signal.make ⟨4⟩ false) (live_of_gateFanins gate₄)
    fun r uses => room₄.fanout_lt _ uses
  obtain ⟨-, -, -, -, same⟩ := createPo_eq_ok_iff.mp created
  have gates : ∀ g, net.gateFanins g = net₄.gateFanins g :=
    gateFanins_of_modify (i := (Signal.make ⟨4⟩ false).node.id)
      (g := fun r => { r with fanout := r.fanout + 1 }) (by rw [same]) (by rw [same]) fun _ => rfl
  have outputs : net.outputs = #[Signal.make ⟨4⟩ false] := by
    rw [same, outputs₄]
    rfl
  -- the output reaches `a ∨ b` and nothing else that is a gate
  have reached : {g | net.ReachedGate g} = {⟨4⟩} := by
    ext g
    simp only [Set.mem_ofPred_eq, Set.mem_singleton_iff, ReachedGate, outputs, List.mem_toArray,
      List.mem_singleton, exists_eq_left, Signal.node_make]
    refine ⟨fun reachedGate => ?_, fun here => ⟨by rw [here, gates, gate₄]; rfl, here ▸ .refl _⟩⟩
    obtain ⟨isGate, path⟩ := reachedGate
    cases path with
    | refl => rfl
    | fanin gate member below =>
      rw [gates, gate₄, Option.some.injEq] at gate
      subst gate
      -- each fan-in is the constant or an input, which reaches only itself
      have notGate : ∀ n : Node, n.id < 3 → ¬ (net.gateFanins n).isSome := fun n low => by
        rw [gates, others n (.inl low)]
        decide
      simp only [Fanins.toList, List.mem_cons, List.not_mem_nil, or_false] at member
      rcases member with rfl | rfl | rfl <;>
      · have same := below.eq_of_gateFanins_none (by rw [gates]; exact others _ (by decide))
        subst same
        exact absurd isGate (notGate _ (by decide))
  obtain ⟨r, yields, wf', dead, numPis, -, simulates, numGates, size, rename, -, -, -, renamedOutputs,
    renamedGates, -⟩ := wf.cleanupDangling_rebuilds
  have reachedGate : net.ReachedGate ⟨4⟩ := by
    show ⟨4⟩ ∈ {g | net.ReachedGate g}
    rw [reached]
    rfl
  have gates' : r.numGates = 1 := by rw [numGates, reached, Set.ncard_singleton]
  have size' : r.size = 4 := by
    rw [size, numPis, gates']
    simp [Network.numPis, same, inputs₄]
  have rebuilt := renamedGates ⟨4⟩ _ reachedGate (by rw [gates, gate₄])
  refine ⟨net, r, wf, by rw [same]; exact size₄, by rw [same]; exact numGates₄,
    by rw [gates, gate₃], by rw [gates, gate₄], outputs, yields, wf', dead, size', gates', simulates,
    rename ⟨4⟩, by have := lt_size_of_gateFanins rebuilt; omega, by rw [rebuilt]; rfl, ?_⟩
  refine Array.ext_getElem? fun i => ?_
  rw [renamedOutputs, outputs]
  rcases i with _ | i
  · simp [Signal.rename]
  · simp

end Network

end MajorityGraph
