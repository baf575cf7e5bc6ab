import MajorityGraph.Proofs.Network.Semantics
import Mathlib.Data.List.Nodup
import Mathlib.Data.List.Perm.Subperm
import MajorityGraph.Proofs.Network.Normalize
import MajorityGraph.Proofs.Simulation.NetworkOrder
import MajorityGraph.Proofs.Simulation.Tables

/-! Simulation of a coherent network gives each output the table of its signal (`TableOf`). -/

namespace MajorityGraph

section Loops

variable {ε α β : Type}

@[simp] theorem except_ok_bind (a : α) (f : α → Except ε β) : (Except.ok a >>= f) = f a := rfl

/-- A loop over a list whose every pass goes on and keeps a property indexed by the position
returns, with the property at the end. -/
theorem forIn_ok {l : List α} {init : β} {body : α → β → Except ε (ForInStep β)} {R : β → Prop}
    (inv : Nat → β → Prop)
    (step : ∀ i (lt : i < l.length) b, inv i b →
      ∃ b', body l[i] b = .ok (.yield b') ∧ inv (i + 1) b')
    (start : inv 0 init) (final : ∀ b, inv l.length b → R b) :
    ∃ b, forIn l init body = .ok b ∧ R b := by
  induction l generalizing init inv with
  | nil => exact ⟨init, rfl, final init start⟩
  | cons a rest ih =>
    obtain ⟨b, first, kept⟩ := step 0 (by simp) init start
    obtain ⟨b', loop, holds⟩ := ih (fun i => inv (i + 1))
      (fun i lt c => step (i + 1) (by simp; omega) c) kept (fun c => final c)
    refine ⟨b', ?_, holds⟩
    rw [List.forIn_cons]
    simp only [List.getElem_cons_zero] at first
    rw [first]
    exact loop

/-- A loop as in `forIn_ok`, followed by a computation that succeeds from whatever the invariant
leaves at the end, succeeds. -/
theorem forIn_ok_bind {γ : Type} {l : List α} {init : β} {body : α → β → Except ε (ForInStep β)}
    {k : β → Except ε γ} {R : γ → Prop} (inv : Nat → β → Prop)
    (step : ∀ i (lt : i < l.length) b, inv i b →
      ∃ b', body l[i] b = .ok (.yield b') ∧ inv (i + 1) b')
    (start : inv 0 init) (final : ∀ b, inv l.length b → ∃ c, k b = .ok c ∧ R c) :
    ∃ c, (forIn l init body >>= k) = .ok c ∧ R c := by
  obtain ⟨b, loop, c, after, holds⟩ := forIn_ok inv step start final
  exact ⟨c, by rw [loop, except_ok_bind, after], holds⟩

/-- A fold whose every step keeps a property indexed by the position returns, with the property
at the end. -/
theorem foldlM_ok {l : List α} {init : β} {f : β → α → Except ε β} {R : β → Prop}
    (inv : Nat → β → Prop)
    (step : ∀ i (lt : i < l.length) b, inv i b → ∃ b', f b l[i] = .ok b' ∧ inv (i + 1) b')
    (start : inv 0 init) (final : ∀ b, inv l.length b → R b) :
    ∃ b, l.foldlM f init = .ok b ∧ R b := by
  induction l generalizing init inv with
  | nil => exact ⟨init, rfl, final init start⟩
  | cons a rest ih =>
    obtain ⟨b, first, kept⟩ := step 0 (by simp) init start
    obtain ⟨b', loop, holds⟩ := ih (fun i => inv (i + 1))
      (fun i lt c => step (i + 1) (by simp; omega) c) kept (fun c => final c)
    refine ⟨b', ?_, holds⟩
    rw [List.foldlM_cons]
    simp only [List.getElem_cons_zero] at first
    rw [first]
    exact loop

/-- A map whose every call returns returns the list of the answers. -/
theorem mapM_ok {l : List α} {f : α → Except ε β} {g : α → β} (all : ∀ a ∈ l, f a = .ok (g a)) :
    l.mapM f = .ok (l.map g) := by
  induction l with
  | nil => rfl
  | cons a rest ih =>
    rw [List.mapM_cons, all a List.mem_cons_self, ih fun x member => all x (List.mem_cons_of_mem _ member)]
    rfl

end Loops

namespace Signal

/-- The table of a signal from the table of its node. -/
def onTable (s : Signal) (t : TruthTable) : TruthTable := if s.isComplemented then t.not else t

/-- The signal on the node that `ρ` gives for its node, with the same polarity. -/
def rename (ρ : Node → Node) (s : Signal) : Signal := make (ρ s.node) s.isComplemented

@[simp] theorem node_rename (ρ : Node → Node) (s : Signal) : (s.rename ρ).node = ρ s.node := by
  simp [rename]

@[simp] theorem isComplemented_rename (ρ : Node → Node) (s : Signal) :
    (s.rename ρ).isComplemented = s.isComplemented := by
  simp [rename]

theorem onTable_fits {n : Nat} {t : TruthTable} (s : Signal) (fits : TruthTable.Fits n t) :
    TruthTable.Fits n (s.onTable t) := by
  unfold onTable
  split
  · exact TruthTable.not_fits fits
  · exact fits

end Signal

namespace Fanins

/-- The majority of the fan-ins' tables, each taken through its signal's polarity. -/
def majTable (tab : Node → TruthTable) (f : Fanins) : Except Fault TruthTable :=
  TruthTable.maj (f.a.onTable (tab f.a.node)) (f.b.onTable (tab f.b.node))
    (f.c.onTable (tab f.c.node))

variable {n : Nat} {tab tab' : Node → TruthTable} {f : Fanins}

theorem majTable_congr (same : ∀ s ∈ f.toList, tab s.node = tab' s.node) :
    f.majTable tab = f.majTable tab' := by
  simp only [majTable, same f.a (by simp [toList]), same f.b (by simp [toList]),
    same f.c (by simp [toList])]

section Widths

theorem majTable_fits (fits : ∀ s ∈ f.toList, TruthTable.Fits n (tab s.node)) :
    ∃ t, f.majTable tab = .ok t ∧ TruthTable.Fits n t := by
  have fa := f.a.onTable_fits (fits f.a (by simp [toList]))
  have fb := f.b.onTable_fits (fits f.b (by simp [toList]))
  have fc := f.c.onTable_fits (fits f.c (by simp [toList]))
  exact ⟨_, TruthTable.maj_of_fits fa fb fc,
    TruthTable.maj_fits fa fb fc (TruthTable.maj_of_fits fa fb fc)⟩

theorem order2_forall {P : Signal → Prop} {x y : Signal} (px : P x) (py : P y) :
    P (order2 x y).1 ∧ P (order2 x y).2 := by
  unfold order2
  split
  · exact ⟨py, px⟩
  · exact ⟨px, py⟩

variable {a b c : Signal} (fa : TruthTable.Fits n (tab a.node)) (fb : TruthTable.Fits n (tab b.node))
  (fc : TruthTable.Fits n (tab c.node))
include fa fb fc

theorem majTable_order2_left :
    (⟨(order2 a b).1, (order2 a b).2, c⟩ : Fanins).majTable tab = (⟨a, b, c⟩ : Fanins).majTable tab := by
  unfold order2
  split
  · exact TruthTable.maj_swap_left (b.onTable_fits fb) (a.onTable_fits fa) (c.onTable_fits fc)
  · rfl

theorem majTable_order2_right :
    (⟨a, (order2 b c).1, (order2 b c).2⟩ : Fanins).majTable tab = (⟨a, b, c⟩ : Fanins).majTable tab := by
  unfold order2
  split
  · exact TruthTable.maj_swap_right (a.onTable_fits fa) (c.onTable_fits fc) (b.onTable_fits fb)
  · rfl

omit fa fb fc

/-- Sorting the fan-ins keeps the majority of their tables. -/
theorem majTable_sort (fits : ∀ s ∈ f.toList, TruthTable.Fits n (tab s.node)) :
    f.sort.majTable tab = f.majTable tab := by
  have fa := fits f.a (by simp [toList])
  have fb := fits f.b (by simp [toList])
  have fc := fits f.c (by simp [toList])
  -- the three compare-and-swap steps of the sort, each on tables of one width
  obtain ⟨first₁, first₂⟩ := order2_forall (P := fun s => TruthTable.Fits n (tab s.node)) fa fb
  obtain ⟨second₁, second₂⟩ := order2_forall (P := fun s => TruthTable.Fits n (tab s.node)) first₂ fc
  rw [sort_eq]
  dsimp only
  rw [majTable_order2_left first₁ second₁ second₂, majTable_order2_right first₁ first₂ fc,
    majTable_order2_left fa fb fc]

end Widths

/-- Renaming the fan-ins' nodes keeps the majority of their tables when each renamed node has
the table of the node it renames. -/
theorem majTable_map_rename {ρ : Node → Node}
    (same : ∀ s ∈ f.toList, tab' (ρ s.node) = tab s.node) :
    (f.map (Signal.rename ρ)).majTable tab' = f.majTable tab := by
  simp only [majTable, map, Signal.onTable, Signal.node_rename, Signal.isComplemented_rename,
    same f.a (by simp [toList]), same f.b (by simp [toList]), same f.c (by simp [toList])]

end Fanins

namespace TruthTable

theorem nthVar_fits {n i : Nat} {t : TruthTable} (run : nthVar n i = .ok t) : Fits n t := by
  by_cases lt : i < n
  · by_cases le : n ≤ maxVars
    · obtain ⟨t', run', fits⟩ := nthVar_of_lt lt le
      rw [run'] at run
      cases run
      exact fits
    · simp [nthVar, Nat.not_le.mpr lt, new_of_gt (Nat.lt_of_not_le le)] at run
      cases run
  · simp [nthVar, Nat.not_lt.mp lt] at run
    cases run

end TruthTable

namespace Simulation

variable {ν : Type} [LogicNetwork ν] {ntk : ν}

/-- A network with more than `maxVars` inputs is not simulated: its projections cannot be made. -/
theorem simulate_of_wide (wide : TruthTable.maxVars < LogicNetwork.numPis ntk) :
    simulate ntk = .error (.tooManyVariables (LogicNetwork.numPis ntk)) := by
  have start : startValues (LogicNetwork.numPis ntk) (LogicNetwork.pis ntk) =
      .error (.tooManyVariables (LogicNetwork.numPis ntk)) := by
    simp only [startValues]
    rw [TruthTable.constant_of_gt false wide]
    rfl
  simp only [simulate, simulateNodes]
  show ((startValues _ _ >>= _) >>= _) = _
  rw [start]
  rfl

end Simulation

namespace Network

open Simulation TruthTable

variable {net : Network}

-----------------------------------------------------------------------------------------
-- The kinds of nodes
-----------------------------------------------------------------------------------------

theorem valueAt_of_gateFanins {n : Node} {f : Fanins} (gate : net.gateFanins n = some f) :
    net.table.valueAt n.id = some (NodeData.majority f) := by
  obtain ⟨c, _, cell, _, value, _⟩ := gateFanins_eq_some.mp gate
  simp [UniqueTable.valueAt, cell, value]

theorem Coherent.gateFanins_constant (coherent : net.Coherent) :
    net.gateFanins Node.constant = none := by
  cases gate : net.gateFanins Node.constant with
  | none => rfl
  | some f =>
    have := coherent.constant
    rw [show (0 : Nat) = Node.constant.id from rfl, valueAt_of_gateFanins gate] at this
    cases this

theorem Coherent.gateFanins_input (coherent : net.Coherent) {n : Node} (input : n ∈ net.inputs) :
    net.gateFanins n = none := by
  cases gate : net.gateFanins n with
  | none => rfl
  | some f =>
    have := (coherent.inputs n).mp input
    rw [valueAt_of_gateFanins gate] at this
    cases this

theorem Coherent.constant_not_input (coherent : net.Coherent) : Node.constant ∉ net.inputs := by
  intro input
  have := (coherent.inputs _).mp input
  rw [show Node.constant.id = 0 from rfl, coherent.constant] at this
  cases this

/-- A live node is the constant, an input or a live gate. -/
theorem Coherent.live_cases (coherent : net.Coherent) {n : Node} (live : net.Live n) :
    n = Node.constant ∨ n ∈ net.inputs ∨ (net.gateFanins n).isSome := by
  have below := coherent.lt_size_of_live live
  obtain ⟨r, uses, alive⟩ := live
  obtain ⟨c, cell⟩ : ∃ c, net.table.cells[n.id]? = some c := ⟨_, Array.getElem?_eq_getElem below⟩
  have value : net.table.valueAt n.id = some c.value := by simp [UniqueTable.valueAt, cell]
  cases kind : c.value.kind with
  | constant => exact .inl (congrArg Node.mk (coherent.onlyConstant n.id c.value value kind))
  | input =>
    rw [coherent.inputRecord n.id c.value value kind] at value
    exact .inr (.inl ((coherent.inputs n).mpr value))
  | majority =>
    refine .inr (.inr ?_)
    simp [gateFanins, cell, uses, alive, NodeData.isGate, kind]

/-- The constant, the inputs and the live gates of a coherent network are distinct nodes. -/
theorem Coherent.counts_le_size (coherent : net.Coherent) :
    1 + net.inputs.size + net.numGates ≤ net.size := by
  let gates := (List.range net.size).filter fun i => (net.gateFanins ⟨i⟩).isSome
  have inputNotGate : ∀ n ∈ net.inputs.toList, net.gateFanins n = none := fun n member =>
    coherent.gateFanins_input (Array.mem_toList_iff.mp member)
  have inputNotConstant : ∀ n ∈ net.inputs.toList, n.id ≠ 0 := fun n member same => by
    have := coherent.constant_not_input
    rw [show Node.constant = n from Node.eq_of_id_eq same.symm] at this
    exact this (Array.mem_toList_iff.mp member)
  -- the ids of the constant, the inputs and the live gates, each once, all below the size
  have nodup : (0 :: (net.inputs.toList.map Node.id ++ gates)).Nodup := by
    refine List.nodup_cons.mpr ⟨fun member => ?_, List.nodup_append.mpr
      ⟨coherent.inputsNodup.map fun _ _ same => Node.eq_of_id_eq same, List.nodup_range.filter _,
        fun i input j gate same => ?_⟩⟩
    · rcases List.mem_append.mp member with input | gate
      · obtain ⟨n, inInputs, same⟩ := List.mem_map.mp input
        exact inputNotConstant n inInputs same
      · have isGate := (List.mem_filter.mp gate).2
        rw [show (⟨0⟩ : Node) = Node.constant from rfl, coherent.gateFanins_constant] at isGate
        cases isGate
    · obtain ⟨n, inInputs, rfl⟩ := List.mem_map.mp input
      have isGate := (List.mem_filter.mp gate).2
      rw [← same, inputNotGate n inInputs] at isGate
      cases isGate
  have within : ∀ i ∈ 0 :: (net.inputs.toList.map Node.id ++ gates), i ∈ List.range net.size := by
    intro i member
    rcases List.mem_cons.mp member with rfl | member
    · exact List.mem_range.mpr (lt_size_of_valueAt coherent.constant)
    rcases List.mem_append.mp member with input | gate
    · obtain ⟨n, inInputs, rfl⟩ := List.mem_map.mp input
      exact List.mem_range.mpr
        (lt_size_of_valueAt ((coherent.inputs n).mp (Array.mem_toList_iff.mp inInputs)))
    · exact (List.mem_filter.mp gate).1
  have le := (List.subperm_of_subset nodup within).length_le
  simp only [List.length_cons, List.length_append, List.length_map, Array.length_toList,
    List.length_range] at le
  rw [coherent.numGates]
  show 1 + net.inputs.size + gates.length ≤ net.size
  omega

/-- The count of dead nodes of a coherent network never runs below zero. -/
theorem Coherent.numDead_eq (coherent : net.Coherent) :
    net.numDead = .ok (net.size - 1 - net.inputs.size - net.numGates) := by
  rw [numDead, if_pos coherent.counts_le_size]

theorem index_eq_of_nodup {l : List Node} (nodup : l.Nodup) {i j : Nat} {n : Node}
    (first : l[i]? = some n) (second : l[j]? = some n) : i = j := by
  obtain ⟨lt, at_i⟩ := List.getElem?_eq_some_iff.mp first
  obtain ⟨lt', at_j⟩ := List.getElem?_eq_some_iff.mp second
  exact (nodup.getElem_inj_iff).mp (at_i.trans at_j.symm)

-----------------------------------------------------------------------------------------
-- Tables of nodes
-----------------------------------------------------------------------------------------

/-- `TableOf net n t`: `t` is the function of node `n` over the inputs of `net`, input `i` being
variable `i`. -/
inductive TableOf (net : Network) : Node → TruthTable → Prop
  | constant : TableOf net Node.constant (zeros net.numPis)
  | input {i : Nat} {n : Node} {t : TruthTable} : net.inputs[i]? = some n →
      nthVar net.numPis i = .ok t → TableOf net n t
  | gate {g : Node} {f : Fanins} {t : TruthTable} (tab : Node → TruthTable) :
      net.gateFanins g = some f → (∀ s ∈ f.toList, TableOf net s.node (tab s.node)) →
      f.majTable tab = .ok t → TableOf net g t

theorem TableOf.fits {n : Node} {t : TruthTable} (table : net.TableOf n t) : Fits net.numPis t := by
  induction table with
  | constant => exact zeros_fits _
  | input _ run => exact nthVar_fits run
  | gate tab _ _ run ih =>
    obtain ⟨t', run', fits⟩ := Fanins.majTable_fits ih
    rw [run'] at run
    cases run
    exact fits

/-- A node of a coherent network has at most one table. -/
theorem TableOf.unique (coherent : net.Coherent) {n : Node} {t t' : TruthTable}
    (first : net.TableOf n t) (second : net.TableOf n t') : t = t' := by
  induction first generalizing t' with
  | constant =>
    cases second with
    | constant => rfl
    | input member _ => exact absurd (Array.mem_of_getElem? member) coherent.constant_not_input
    | gate _ gate _ _ => simp [coherent.gateFanins_constant] at gate
  | input member run =>
    cases second with
    | constant => exact absurd (Array.mem_of_getElem? member) coherent.constant_not_input
    | input member' run' =>
      have same := index_eq_of_nodup coherent.inputsNodup (by simpa using member)
        (by simpa using member')
      subst same
      rw [run] at run'
      cases run'
      rfl
    | gate _ gate _ _ => simp [coherent.gateFanins_input (Array.mem_of_getElem? member)] at gate
  | gate tab gate _ run ih =>
    cases second with
    | constant => simp [coherent.gateFanins_constant] at gate
    | input member _ => simp [coherent.gateFanins_input (Array.mem_of_getElem? member)] at gate
    | gate tab' gate' fanins' run' =>
      rw [gate] at gate'
      cases gate'
      rw [Fanins.majTable_congr fun s member => ih s member (fanins' s member), run'] at run
      cases run
      rfl

-----------------------------------------------------------------------------------------
-- The value map of a simulation
-----------------------------------------------------------------------------------------

/-- Every entry of a value map is the table of its node. -/
def Tabled (net : Network) (values : Values) : Prop :=
  ∀ i t, values[i]? = some t → net.TableOf ⟨i⟩ t

theorem Tabled.insert {values : Values} (tabled : net.Tabled values) {n : Node} {t : TruthTable}
    (table : net.TableOf n t) : net.Tabled (values.insert n.id t) := by
  intro i t' found
  rw [Std.HashMap.getElem?_insert] at found
  split at found
  · rename_i same
    cases found
    rw [show i = n.id from (beq_iff_eq.mp same).symm]
    exact table
  · exact tabled i t' found

/-- The start of a simulation: the constant 0 table on the constant node and the projections on
the inputs. -/
theorem startValues_tabled (le : net.numPis ≤ maxVars) :
    ∃ values, Simulation.startValues net.numPis net.inputs = .ok values ∧ net.Tabled values ∧
      0 ∈ values ∧ ∀ n ∈ net.inputs, n.id ∈ values := by
  simp only [Simulation.startValues, constant_false_of_le le, except_ok_bind, bind_pure]
  refine forIn_ok (fun k values => net.Tabled values ∧ 0 ∈ values ∧
      ∀ i < k, (net.inputs.getD i default).id ∈ values) ?_ ?_ ?_
  · intro k lt values ⟨tabled, zero, inputs⟩
    simp only [List.length_range] at lt
    obtain ⟨t, run, -⟩ := nthVar_of_lt (n := net.numPis) lt le
    simp only [List.getElem_range, run]
    refine ⟨_, rfl, ?_, ?_, ?_⟩
    · refine tabled.insert (.input ?_ run)
      simp [Array.getD_eq_getD_getElem?, Array.getElem?_eq_getElem lt]
    · exact Std.HashMap.mem_insert.mpr (.inr zero)
    · intro i lt'
      rcases Nat.lt_succ_iff_lt_or_eq.mp lt' with earlier | rfl
      · exact Std.HashMap.mem_insert.mpr (.inr (inputs i earlier))
      · exact Std.HashMap.mem_insert.mpr (.inl (beq_self_eq_true _))
  · refine ⟨?_, Std.HashMap.mem_insert.mpr (.inl rfl), fun _ lt => absurd lt (Nat.not_lt_zero _)⟩
    intro i t found
    rw [Std.HashMap.getElem?_insert] at found
    split at found
    · rename_i same
      cases found
      rw [← beq_iff_eq.mp same]
      exact .constant
    · simp at found
  · rintro values ⟨tabled, zero, inputs⟩
    refine ⟨tabled, zero, fun n member => ?_⟩
    obtain ⟨i, lt, rfl⟩ := Array.mem_iff_getElem.mp member
    simpa [Array.getD_eq_getD_getElem?, Array.getElem?_eq_getElem lt] using
      inputs i (by simpa using lt)

/-- A known entry is read back by a lookup with a default. -/
theorem lookup_known {values : Values} {i : Nat} (known : i ∈ values) (d : TruthTable) :
    values[i]? = some (values[i]?.getD d) := by
  rw [Std.HashMap.getElem?_eq_some_getElem known]
  rfl

/-- A live gate whose fan-ins have entries is evaluated to its table. -/
theorem Tabled.evaluate {values : Values} (tabled : net.Tabled values) {g : Node} {f : Fanins}
    (gate : net.gateFanins g = some f) (known : ∀ s ∈ f.toList, s.node.id ∈ values) :
    ∃ t, Simulation.evaluate net g values = .ok t ∧ net.TableOf g t := by
  let tab : Node → TruthTable := fun m => values[m.id]?.getD (zeros net.numPis)
  have tables : ∀ s ∈ f.toList, net.TableOf s.node (tab s.node) :=
    fun s member => tabled _ _ (lookup_known (known s member) _)
  obtain ⟨t, run, -⟩ := Fanins.majTable_fits fun s member => (tables s member).fits
  refine ⟨t, ?_, .gate tab gate tables run⟩
  simp only [Simulation.evaluate, fanins_of_gateFanins gate, except_ok_bind]
  rw [mapM_ok (g := fun s => tab s.node) fun s member => ?lookup]
  · show net.computeGate g _ = _
    simp only [computeGate]
    rw [show net.fanins g = .ok f.toList from fanins_of_gateFanins gate]
    exact run
  · rw [Std.HashMap.get?_eq_getElem?, lookup_known (known s member) (zeros net.numPis)]

/-- On a coherent network with at most `maxVars` inputs, the simulation gives the constant, every
input and every gate that the outputs reach their tables. -/
theorem Coherent.simulateNodes (coherent : net.Coherent) (le : net.numPis ≤ maxVars) :
    ∃ values, Simulation.simulateNodes net = .ok values ∧ net.Tabled values ∧
      0 ∈ values ∧ (∀ n ∈ net.inputs, n.id ∈ values) ∧
      ∀ g, (net.gateFanins g).isSome → (∃ s ∈ net.outputs, net.Reaches s.node g) → g.id ∈ values := by
  obtain ⟨start, started, tabled, zero, inputs⟩ := startValues_tabled le
  obtain ⟨order, walk, topological, listed⟩ := coherent.topologicalOrder
  simp only [Simulation.simulateNodes]
  show ∃ values, (Simulation.startValues net.numPis net.inputs >>= fun values =>
    Simulation.topologicalOrder net >>= fun order => order.foldlM _ values) = _ ∧ _
  rw [started, walk]
  simp only [bind, Except.bind, ← Array.foldlM_toList]
  refine foldlM_ok (fun k values => net.Tabled values ∧ 0 ∈ values ∧
      (∀ n ∈ net.inputs, n.id ∈ values) ∧ ∀ j (lt : j < k) (lt' : j < order.toList.length),
        order.toList[j].id ∈ values) ?_ ⟨tabled, zero, inputs, fun _ lt => absurd lt (Nat.not_lt_zero _)⟩ ?_
  · intro k lt values ⟨tabled, zero, inputs, earlier⟩
    have member : order.toList[k] ∈ order.toList := List.getElem_mem lt
    obtain ⟨f, gate⟩ := Option.isSome_iff_exists.mp ((listed _).mp member).1
    have known : ∀ s ∈ f.toList, s.node.id ∈ values := by
      intro s sMember
      rcases coherent.live_cases (coherent.faninsLive _ f gate s sMember) with constant | input | isGate
      · rw [constant]
        exact zero
      · exact inputs _ input
      · obtain ⟨j, before, atJ⟩ := coherent.fanin_earlier topological lt gate sMember isGate
        obtain ⟨lt', same⟩ := List.getElem?_eq_some_iff.mp atJ
        rw [← same]
        exact earlier j before lt'
    obtain ⟨t, run, table⟩ := tabled.evaluate gate known
    refine ⟨_, by rw [run]; rfl, tabled.insert table, Std.HashMap.mem_insert.mpr (.inr zero),
      fun n member => Std.HashMap.mem_insert.mpr (.inr (inputs n member)), fun j lt' lt'' => ?_⟩
    rcases Nat.lt_succ_iff_lt_or_eq.mp lt' with before | rfl
    · exact Std.HashMap.mem_insert.mpr (.inr (earlier j before lt''))
    · exact Std.HashMap.mem_insert.mpr (.inl (beq_self_eq_true _))
  · rintro values ⟨tabled, zero, inputs, all⟩
    refine ⟨tabled, zero, inputs, fun g gate reached => ?_⟩
    obtain ⟨j, lt, rfl⟩ := List.getElem_of_mem ((listed g).mpr ⟨gate, reached⟩)
    exact all j lt lt

/-- On a coherent network with at most `maxVars` inputs, the simulation gives every output the
table of its signal. -/
theorem Coherent.simulate (coherent : net.Coherent) (le : net.numPis ≤ maxVars) :
    ∃ tables : Array TruthTable, Simulation.simulate net = .ok tables ∧
      tables.size = net.outputs.size ∧ ∀ (i : Nat) (s : Signal), net.outputs[i]? = some s →
        ∃ t, net.TableOf s.node t ∧ tables[i]? = some (s.onTable t) := by
  obtain ⟨values, run, tabled, zero, inputs, gates⟩ := coherent.simulateNodes le
  have known : ∀ s ∈ net.outputs, s.node.id ∈ values := by
    intro s output
    rcases coherent.live_cases (coherent.outputsLive s output) with constant | input | gate
    · rw [constant]
      exact zero
    · exact inputs _ input
    · exact gates _ gate ⟨s, output, .refl _⟩
  let tab : Node → TruthTable := fun m => values[m.id]?.getD (zeros net.numPis)
  have tables : ∀ s ∈ net.outputs, values[s.node.id]? = some (tab s.node) :=
    fun s output => lookup_known (known s output) _
  have lookups : net.outputs.toList.mapM (signalValue values) =
      .ok (net.outputs.toList.map fun s : Signal => s.onTable (tab s.node)) := by
    refine mapM_ok fun s output => ?_
    simp [signalValue, Signal.onTable, tables s (Array.mem_toList_iff.mp output)]
  refine ⟨(net.outputs.toList.map fun s : Signal => s.onTable (tab s.node)).toArray, ?_, by simp, ?_⟩
  · simp only [Simulation.simulate, run, except_ok_bind]
    show Array.mapM (signalValue values) net.outputs = _
    rw [Array.mapM_eq_mapM_toList, lookups]
    rfl
  · intro i s output
    refine ⟨tab s.node, ?_, by simp [output]⟩
    have found := tables s (Array.mem_of_getElem? output)
    exact tabled _ _ found

-----------------------------------------------------------------------------------------
-- Consistent valuations exist
-----------------------------------------------------------------------------------------

section Valuations

variable {rank : Node → Nat}

/-- Values under the input assignment `x`, looking `depth` levels of fan-in down: an input takes
its variable and a live gate the majority of its fan-ins; other nodes, and every node once the
depth runs out, are false. -/
def valueUpTo (net : Network) (x : Nat → Bool) : Nat → Node → Bool
  | 0, _ => false
  | depth + 1, n =>
    match net.gateFanins n with
    | some f => f.eval (net.valueUpTo x depth)
    | none => decide (n ∈ net.inputs) && x (net.inputs.toList.idxOf n)

variable {n : Node} {f : Fanins}

theorem valueUpTo_gate (gate : net.gateFanins n = some f) (x : Nat → Bool) (depth : Nat) :
    net.valueUpTo x (depth + 1) n = f.eval (net.valueUpTo x depth) := by
  simp [valueUpTo, gate]

theorem valueUpTo_leaf (leaf : net.gateFanins n = none) (x : Nat → Bool) (depth : Nat) :
    net.valueUpTo x (depth + 1) n = (decide (n ∈ net.inputs) && x (net.inputs.toList.idxOf n)) := by
  simp [valueUpTo, leaf]

/-- Looking deeper than a node's rank changes nothing. The induction is on the depth; a gate's
fan-ins rank below it, so they are looked up deep enough on both sides. -/
theorem valueUpTo_stable (ranked : net.Ranked rank) (x : Nat → Bool) :
    ∀ d d' n, rank n < d → rank n < d' → net.valueUpTo x d n = net.valueUpTo x d' n := by
  intro d
  induction d with
  | zero => intro _ _ below; omega
  | succ d ih =>
    intro d' n below below'
    obtain ⟨e, rfl⟩ : ∃ e, d' = e + 1 := ⟨d' - 1, by omega⟩
    cases gate : net.gateFanins n with
    | none => rw [valueUpTo_leaf gate, valueUpTo_leaf gate]
    | some f =>
      rw [valueUpTo_gate gate, valueUpTo_gate gate]
      refine Fanins.eval_congr_of_mem fun s member => ?_
      have lower := ranked n f gate s member
      exact ih e s.node (by omega) (by omega)

/-- On a coherent network every input assignment has a consistent valuation: each node's value
looked up as deep as its rank. -/
theorem Coherent.exists_consistent (coherent : net.Coherent) (x : Nat → Bool) :
    ∃ val, net.Consistent x val := by
  obtain ⟨rank, ranked⟩ := coherent.acyclic
  refine ⟨fun n => net.valueUpTo x (rank n + 1) n, ?_, fun i n input => ?_, fun g f gate => ?_⟩
  · -- the constant is neither a gate nor an input
    have notInput := coherent.constant_not_input
    show net.valueUpTo x (rank Node.constant + 1) Node.constant = false
    simp [valueUpTo_leaf coherent.gateFanins_constant, notInput]
  · have member : n ∈ net.inputs := Array.mem_of_getElem? input
    obtain ⟨lt, rfl⟩ := Array.getElem?_eq_some_iff.mp input
    have index : net.inputs.toList.idxOf net.inputs[i] = i := by
      have same := coherent.inputsNodup.idxOf_getElem i (by simpa using lt)
      rwa [Array.getElem_toList] at same
    simp [valueUpTo_leaf (coherent.gateFanins_input member), member, index]
  · show net.valueUpTo x (rank g + 1) g = _
    rw [valueUpTo_gate gate]
    refine Fanins.eval_congr_of_mem fun s member => ?_
    have lower := ranked g f gate s member
    exact valueUpTo_stable ranked x _ _ _ (by omega) (by omega)

end Valuations

/-- A network with more than `maxVars` inputs is not simulated. -/
theorem simulate_of_gt (gt : maxVars < net.numPis) :
    Simulation.simulate net = .error (.tooManyVariables net.numPis) :=
  Simulation.simulate_of_wide gt

end Network

end MajorityGraph
