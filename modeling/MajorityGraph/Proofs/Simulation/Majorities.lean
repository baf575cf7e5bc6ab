import MajorityGraph.Proofs.Simulation.Values
import MajorityGraph.Proofs.TruthTable.Words
import MajorityGraph.Proofs.Network.HashConsing

/-!
The functions of nodes and signals as truth tables; `createMaj` computes the majority of what
its arguments compute.
-/

namespace MajorityGraph

namespace TruthTable

variable {n i : Nat} {t : TruthTable}

/-- From six variables on every bit of every word holds a value. -/
theorem valid_of_ge (fits : Fits n t) (ge : 6 ≤ n) : Valid n t :=
  ⟨fits, fun i => by rw [liveMask_of_ge ge, and_allOnes]⟩

/-- Clearing the bits above `2 ^ n` makes a table over `n` variables as the library builds it. -/
theorem masked_valid (fits : Fits n t) : Valid n t.masked := by
  obtain ⟨width, size⟩ := fits
  by_cases few : n < 6
  · -- a single word, cleared above its live bits
    have single : t.words.size = 1 := by rw [size, wordCount_of_lt few]
    refine ⟨masked_fits ⟨width, size⟩, fun i => ?_⟩
    rcases Nat.eq_zero_or_pos i with rfl | pos
    · simp [masked, word, width, few, Array.getD_eq_getD_getElem?, single, Array.getElem_modify,
        masked_and_self]
    · have outside : (t.words.modify 0 fun x => x &&& liveMask n).size ≤ i := by
        simp only [Array.size_modify, single]
        exact pos
      have beyond : t.masked.word i = 0 := by
        simp [masked, word, width, few, Array.getD_eq_getD_getElem?, Array.getElem?_eq_none outside]
      rw [beyond]
      exact UInt64.zero_and
  · have unmasked : t.masked = t := by simp [masked, width, few]
    rw [unmasked]
    exact valid_of_ge ⟨width, size⟩ (Nat.le_of_not_lt few)

/-- A table that masking leaves alone is valid: how a table written out by hand is checked. -/
theorem valid_of_masked (fits : Fits n t) (same : t.masked = t) : Valid n t :=
  same ▸ masked_valid fits

/-- A projection is a table over `n` variables as the library builds it. -/
theorem nthVar_valid (run : nthVar n i = .ok t) : Valid n t := by
  have fits := nthVar_fits run
  by_cases few : n < 6
  · have lt : i < n := by
      by_contra ge
      simp [nthVar, Nat.le_of_not_lt ge] at run
      cases run
    have narrow : n ≤ maxVars := by unfold maxVars; omega
    simp only [nthVar, Nat.not_le.mpr lt, new_of_le narrow, Nat.lt_trans lt few] at run
    cases run
    exact masked_valid (by simp [Fits, zeros])
  · exact valid_of_ge fits (Nat.le_of_not_lt few)

end TruthTable

open TruthTable

namespace Signal

variable {n : Nat} {t : TruthTable}

theorem onTable_valid (s : Signal) (v : Valid n t) : Valid n (s.onTable t) := by
  unfold onTable
  split
  · exact v.not
  · exact v

theorem onTable_complement (s : Signal) (v : Valid n t) :
    s.complement.onTable t = (s.onTable t).not := by
  cases c : s.isComplemented <;> simp [onTable, c, v.not_not]

theorem onTable_xor (s : Signal) (b : Bool) (v : Valid n t) :
    (s.xor b).onTable t = if b then (s.onTable t).not else s.onTable t := by
  cases b <;> simp [Signal.xor, s.onTable_complement v]

end Signal

namespace Fanins

variable {n : Nat} {tab : Node → TruthTable} {f g : Fanins}

/-- The majority of valid tables is built, and is valid. -/
theorem majTable_valid (valid : ∀ s ∈ f.toList, Valid n (tab s.node)) :
    ∃ t, f.majTable tab = .ok t ∧ Valid n t := by
  have va := f.a.onTable_valid (valid f.a (by simp [toList]))
  have vb := f.b.onTable_valid (valid f.b (by simp [toList]))
  have vc := f.c.onTable_valid (valid f.c (by simp [toList]))
  exact ⟨_, (va.maj vb vc).1, (va.maj vb vc).2⟩

/-- Complementing the three fan-ins complements the majority of their tables. -/
theorem majTable_map_complement (valid : ∀ s ∈ f.toList, Valid n (tab s.node)) {t : TruthTable}
    (run : f.majTable tab = .ok t) : (f.map Signal.complement).majTable tab = .ok t.not := by
  have va := valid f.a (by simp [toList])
  have vb := valid f.b (by simp [toList])
  have vc := valid f.c (by simp [toList])
  simp only [majTable, map, Signal.node_complement, f.a.onTable_complement va,
    f.b.onTable_complement vb, f.c.onTable_complement vc]
  exact maj_not (f.a.onTable_valid va) (f.b.onTable_valid vb) (f.c.onTable_valid vc) run

/-- When two fan-ins share a node, the majority of the tables is the table of the signal that
the normal form returns: equal signals decide it, opposite ones cancel. -/
theorem majTable_of_normalize_trivial (valid : ∀ s ∈ f.toList, Valid n (tab s.node)) {s : Signal}
    (trivial : f.normalize = .trivial s) : f.majTable tab = .ok (s.onTable (tab s.node)) := by
  rw [← majTable_sort fun s member => (valid s member).fits]
  have sorted : ∀ s ∈ f.sort.toList, Valid n (tab s.node) :=
    fun s member => valid s ((sort_perm f).subset member)
  unfold normalize at trivial
  generalize f.sort = h at trivial sorted
  obtain ⟨a, b, c⟩ := h
  have va := sorted a (by simp [toList])
  have vb := sorted b (by simp [toList])
  have vc := sorted c (by simp [toList])
  dsimp only at trivial
  by_cases ab : a.node = b.node
  · rw [if_pos ab] at trivial
    cases trivial
    by_cases same : a = b
    · subst same
      rw [if_pos rfl]
      exact maj_same (Signal.onTable_valid _ va) (Signal.onTable_valid _ vc)
    · rw [if_neg same, Signal.eq_complement_of_node_eq ab same]
      simp only [majTable, Signal.node_complement, Signal.onTable_complement _ va]
      exact maj_opposite (Signal.onTable_valid _ va) (Signal.onTable_valid _ vc)
  · rw [if_neg ab] at trivial
    by_cases bc : b.node = c.node
    · rw [if_pos bc] at trivial
      cases trivial
      by_cases same : b = c
      · subst same
        rw [if_pos rfl]
        exact maj_same_right (Signal.onTable_valid _ va) (Signal.onTable_valid _ vb)
      · rw [if_neg same, Signal.eq_complement_of_node_eq bc same]
        simp only [majTable, Signal.node_complement, Signal.onTable_complement _ vb]
        exact maj_opposite_right (Signal.onTable_valid _ va) (Signal.onTable_valid _ vb)
    · rw [if_neg bc] at trivial
      split at trivial <;> cases trivial

/-- When the fan-ins are on three nodes, the majority of their tables is the majority over the
normal form, complemented with its flag. -/
theorem majTable_of_normalize_gate (valid : ∀ s ∈ f.toList, Valid n (tab s.node)) {c : Bool}
    (gate : f.normalize = .gate g c) :
    ∃ t, g.majTable tab = .ok t ∧ f.majTable tab = .ok (if c then t.not else t) := by
  have sorted : ∀ s ∈ f.sort.toList, Valid n (tab s.node) :=
    fun s member => valid s ((sort_perm f).subset member)
  obtain ⟨t, run, vt⟩ := majTable_valid sorted
  obtain ⟨-, -, rfl, -⟩ := normalize_eq_gate gate
  rw [← majTable_sort fun s member => (valid s member).fits, run]
  cases c with
  | false => exact ⟨t, run, rfl⟩
  | true => exact ⟨t.not, majTable_map_complement sorted run, by rw [if_pos rfl, vt.not_not]⟩

end Fanins

namespace Network

open NetM

variable {net net' : Network} {n : Node} {t : TruthTable}

-----------------------------------------------------------------------------------------
-- Tables of nodes
-----------------------------------------------------------------------------------------

/-- The table of a node is a table over the network's inputs as the library builds it. -/
theorem TableOf.valid (table : net.TableOf n t) : Valid net.numPis t := by
  induction table with
  | constant => exact zeros_valid _
  | input _ run => exact nthVar_valid run
  | gate tab _ _ run ih =>
    obtain ⟨t', run', valid⟩ := Fanins.majTable_valid ih
    rw [run'] at run
    cases run
    exact valid

/-- A node keeps its table in every network that grows from its own. -/
theorem TableOf.grows (grows : Grows net net') (table : net.TableOf n t) : net'.TableOf n t := by
  have numPis : net'.numPis = net.numPis := by simp [numPis, grows.inputs]
  induction table with
  | constant => exact numPis ▸ .constant
  | input member run =>
    exact .input (by rw [grows.inputs]; exact member) (by rw [numPis]; exact run)
  | gate tab gate _ run ih =>
    exact .gate tab (by rw [grows.gates _ (lt_size_of_gateFanins gate)]; exact gate) ih run

/-- A live gate whose fan-ins have tables has one. -/
theorem TableOf.of_fanins {g : Node} {f : Fanins} (gate : net.gateFanins g = some f)
    (tables : ∀ s ∈ f.toList, ∃ t, net.TableOf s.node t) : ∃ t, net.TableOf g t := by
  classical
  -- one table per node, chosen where there is one
  let tab : Node → TruthTable := fun m => if h : ∃ t, net.TableOf m t then h.choose else zeros 0
  have tabled : ∀ s ∈ f.toList, net.TableOf s.node (tab s.node) := by
    intro s member
    have known := tables s member
    simp only [tab, dif_pos known]
    exact known.choose_spec
  obtain ⟨t, run, -⟩ := Fanins.majTable_fits fun s member => (tabled s member).fits
  exact ⟨t, .gate tab gate tabled run⟩

/-- In a coherent network of at most `maxVars` inputs every live node has a table. The
induction is on a rank that falls from each live gate to its fan-ins. -/
theorem Coherent.tableOf_live (coherent : net.Coherent) (narrow : net.numPis ≤ maxVars)
    (live : net.Live n) : ∃ t, net.TableOf n t := by
  obtain ⟨rank, ranked⟩ := coherent.acyclic
  suffices below : ∀ k, ∀ m, rank m = k → net.Live m → ∃ t, net.TableOf m t from
    below _ n rfl live
  intro k
  induction k using Nat.strongRecOn with
  | ind k ih =>
    intro m ranked_m live_m
    rcases coherent.live_cases live_m with rfl | input | isGate
    · exact ⟨_, .constant⟩
    · obtain ⟨i, lt, rfl⟩ := Array.mem_iff_getElem.mp input
      obtain ⟨t, run, -⟩ := nthVar_of_lt (n := net.numPis) lt narrow
      exact ⟨t, .input (Array.getElem?_eq_getElem lt) run⟩
    · obtain ⟨f, gate⟩ := Option.isSome_iff_exists.mp isGate
      exact TableOf.of_fanins gate fun s member =>
        ih _ (ranked_m ▸ ranked m f gate s member) s.node rfl (coherent.faninsLive m f gate s member)

-----------------------------------------------------------------------------------------
-- Functions of signals
-----------------------------------------------------------------------------------------

/-- `v` is the function that `s` computes in `net`: the table of its node, complemented with it. -/
def Computes (net : Network) (s : Signal) (v : TruthTable) : Prop :=
  ∃ t, net.TableOf s.node t ∧ v = s.onTable t

variable {s : Signal} {v : TruthTable}

theorem Computes.valid (computes : net.Computes s v) : Valid net.numPis v := by
  obtain ⟨t, table, rfl⟩ := computes
  exact s.onTable_valid table.valid

theorem Computes.grows (grows : Grows net net') (computes : net.Computes s v) : net'.Computes s v := by
  obtain ⟨t, table, rfl⟩ := computes
  exact ⟨t, table.grows grows, rfl⟩

/-- A signal complemented when `b` holds computes the complement when `b` holds. -/
theorem Computes.xor (computes : net.Computes s v) (b : Bool) :
    net.Computes (s.xor b) (if b then v.not else v) := by
  obtain ⟨t, table, rfl⟩ := computes
  exact ⟨t, by rw [Signal.node_xor]; exact table, (s.onTable_xor b table.valid).symm⟩

/-- Constant 0 computes the table that is 0 everywhere. -/
theorem computes_zero (net : Network) : net.Computes Signal.zero (zeros net.numPis) :=
  ⟨zeros net.numPis, .constant, rfl⟩

variable {a b c : Signal}

/-- The signal that `createMaj` returns has, in the network it leaves, the majority of the tables
of the fan-ins' nodes, each taken through its signal's polarity. -/
theorem WellFormed.createMaj_table (wf : net.WellFormed) (live : ∀ t ∈ [a, b, c], net.Live t.node)
    (run : Returns (Network.createMaj a b c) net s net') {tab : Node → TruthTable}
    (tables : ∀ t ∈ [a, b, c], net.TableOf t.node (tab t.node)) :
    ∃ t, net'.TableOf s.node t ∧ Fanins.majTable tab ⟨a, b, c⟩ = .ok (s.onTable t) := by
  have valid : ∀ t ∈ (⟨a, b, c⟩ : Fanins).toList, Valid net.numPis (tab t.node) :=
    fun t member => (tables t member).valid
  obtain ⟨-, grows, -⟩ := wf.createMaj live run
  rcases createMaj_cases run with ⟨trivial, rfl⟩ | ⟨g, compl, p, created, gate, added, rfl⟩
  · exact ⟨tab s.node, tables s (Fanins.mem_of_normalize_eq_trivial trivial),
      Fanins.majTable_of_normalize_trivial valid trivial⟩
  · obtain ⟨-, isGate, -⟩ := wf.addGate (Fanins.normalize_normalize gate)
      (Fanins.forall_nodes_of_normalize net.Live gate live) added
    obtain ⟨t, built, majority⟩ := Fanins.majTable_of_normalize_gate valid gate
    -- the fan-ins of the gate are the arguments' nodes, whose tables carry over
    have fanins : ∀ t ∈ g.toList, net'.TableOf t.node (tab t.node) :=
      Fanins.forall_nodes_of_normalize (fun m => net'.TableOf m (tab m)) gate
        fun t member => (tables t member).grows grows
    refine ⟨t, by rw [Signal.node_make]; exact .gate tab isGate fanins built, ?_⟩
    rw [majority, Signal.onTable, Signal.isComplemented_make]

/-- The signal that `createMaj` returns computes, in the network it leaves, the majority of what
its arguments compute. -/
theorem WellFormed.createMaj_computes (wf : net.WellFormed) (live : ∀ t ∈ [a, b, c], net.Live t.node)
    (run : Returns (Network.createMaj a b c) net s net') {va vb vc : TruthTable} (ca : net.Computes a va)
    (cb : net.Computes b vb) (cc : net.Computes c vc) :
    ∃ v, TruthTable.maj va vb vc = .ok v ∧ net'.Computes s v := by
  classical
  obtain ⟨ta, tableA, rfl⟩ := ca
  obtain ⟨tb, tableB, rfl⟩ := cb
  obtain ⟨tc, tableC, rfl⟩ := cc
  -- one table per node: nodes that two arguments share have one table
  let tab : Node → TruthTable := fun m =>
    if m = a.node then ta else if m = b.node then tb else tc
  have atA : tab a.node = ta := if_pos rfl
  have atB : tab b.node = tb := by
    by_cases same : b.node = a.node
    · simp only [tab, if_pos same]
      exact TableOf.unique wf.toCoherent (same ▸ tableA) tableB
    · simp [tab, same]
  have atC : tab c.node = tc := by
    by_cases sameA : c.node = a.node
    · simp only [tab, if_pos sameA]
      exact TableOf.unique wf.toCoherent (sameA ▸ tableA) tableC
    · by_cases sameB : c.node = b.node
      · simp only [tab, if_neg sameA, if_pos sameB]
        exact TableOf.unique wf.toCoherent (sameB ▸ tableB) tableC
      · simp only [tab, if_neg sameA, if_neg sameB]
  have tables : ∀ t ∈ [a, b, c], net.TableOf t.node (tab t.node) := by
    simp only [List.mem_cons, List.not_mem_nil, or_false, forall_eq_or_imp, forall_eq, atA, atB,
      atC]
    exact ⟨tableA, tableB, tableC⟩
  obtain ⟨t, table, majority⟩ := wf.createMaj_table live run tables
  simp only [Fanins.majTable, atA, atB, atC] at majority
  exact ⟨s.onTable t, majority, t, table, rfl⟩

end Network

end MajorityGraph
