import MajorityGraph.ConeView
import MajorityGraph.Proofs.Simulation.Cuts

/-!
Depth-first pre-order from a list of roots, and the collecting walk of a cone view that returns
it (`collectFrom_pivots`).
-/

namespace MajorityGraph

namespace Network

/-- `net.Preorder roots seen out`: depth-first walks from the nodes `roots` in turn, down the
fan-ins of each live gate in order, extend the list `seen` of the nodes met so far to `out`. A
node met before is passed over, and so is the constant, which is never listed; an input is listed,
and a live gate is listed before the walks from its fan-ins. -/
inductive Preorder (net : Network) : List Node → List Node → List Node → Prop
  | nil (seen : List Node) : net.Preorder [] seen seen
  | met {n : Node} {rest seen out : List Node} (met : n ∈ seen) (next : net.Preorder rest seen out) :
      net.Preorder (n :: rest) seen out
  | constant {rest seen out : List Node} (next : net.Preorder rest seen out) :
      net.Preorder (Node.constant :: rest) seen out
  | input {n : Node} {rest seen out : List Node} (fresh : n ∉ seen) (input : n ∈ net.inputs)
      (next : net.Preorder rest (seen ++ [n]) out) : net.Preorder (n :: rest) seen out
  | gate {n : Node} {f : Fanins} {rest seen mid out : List Node} (fresh : n ∉ seen)
      (gate : net.gateFanins n = some f)
      (below : net.Preorder (f.toList.map Signal.node) (seen ++ [n]) mid)
      (next : net.Preorder rest mid out) : net.Preorder (n :: rest) seen out

variable {net : Network} {roots seen out : List Node}

/-- The walks keep the nodes met before, first and in their order. -/
theorem Preorder.keeps_seen (walk : net.Preorder roots seen out) : seen <+: out := by
  induction walk with
  | nil => exact List.prefix_refl _
  | met _ _ ih => exact ih
  | constant _ ih => exact ih
  | input _ _ _ ih => exact (List.prefix_append _ _).trans ih
  | gate _ _ _ _ below next => exact (List.prefix_append _ _).trans (below.trans next)

/-- Walks from two lists of roots in turn are the walks from both. -/
theorem Preorder.append {l₂ mid : List Node} (first : net.Preorder roots seen mid)
    (second : net.Preorder l₂ mid out) : net.Preorder (roots ++ l₂) seen out := by
  induction first with
  | nil => exact second
  | met met _ ih => exact .met met (ih second)
  | constant _ ih => exact .constant (ih second)
  | input fresh input _ ih => exact .input fresh input (ih second)
  | gate fresh gate below _ _ ih => exact .gate fresh gate below (ih second)

/-- The walks list each node once. -/
theorem Preorder.nodup (walk : net.Preorder roots seen out) (nodup : seen.Nodup) : out.Nodup := by
  induction walk with
  | nil => exact nodup
  | met _ _ ih => exact ih nodup
  | constant _ ih => exact ih nodup
  | input fresh _ _ ih => exact ih (List.concat_eq_append .. ▸ nodup.concat fresh)
  | gate fresh _ _ _ below next => exact next (below (List.concat_eq_append .. ▸ nodup.concat fresh))

/-- Roots that are met nodes or the constant can be left out: the walks pass over them. -/
theorem Preorder.of_filter {P : Node → Bool} :
    ∀ {l seen out : List Node}, (∀ m ∈ l, P m = false → m ∈ seen ∨ m = Node.constant) →
      net.Preorder (l.filter P) seen out → net.Preorder l seen out
  | [], _, _, _, walk => by simpa using walk
  | m :: rest, seen, out, dropped, walk => by
    have later : ∀ {seen'}, seen <+: seen' →
        ∀ m' ∈ rest, P m' = false → m' ∈ seen' ∨ m' = Node.constant := fun grown m' member drop =>
      (dropped m' (List.mem_cons_of_mem _ member) drop).imp_left fun old => grown.subset old
    by_cases keep : P m = true
    · rw [List.filter_cons_of_pos keep] at walk
      cases walk with
      | met met next => exact .met met (of_filter (later (List.prefix_refl _)) next)
      | constant next => exact .constant (of_filter (later (List.prefix_refl _)) next)
      | input fresh input next =>
        exact .input fresh input (of_filter (later (List.prefix_append _ _)) next)
      | gate fresh gate below next =>
        exact .gate fresh gate below
          (of_filter (later ((List.prefix_append _ _).trans below.keeps_seen)) next)
    · rw [List.filter_cons_of_neg keep] at walk
      rcases dropped m List.mem_cons_self (by simpa using keep) with met | rfl
      · exact .met met (of_filter (later (List.prefix_refl _)) walk)
      · exact .constant (of_filter (later (List.prefix_refl _)) walk)

/-- Every node that the walks list was met before or is a node other than the constant below a
root. -/
theorem Preorder.sound (coherent : net.Coherent) (walk : net.Preorder roots seen out) :
    ∀ m ∈ out, m ∈ seen ∨ m ≠ Node.constant ∧ ∃ r ∈ roots, net.Reaches r m := by
  induction walk with
  | nil => exact fun m member => .inl member
  | met _ _ ih | constant _ ih =>
    intro m member
    exact (ih m member).imp_right fun ⟨other, r, root, path⟩ =>
      ⟨other, r, List.mem_cons_of_mem _ root, path⟩
  | @input n rest seen out _ input _ ih =>
    intro m member
    rcases ih m member with old | ⟨other, r, root, path⟩
    · rcases List.mem_append.mp old with older | new
      · exact .inl older
      · rw [List.mem_singleton.mp new]
        exact .inr ⟨fun same => coherent.constant_not_input (same ▸ input), n, List.mem_cons_self,
          .refl n⟩
    · exact .inr ⟨other, r, List.mem_cons_of_mem _ root, path⟩
  | @gate n f rest seen mid out _ gate _ _ below next =>
    intro m member
    rcases next m member with old | ⟨other, r, root, path⟩
    · rcases below m old with older | ⟨other, c, child, path⟩
      · rcases List.mem_append.mp older with oldest | new
        · exact .inl oldest
        · rw [List.mem_singleton.mp new]
          refine .inr ⟨fun same => ?_, n, List.mem_cons_self, .refl n⟩
          rw [same, coherent.gateFanins_constant] at gate
          cases gate
      · obtain ⟨s, slot, rfl⟩ := List.mem_map.mp child
        exact .inr ⟨other, n, List.mem_cons_self, .fanin gate slot path⟩
    · exact .inr ⟨other, r, List.mem_cons_of_mem _ root, path⟩

/-- The walks list every root but the constant, and every gate they list that was not met
before has its fan-ins listed, the constant apart. -/
theorem Preorder.closed (coherent : net.Coherent) (walk : net.Preorder roots seen out) :
    (∀ r ∈ roots, r ∈ out ∨ r = Node.constant) ∧
      ∀ g ∈ out, g ∉ seen → ∀ f, net.gateFanins g = some f →
        ∀ s ∈ f.toList, s.node ∈ out ∨ s.node = Node.constant := by
  induction walk with
  | nil => exact ⟨fun r member => (nomatch member), fun g member fresh => absurd member fresh⟩
  | @met n rest seen out met next ih =>
    refine ⟨fun r member => ?_, ih.2⟩
    rcases List.mem_cons.mp member with rfl | later
    · exact .inl (next.keeps_seen.subset met)
    · exact ih.1 r later
  | constant _ ih =>
    refine ⟨fun r member => ?_, ih.2⟩
    rcases List.mem_cons.mp member with rfl | later
    · exact .inr rfl
    · exact ih.1 r later
  | @input n rest seen out fresh input next ih =>
    refine ⟨fun r member => ?_, fun g member old f gate => ?_⟩
    · rcases List.mem_cons.mp member with rfl | later
      · exact .inl (next.keeps_seen.subset (List.mem_append_right _ (List.mem_singleton_self _)))
      · exact ih.1 r later
    · by_cases listed : g ∈ seen ++ [n]
      · -- the one node listed here is an input, which has no fan-ins
        rcases List.mem_append.mp listed with older | new
        · exact absurd older old
        · rw [List.mem_singleton.mp new, coherent.gateFanins_input input] at gate
          cases gate
      · exact ih.2 g member listed f gate
  | @gate n f rest seen mid out fresh gate below next ihBelow ihNext =>
    refine ⟨fun r member => ?_, fun g member old f' gate' => ?_⟩
    · rcases List.mem_cons.mp member with rfl | later
      · exact .inl ((below.keeps_seen.trans next.keeps_seen).subset
          (List.mem_append_right _ (List.mem_singleton_self _)))
      · exact ihNext.1 r later
    · by_cases inMid : g ∈ mid
      · by_cases listed : g ∈ seen ++ [n]
        · -- the gate listed here: the walks from its fan-ins list them
          rcases List.mem_append.mp listed with older | new
          · exact absurd older old
          rw [List.mem_singleton.mp new, gate] at gate'
          cases gate'
          intro s slot
          exact (ihBelow.1 s.node (List.mem_map_of_mem slot)).imp_left fun old => next.keeps_seen.subset old
        · intro s slot
          exact (ihBelow.2 g inMid listed f' gate' s slot).imp_left fun old => next.keeps_seen.subset old
      · exact ihNext.2 g member inMid f' gate'

/-- The walks are determined by the roots and the nodes met before: on a coherent network each
root is met, the constant, an input or a live gate, and only one of these. -/
theorem Preorder.unique (coherent : net.Coherent) (walk : net.Preorder roots seen out)
    {out' : List Node} (other : net.Preorder roots seen out') : out = out' := by
  induction walk generalizing out' with
  | nil => cases other; rfl
  | met met _ ih =>
    cases other with
    | met _ next | constant next => exact ih next
    | input fresh => exact absurd met fresh
    | gate fresh => exact absurd met fresh
  | constant _ ih =>
    cases other with
    | met _ next | constant next => exact ih next
    | input _ input => exact absurd input coherent.constant_not_input
    | gate _ gate =>
      rw [coherent.gateFanins_constant] at gate
      cases gate
  | input fresh input _ ih =>
    cases other with
    | met met => exact absurd met fresh
    | constant => exact absurd input coherent.constant_not_input
    | input _ _ next => exact ih next
    | gate _ gate =>
      rw [coherent.gateFanins_input input] at gate
      cases gate
  | gate fresh gate _ _ ihBelow ihNext =>
    cases other with
    | met met => exact absurd met fresh
    | constant =>
      rw [coherent.gateFanins_constant] at gate
      cases gate
    | input _ input =>
      rw [coherent.gateFanins_input input] at gate
      cases gate
    | gate _ gate' below next =>
      rw [gate] at gate'
      cases gate'
      cases ihBelow below
      exact ihNext next

/-- From nothing met, the walks list exactly the nodes other than the constant below a root. -/
theorem Preorder.mem_iff (coherent : net.Coherent) (walk : net.Preorder roots [] out) (m : Node) :
    m ∈ out ↔ m ≠ Node.constant ∧ ∃ r ∈ roots, net.Reaches r m := by
  obtain ⟨rootsListed, closed⟩ := walk.closed coherent
  constructor
  · intro member
    exact (walk.sound coherent m member).resolve_left List.not_mem_nil
  · rintro ⟨other, r, root, path⟩
    -- along a path from a listed node every node is listed, until the constant ends it
    suffices along : ∀ a b, net.Reaches a b → b ≠ Node.constant → a ∈ out ∨ a = Node.constant →
        b ∈ out from along r m path other (rootsListed r root)
    intro a b path'
    induction path' with
    | refl => exact fun other listed => listed.resolve_right other
    | @fanin g b f s gate slot rest ih =>
      rintro other (listed | constant)
      · exact ih other (closed g listed List.not_mem_nil f gate s slot)
      · rw [constant, coherent.gateFanins_constant] at gate
        cases gate

end Network

namespace ConeView

open Network

variable {net : Network} {n : Node}

/-! ### One step of the collecting walk -/

section Steps

variable (net) (fuel : Nat) (stack : List Node) (visited : Std.HashMap Nat Unit) (acc : Array Node)

theorem collectFrom_known (known : n.id ∈ visited) :
    collectFrom net (fuel + 1) (n :: stack) visited acc = collectFrom net fuel stack visited acc := by
  simp [collectFrom, Std.HashMap.contains_iff_mem.mpr known]

theorem collectFrom_constant (fresh : Node.constant.id ∉ visited) :
    collectFrom net (fuel + 1) (Node.constant :: stack) visited acc =
      collectFrom net fuel stack (visited.insert Node.constant.id ()) acc := by
  have fresh : 0 ∉ visited := fresh
  simp [collectFrom, fresh, Node.constant]

theorem collectFrom_input (fresh : n.id ∉ visited) (nonzero : n.id ≠ 0)
    (input : net.isPi n = .ok true) :
    collectFrom net (fuel + 1) (n :: stack) visited acc =
      collectFrom net fuel stack (visited.insert n.id ()) (acc.push n) := by
  simp [collectFrom, fresh, nonzero, input]

theorem collectFrom_gate (fresh : n.id ∉ visited) (nonzero : n.id ≠ 0)
    (notInput : net.isPi n = .ok false) {f : Fanins} (gate : net.gateFanins n = some f) :
    collectFrom net (fuel + 1) (n :: stack) visited acc =
      collectFrom net fuel ((f.toList.map Signal.node).filter
          (fun m => !(visited.insert n.id ()).contains m.id) ++ stack)
        (visited.insert n.id ()) (acc.push n) := by
  have fanned : net.fanins n = .ok f.toList := fanins_of_gateFanins gate
  simp [collectFrom, fresh, nonzero, notInput, fanned, List.filter_reverse, List.filter_map,
    Function.comp_def]

end Steps

/-! ### Runs and states of the collecting walk -/

variable (net) in
/-- From `visited` and `acc` the collecting walk works through `stack` in `steps` steps and
arrives at `visited'` and `acc'`, whatever lies below `stack`. -/
def CollectRuns (stack : List Node) (visited : Std.HashMap Nat Unit) (acc : Array Node)
    (visited' : Std.HashMap Nat Unit) (acc' : Array Node) (steps : Nat) : Prop :=
  ∀ fuel rest, steps ≤ fuel →
    collectFrom net fuel (stack ++ rest) visited acc = collectFrom net (fuel - steps) rest visited' acc'

theorem CollectRuns.append {s₁ s₂ : List Node} {v₁ v₂ v₃ : Std.HashMap Nat Unit}
    {a₁ a₂ a₃ : Array Node} {k₁ k₂ : Nat} (first : CollectRuns net s₁ v₁ a₁ v₂ a₂ k₁)
    (second : CollectRuns net s₂ v₂ a₂ v₃ a₃ k₂) : CollectRuns net (s₁ ++ s₂) v₁ a₁ v₃ a₃ (k₁ + k₂) := by
  intro fuel rest enough
  rw [List.append_assoc, first fuel (s₂ ++ rest) (by omega), second (fuel - k₁) rest (by omega),
    Nat.sub_sub]

theorem CollectRuns.nil {v : Std.HashMap Nat Unit} {a : Array Node} : CollectRuns net [] v a v a 0 :=
  fun _ _ _ => rfl

/-- One step that turns the stack `s₁` into `s₂`, followed by a run from `s₂`. -/
theorem CollectRuns.step {s₁ s₂ : List Node} {v₁ v₂ v₃ : Std.HashMap Nat Unit} {a₁ a₂ a₃ : Array Node}
    {k : Nat} (next : CollectRuns net s₂ v₂ a₂ v₃ a₃ k)
    (step : ∀ fuel rest, collectFrom net (fuel + 1) (s₁ ++ rest) v₁ a₁ =
      collectFrom net fuel (s₂ ++ rest) v₂ a₂) :
    CollectRuns net s₁ v₁ a₁ v₃ a₃ (k + 1) := by
  intro fuel rest enough
  obtain ⟨fuel, rfl⟩ : ∃ m, fuel = m + 1 := ⟨fuel - 1, by omega⟩
  rw [step, next fuel rest (by omega)]
  congr 1
  omega

variable (net) in
/-- A state of the collecting walk: the visited ids other than 0 are those of the collected
nodes, which are distinct live nodes other than the constant. -/
structure CollectState (visited : Std.HashMap Nat Unit) (acc : Array Node) : Prop where
  marks : ∀ i, i ≠ 0 → (i ∈ visited ↔ ∃ m ∈ acc, m.id = i)
  nonzero : ∀ m ∈ acc, m.id ≠ 0
  nodup : acc.toList.Nodup
  live : ∀ m ∈ acc, net.Live m

variable {visited : Std.HashMap Nat Unit} {acc : Array Node}

theorem CollectState.empty : CollectState net {} #[] :=
  ⟨fun i _ => by simp, fun _ member => by simp at member, List.nodup_nil,
    fun _ member => by simp at member⟩

/-- A visited node other than the constant is collected. -/
theorem CollectState.mem_of_visited (state : CollectState net visited acc) (known : n.id ∈ visited)
    (nonzero : n.id ≠ 0) : n ∈ acc := by
  obtain ⟨m, member, same⟩ := (state.marks _ nonzero).mp known
  exact Node.eq_of_id_eq same ▸ member

/-- A node other than the constant that is not visited is not collected. -/
theorem CollectState.not_mem (state : CollectState net visited acc) (fresh : n.id ∉ visited)
    (nonzero : n.id ≠ 0) : n ∉ acc.toList := fun seen =>
  fresh ((state.marks _ nonzero).mpr ⟨n, Array.mem_toList_iff.mp seen, rfl⟩)

/-- The collected nodes are distinct live nodes, so there are no more of them than nodes. -/
theorem CollectState.size_le (state : CollectState net visited acc) (coherent : net.Coherent) :
    acc.size ≤ net.size := by
  simpa using length_le_of_ids_lt state.nodup fun m member =>
    coherent.lt_size_of_live (state.live m (Array.mem_toList_iff.mp member))

theorem CollectState.insert_constant (state : CollectState net visited acc) :
    CollectState net (visited.insert Node.constant.id ()) acc where
  marks i nonzero := by
    rw [Std.HashMap.mem_insert, beq_iff_eq, ← state.marks i nonzero]
    exact or_iff_right fun same => nonzero same.symm
  nonzero := state.nonzero
  nodup := state.nodup
  live := state.live

/-- Collecting a fresh live node other than the constant. -/
theorem CollectState.push (state : CollectState net visited acc) (fresh : n.id ∉ visited)
    (nonzero : n.id ≠ 0) (live : net.Live n) : CollectState net (visited.insert n.id ()) (acc.push n) where
  marks i other := by
    rw [Std.HashMap.mem_insert, beq_iff_eq, state.marks i other]
    simp only [Array.mem_push, or_and_right, exists_or, exists_eq_left]
    exact or_comm
  nonzero m member := by
    rcases Array.mem_push.mp member with old | rfl
    · exact state.nonzero m old
    · exact nonzero
  nodup := by
    rw [Array.toList_push, ← List.concat_eq_append]
    exact state.nodup.concat (state.not_mem fresh nonzero)
  live m member := by
    rcases Array.mem_push.mp member with old | rfl
    · exact state.live m old
    · exact live

variable (net) in
/-- The outcome of visiting the nodes `roots` in turn: the walk arrives within three steps per
node it collects and one per root, in a state as above whose collected nodes extend the old ones
by the depth-first pre-order from the roots. -/
structure CollectVisited (roots : List Node) (visited : Std.HashMap Nat Unit) (acc : Array Node)
    (visited' : Std.HashMap Nat Unit) (acc' : Array Node) : Prop where
  runs : ∃ steps, CollectRuns net roots visited acc visited' acc' steps ∧
    steps ≤ 3 * (acc'.size - acc.size) + roots.length
  state : CollectState net visited' acc'
  preorder : net.Preorder roots acc.toList acc'.toList

theorem CollectVisited.grows {roots : List Node} {visited' : Std.HashMap Nat Unit} {acc' : Array Node}
    (visit : CollectVisited net roots visited acc visited' acc') : acc.size ≤ acc'.size := by
  simpa using visit.preorder.keeps_seen.length_le

theorem CollectVisited.nil (state : CollectState net visited acc) :
    CollectVisited net [] visited acc visited acc :=
  ⟨⟨0, fun _ _ _ => rfl, Nat.zero_le _⟩, state, .nil _⟩

theorem CollectVisited.cons {c : Node} {cs : List Node} {v₁ v₂ : Std.HashMap Nat Unit}
    {a₁ a₂ : Array Node} (first : CollectVisited net [c] visited acc v₁ a₁)
    (rest : CollectVisited net cs v₁ a₁ v₂ a₂) : CollectVisited net (c :: cs) visited acc v₂ a₂ := by
  obtain ⟨k₁, runs₁, steps₁⟩ := first.runs
  obtain ⟨k₂, runs₂, steps₂⟩ := rest.runs
  have grows₁ := first.grows
  have grows₂ := rest.grows
  refine ⟨⟨k₁ + k₂, runs₁.append runs₂, ?_⟩, rest.state, first.preorder.append rest.preorder⟩
  simp only [List.length_cons, List.length_nil] at steps₁ ⊢
  omega

/-! ### Visits -/

/-- A visited node is passed over in one step: it is the constant or was collected. -/
theorem collectVisited_known (state : CollectState net visited acc) (known : n.id ∈ visited) :
    CollectVisited net [n] visited acc visited acc := by
  refine ⟨⟨1, CollectRuns.nil.step fun fuel rest => collectFrom_known net fuel rest visited acc known,
    by simp⟩, state, ?_⟩
  by_cases zero : n.id = 0
  · rw [show n = Node.constant from Node.eq_of_id_eq zero]
    exact .constant (.nil _)
  · exact .met (Array.mem_toList_iff.mpr (state.mem_of_visited known zero)) (.nil _)

/-- The constant is marked in one step and never collected. -/
theorem collectVisited_constant (state : CollectState net visited acc)
    (fresh : Node.constant.id ∉ visited) :
    CollectVisited net [Node.constant] visited acc (visited.insert Node.constant.id ()) acc := by
  exact ⟨⟨1, CollectRuns.nil.step fun fuel rest => collectFrom_constant net fuel rest visited acc fresh,
    by simp⟩, state.insert_constant, .constant (.nil _)⟩

/-- A fresh input is collected in one step. -/
theorem collectVisited_input (coherent : net.Coherent) (state : CollectState net visited acc)
    (fresh : n.id ∉ visited) (nonzero : n.id ≠ 0) (live : net.Live n) (input : net.isPi n = .ok true) :
    CollectVisited net [n] visited acc (visited.insert n.id ()) (acc.push n) := by
  refine ⟨⟨1, CollectRuns.nil.step fun fuel rest =>
    collectFrom_input net fuel rest visited acc fresh nonzero input, by simp⟩,
    state.push fresh nonzero live, ?_⟩
  rw [Array.toList_push]
  exact .input (state.not_mem fresh nonzero) (coherent.shaped.mem_inputs_of_isPi input) (.nil _)

/-- Visiting the nodes `cs` in turn, given that each of them can be visited from any state. -/
theorem collectVisited_all (cs : List Node)
    (single : ∀ c ∈ cs, ∀ v a, CollectState net v a → ∃ v' a', CollectVisited net [c] v a v' a')
    (state : CollectState net visited acc) : ∃ v' a', CollectVisited net cs visited acc v' a' := by
  induction cs generalizing visited acc with
  | nil => exact ⟨_, _, .nil state⟩
  | cons c cs ih =>
    obtain ⟨v₁, a₁, first⟩ := single c List.mem_cons_self visited acc state
    obtain ⟨v₂, a₂, rest⟩ := ih (fun c' member => single c' (List.mem_cons_of_mem _ member)) first.state
    exact ⟨v₂, a₂, first.cons rest⟩

/-- A fresh live gate is collected in one step, and then its fan-ins not visited yet are
visited in turn; the walks pass over the others, which are met nodes or the constant. -/
theorem collectVisited_gate (state : CollectState net visited acc) (fresh : n.id ∉ visited)
    (nonzero : n.id ≠ 0) (notInput : net.isPi n = .ok false) {f : Fanins}
    (gate : net.gateFanins n = some f)
    (children : ∀ c ∈ f.toList.map Signal.node, ∀ v a, CollectState net v a →
      ∃ v' a', CollectVisited net [c] v a v' a') :
    ∃ v' a', CollectVisited net [n] visited acc v' a' := by
  have pushed := state.push fresh nonzero (live_of_gateFanins gate)
  obtain ⟨cs, kept⟩ : ∃ cs : List Node,
      cs = (f.toList.map Signal.node).filter (fun m => !(visited.insert n.id ()).contains m.id) :=
    ⟨_, rfl⟩
  obtain ⟨v', a', below⟩ := collectVisited_all cs
    (fun c member => children c (List.mem_of_mem_filter (kept ▸ member))) pushed
  obtain ⟨k, runs, steps⟩ := below.runs
  have grown := below.grows
  have few : cs.length ≤ 3 := by
    rw [kept]
    exact (List.length_filter_le _ _).trans (by simp [Fanins.toList])
  refine ⟨v', a', ⟨k + 1, runs.step fun fuel rest => ?_, ?_⟩, below.state, ?_⟩
  · rw [kept]
    exact collectFrom_gate net fuel rest visited acc fresh nonzero notInput gate
  · simp only [Array.size_push, List.length_singleton] at steps grown ⊢
    omega
  · -- the fan-ins left out are the gate itself, collected nodes or the constant
    have walk := below.preorder
    rw [kept, Array.toList_push] at walk
    refine .gate (state.not_mem fresh nonzero) gate (Preorder.of_filter (fun m _ drop => ?_) walk)
      (.nil _)
    have seen : ¬ n.id = m.id → m.id ∈ visited := by simpa using drop
    by_cases same : n.id = m.id
    · exact .inl (List.mem_append_right _ (by rw [Node.eq_of_id_eq same]; exact List.mem_singleton_self _))
    · have old := seen same
      by_cases zero : m.id = 0
      · exact .inr (Node.eq_of_id_eq zero)
      · exact .inl (List.mem_append_left _ (Array.mem_toList_iff.mpr (state.mem_of_visited old zero)))

variable {rank : Node → Nat}

/-- Every live node can be visited from every state; the induction is on a bound of the node's
rank, which falls along each fan-in. -/
theorem collectVisited_single (coherent : net.Coherent) (ranked : net.Ranked rank) :
    ∀ k c, rank c < k → net.Live c → ∀ visited acc, CollectState net visited acc →
      ∃ v' a', CollectVisited net [c] visited acc v' a'
  | 0, _, low, _, _, _, _ => absurd low (Nat.not_lt_zero _)
  | k + 1, c, low, live, visited, acc, state => by
    by_cases known : c.id ∈ visited
    · exact ⟨_, _, collectVisited_known state known⟩
    by_cases zero : c.id = 0
    · obtain rfl : c = Node.constant := Node.eq_of_id_eq zero
      exact ⟨_, _, collectVisited_constant state known⟩
    obtain ⟨pi, read⟩ := coherent.isPi_live live
    cases pi with
    | true => exact ⟨_, _, collectVisited_input coherent state known zero live read⟩
    | false =>
      obtain ⟨f, gate⟩ := coherent.gate_of_live live zero read
      refine collectVisited_gate state known zero read gate fun c' child => ?_
      obtain ⟨s, slot, rfl⟩ := List.mem_map.mp child
      have lower := ranked c f gate s slot
      exact collectVisited_single coherent ranked k s.node (by omega) (coherent.faninsLive c f gate s slot)

/-! ### The walks from the pivots -/

theorem collectFrom_nil (fuel : Nat) (visited : Std.HashMap Nat Unit) (acc : Array Node) :
    collectFrom net (fuel + 1) [] visited acc = .ok (visited, acc) := rfl

/-- Walks from roots in turn, each with fuel for three steps per node of the network and two
more, collect the depth-first pre-order from the roots. -/
theorem collectFrom_foldlM (coherent : net.Coherent) {fuel : Nat} (enough : 3 * net.size + 2 ≤ fuel) :
    ∀ roots : List Node, (∀ r ∈ roots, net.Live r) → ∀ visited acc, CollectState net visited acc →
      ∃ v' a', roots.foldlM (fun (x : Std.HashMap Nat Unit × Array Node) p =>
          collectFrom net fuel [p] x.1 x.2) (visited, acc) = .ok (v', a') ∧
        CollectState net v' a' ∧ net.Preorder roots acc.toList a'.toList
  | [], _, visited, acc, state => ⟨visited, acc, rfl, state, .nil _⟩
  | r :: roots, live, visited, acc, state => by
    obtain ⟨rank, ranked⟩ := coherent.acyclic
    obtain ⟨v₁, a₁, first⟩ := collectVisited_single coherent ranked _ r (Nat.lt_succ_self _)
      (live r List.mem_cons_self) visited acc state
    obtain ⟨k, runs, steps⟩ := first.runs
    -- the walk collects no more nodes than the network has, so the fuel covers it
    have bounded := first.state.size_le coherent
    have ran : collectFrom net fuel [r] visited acc = .ok (v₁, a₁) := by
      rw [← List.append_nil [r], runs fuel [] (by simp at steps; omega),
        show fuel - k = fuel - k - 1 + 1 by simp at steps; omega, collectFrom_nil]
    obtain ⟨v₂, a₂, rest, state₂, walk⟩ := collectFrom_foldlM coherent enough roots
      (fun r' member => live r' (List.mem_cons_of_mem _ member)) v₁ a₁ first.state
    refine ⟨v₂, a₂, ?_, state₂, first.preorder.append walk⟩
    simp only [List.foldlM_cons, ran, bind, Except.bind]
    exact rest

/-- The walks from the pivots of a view, on a coherent network with live pivots, succeed and
collect the depth-first pre-order from the pivots. -/
theorem collectFrom_pivots (coherent : net.Coherent) {pivots : Array Node}
    (live : ∀ p ∈ pivots, net.Live p) :
    ∃ visited collected, pivots.foldlM (fun (x : Std.HashMap Nat Unit × Array Node) p =>
        collectFrom net (pivots.size + 4 * net.size + 4) [p] x.1 x.2) ({}, #[]) =
          .ok (visited, collected) ∧
      CollectState net visited collected ∧ net.Preorder pivots.toList [] collected.toList := by
  obtain ⟨visited, collected, run, state, walk⟩ := collectFrom_foldlM coherent
    (show 3 * net.size + 2 ≤ pivots.size + 4 * net.size + 4 by omega) pivots.toList
    (fun p member => live p (Array.mem_toList_iff.mp member)) {} #[] .empty
  exact ⟨visited, collected, by rw [← Array.foldlM_toList]; exact run, state, walk⟩

end ConeView

end MajorityGraph
