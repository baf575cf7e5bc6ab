import MajorityGraph.Window
import MajorityGraph.Proofs.Mffc.Cone
import MajorityGraph.Proofs.Cut.Growth

/-!
Windows for resubstitution: `collect` gathers gates below the root, each after its fan-ins and
none reaching the root (`collect_sound_window`).
-/

namespace MajorityGraph

section Loops

variable {ε α β γ : Type}

/-- A loop over a list whose every pass returns and keeps a property, whether it goes on or
breaks off, followed by a computation that returns from every state with the property, returns. -/
theorem forIn_ok_of_step_bind {l : List α} {init : β} {body : α → β → Except ε (ForInStep β)}
    {k : β → Except ε γ} {R : γ → Prop} (inv : β → Prop)
    (step : ∀ a ∈ l, ∀ b, inv b → ∃ s, body a b = .ok s ∧ inv s.value) (start : inv init)
    (final : ∀ b, inv b → ∃ c, k b = .ok c ∧ R c) :
    ∃ c, (forIn l init body >>= k) = .ok c ∧ R c := by
  induction l generalizing init with
  | nil => exact final init start
  | cons a rest ih =>
    obtain ⟨s, first, kept⟩ := step a List.mem_cons_self init start
    rw [List.forIn_cons, first]
    cases s with
    | done b => exact final b kept
    | yield b => exact ih (fun a member => step a (List.mem_cons_of_mem _ member)) kept

end Loops

namespace Network

variable {net : Network} {n p : Node}

/-- Every user of a node of a coherent network is a live gate with the node among its fan-ins. -/
theorem Coherent.gate_of_mem_parents (coherent : net.Coherent) {ps : Array Node}
    (found : net.parents n = .ok ps) (member : p ∈ ps) :
    ∃ f, net.gateFanins p = some f ∧ ∃ s ∈ f.toList, s.node = n := by
  obtain ⟨r, read, rfl⟩ := parents_eq_ok.mp found
  have counted := coherent.parents n r p (refsOf_eq_ok.mp read).2
  have used : 0 < net.slots p n := counted ▸ Array.count_pos_iff.mpr member
  exact mem_faninNodes.mp (slots_pos_iff.mp used)

/-- The users of a live node of a coherent network can be read. -/
theorem Coherent.parents_live (coherent : net.Coherent) (live : net.Live n) :
    ∃ ps, net.parents n = .ok ps := by
  obtain ⟨r, found, -⟩ := coherent.refsOf_live live
  exact ⟨r.parents, parents_eq_ok.mpr ⟨r, found, rfl⟩⟩

/-- In a coherent network no path leads back between two distinct nodes. -/
theorem Coherent.not_reaches_back (coherent : net.Coherent) {a b : Node} (down : net.Reaches a b)
    (apart : a ≠ b) : ¬ net.Reaches b a := by
  intro up
  obtain ⟨rank, ranked⟩ := coherent.acyclic
  cases down with
  | refl => exact apart rfl
  | fanin gate member below =>
    have climbs := ranked _ _ gate _ member
    have falls := ranked.rank_le_of_reaches below
    have back := ranked.rank_le_of_reaches up
    omega

/-- A live gate other than `root` none of whose fan-ins reaches `root` does not reach it. -/
theorem not_reaches_of_fanins {root : Node} (other : p ≠ root) {f : Fanins}
    (gate : net.gateFanins p = some f) (fanins : ∀ s ∈ f.toList, ¬ net.Reaches s.node root) :
    ¬ net.Reaches p root := by
  intro path
  cases path with
  | refl => exact other rfl
  | fanin gate' member below =>
    rw [gate] at gate'
    cases gate'
    exact fanins _ member below

/-- Each listed gate is a live gate whose fan-ins satisfy `P` or are listed before it. -/
def Ordered (net : Network) (P : Node → Prop) (gates : Array Node) : Prop :=
  ∀ k (lt : k < gates.size), ∃ f, net.gateFanins gates[k] = some f ∧
    ∀ s ∈ f.toList, P s.node ∨ ∃ j < k, gates[j]? = some s.node

variable {P Q : Node → Prop} {gates : Array Node}

theorem Ordered.gate_of_mem (ordered : net.Ordered P gates) {g : Node} (member : g ∈ gates) :
    ∃ f, net.gateFanins g = some f := by
  obtain ⟨k, lt, rfl⟩ := Array.getElem_of_mem member
  obtain ⟨f, gate, -⟩ := ordered k lt
  exact ⟨f, gate⟩

/-- A fan-in of a listed gate satisfies `P` or is listed. -/
theorem Ordered.fanin (ordered : net.Ordered P gates) {g : Node} (member : g ∈ gates) {f : Fanins}
    (gate : net.gateFanins g = some f) {s : Signal} (slot : s ∈ f.toList) : P s.node ∨ s.node ∈ gates := by
  obtain ⟨k, lt, rfl⟩ := Array.getElem_of_mem member
  obtain ⟨f', gate', fanins⟩ := ordered k lt
  rw [gate] at gate'
  cases gate'
  rcases fanins s slot with holds | ⟨j, -, found⟩
  · exact .inl holds
  · exact .inr (Array.mem_of_getElem? found)

/-- Listing one more live gate whose fan-ins satisfy `P` or are listed keeps the order. -/
theorem Ordered.push (ordered : net.Ordered P gates) {f : Fanins} (gate : net.gateFanins n = some f)
    (fanins : ∀ s ∈ f.toList, P s.node ∨ s.node ∈ gates) : net.Ordered P (gates.push n) := by
  intro k lt
  rw [Array.size_push] at lt
  rcases Nat.lt_succ_iff_lt_or_eq.mp lt with old | rfl
  · obtain ⟨f', gate', fanins'⟩ := ordered k old
    refine ⟨f', by rw [Array.getElem_push_lt old]; exact gate', fun s slot => ?_⟩
    rcases fanins' s slot with holds | ⟨j, before, found⟩
    · exact .inl holds
    · have inside : j < gates.size := (Array.getElem?_eq_some_iff.mp found).1
      exact .inr ⟨j, before, by rw [Array.getElem?_push, if_neg (by omega)]; exact found⟩
  · refine ⟨f, by rw [Array.getElem_push_eq]; exact gate, fun s slot => ?_⟩
    rcases fanins s slot with holds | member
    · exact .inl holds
    · obtain ⟨j, found⟩ := Array.mem_iff_getElem?.mp member
      have inside : j < gates.size := (Array.getElem?_eq_some_iff.mp found).1
      exact .inr ⟨j, inside, by rw [Array.getElem?_push, if_neg (by omega)]; exact found⟩

/-- The order holds for a weaker property when every fan-in of a listed gate that satisfies `P`
satisfies it. -/
theorem Ordered.mono (ordered : net.Ordered P gates)
    (weaker : ∀ g ∈ gates, ∀ f, net.gateFanins g = some f → ∀ s ∈ f.toList, P s.node → Q s.node) :
    net.Ordered Q gates := by
  intro k lt
  obtain ⟨f, gate, fanins⟩ := ordered k lt
  refine ⟨f, gate, fun s slot => ?_⟩
  rcases fanins s slot with holds | earlier
  · exact .inl (weaker _ (Array.getElem_mem lt) f gate s slot holds)
  · exact .inr earlier

/-- Distinct listed gates are no more than the nodes of the network. -/
theorem Ordered.size_le (ordered : net.Ordered P gates) (nodup : gates.toList.Nodup) :
    gates.size ≤ net.size := by
  rw [← Array.length_toList]
  refine length_le_of_ids_lt nodup fun g member => ?_
  obtain ⟨f, gate⟩ := ordered.gate_of_mem (Array.mem_toList_iff.mp member)
  exact lt_size_of_gateFanins gate

end Network

namespace WindowLimits

open Network

variable {net : Network} {root n : Node} {leaves : Array Node}

/-- A node in a window that holds the leaves and the listed gates is a leaf or a listed gate. -/
theorem mem_of_keys {window : Std.HashMap Nat Unit} {gates : Array Node}
    (keys : ∀ i, i ∈ window ↔ (∃ l ∈ leaves, l.id = i) ∨ ∃ g ∈ gates, g.id = i) {m : Node}
    (key : m.id ∈ window) : m ∈ leaves ∨ m ∈ gates := by
  rcases (keys _).mp key with ⟨l, leaf, same⟩ | ⟨g, member, same⟩
  · exact .inl (Node.eq_of_id_eq same ▸ leaf)
  · exact .inr (Node.eq_of_id_eq same ▸ member)

/-- The keys of a window that holds the leaves and the listed gates, after one more gate. -/
theorem keys_push {window : Std.HashMap Nat Unit} {gates : Array Node}
    (keys : ∀ i, i ∈ window ↔ (∃ l ∈ leaves, l.id = i) ∨ ∃ g ∈ gates, g.id = i) (n : Node) (i : Nat) :
    i ∈ window.insert n.id () ↔ (∃ l ∈ leaves, l.id = i) ∨ ∃ g ∈ gates.push n, g.id = i := by
  rw [Std.HashMap.mem_insert, beq_iff_eq, keys]
  simp only [Array.mem_push, or_and_right, exists_or, exists_eq_left]
  constructor
  · rintro (same | leaf | old)
    · exact .inr (.inr same)
    · exact .inl leaf
    · exact .inr (.inl old)
  · rintro (leaf | old | same)
    · exact .inr (.inl leaf)
    · exact .inr (.inr old)
    · exact .inl same

/-- The gates listed with one more that was not listed are distinct. -/
theorem nodup_push {gates : Array Node} (nodup : gates.toList.Nodup) (fresh : n ∉ gates) :
    (gates.push n).toList.Nodup := by
  rw [Array.toList_push, List.nodup_append]
  refine ⟨nodup, List.nodup_singleton n, fun a member b same equal => ?_⟩
  rw [List.mem_singleton] at same
  exact fresh (Array.mem_toList_iff.mp (same ▸ equal ▸ member))

/-! ### One step of the cone walk -/

section Steps

variable (net root)
variable (fuel : Nat) (stack : List (Node × Bool)) (visited window : Std.HashMap Nat Unit)
  (gates : Array Node)

theorem coneWalk_finish_root :
    coneWalk net root (fuel + 1) ((root, true) :: stack) visited window gates =
      coneWalk net root fuel stack visited window gates := by
  simp [coneWalk]

theorem coneWalk_finish (other : n ≠ root) :
    coneWalk net root (fuel + 1) ((n, true) :: stack) visited window gates =
      coneWalk net root fuel stack visited (window.insert n.id ()) (gates.push n) := by
  simp [coneWalk, other]

theorem coneWalk_known (known : n.id ∈ window) :
    coneWalk net root (fuel + 1) ((n, false) :: stack) visited window gates =
      coneWalk net root fuel stack visited window gates := by
  simp [coneWalk, Std.HashMap.contains_iff_mem.mpr known]

theorem coneWalk_leaf (fresh : n.id ∉ window) (leaf : net.isGate n = .ok false) :
    coneWalk net root (fuel + 1) ((n, false) :: stack) visited window gates =
      coneWalk net root fuel stack visited window gates := by
  simp [coneWalk, fresh, leaf]

theorem coneWalk_expand (fresh : n.id ∉ window) (unseen : n.id ∉ visited)
    (isGate : net.isGate n = .ok true) {f : Fanins} (gate : net.gateFanins n = some f) :
    coneWalk net root (fuel + 1) ((n, false) :: stack) visited window gates =
      coneWalk net root fuel ((f.toList.map (·.node)).reverse.map (·, false) ++ (n, true) :: stack)
        (visited.insert n.id ()) window gates := by
  have fanned : net.fanins n = .ok f.toList := fanins_of_gateFanins gate
  simp [coneWalk, fresh, unseen, isGate, fanned, List.map_reverse, List.map_map, Function.comp_def]

end Steps

/-! ### Runs and states of the cone walk -/

variable (net root) in
/-- From `visited`, `window` and `gates` the cone walk works through `stack` in `steps` steps and
arrives at `visited'`, `window'` and `gates'`, whatever lies below `stack`. -/
def ConeWalks (stack : List (Node × Bool)) (visited window : Std.HashMap Nat Unit) (gates : Array Node)
    (visited' window' : Std.HashMap Nat Unit) (gates' : Array Node) (steps : Nat) : Prop :=
  ∀ fuel rest, steps ≤ fuel →
    coneWalk net root fuel (stack ++ rest) visited window gates =
      coneWalk net root (fuel - steps) rest visited' window' gates'

theorem ConeWalks.append {s₁ s₂ : List (Node × Bool)} {v₁ w₁ v₂ w₂ v₃ w₃ : Std.HashMap Nat Unit}
    {g₁ g₂ g₃ : Array Node} {k₁ k₂ : Nat} (first : ConeWalks net root s₁ v₁ w₁ g₁ v₂ w₂ g₂ k₁)
    (second : ConeWalks net root s₂ v₂ w₂ g₂ v₃ w₃ g₃ k₂) :
    ConeWalks net root (s₁ ++ s₂) v₁ w₁ g₁ v₃ w₃ g₃ (k₁ + k₂) := by
  intro fuel rest enough
  rw [List.append_assoc, first fuel (s₂ ++ rest) (by omega), second (fuel - k₁) rest (by omega),
    Nat.sub_sub]

variable (net root leaves) in
/-- A state of the cone walk between visits: the window holds exactly the leaves and the listed
gates, which are distinct, neither leaves nor the root, and each listed after those of its fan-ins
that are gates and no leaves. -/
structure ConeState (window : Std.HashMap Nat Unit) (gates : Array Node) : Prop where
  keys : ∀ i, i ∈ window ↔ (∃ l ∈ leaves, l.id = i) ∨ ∃ g ∈ gates, g.id = i
  nodup : gates.toList.Nodup
  outside : ∀ g ∈ gates, g ∉ leaves ∧ g ≠ root
  ordered : net.Ordered (fun m => net.gateFanins m = none ∨ m ∈ leaves) gates

variable {visited window : Std.HashMap Nat Unit} {gates : Array Node}

/-- Listing a gate out of the window, other than the root, whose fan-ins are in the window or are
no gates. -/
theorem ConeState.push (state : ConeState net root leaves window gates) (fresh : n.id ∉ window)
    (other : n ≠ root) {f : Fanins} (gate : net.gateFanins n = some f)
    (fanins : ∀ s ∈ f.toList, s.node.id ∈ window ∨ net.gateFanins s.node = none) :
    ConeState net root leaves (window.insert n.id ()) (gates.push n) where
  keys := keys_push state.keys n
  nodup := nodup_push state.nodup fun member => fresh ((state.keys _).mpr (.inr ⟨n, member, rfl⟩))
  outside g member := by
    rcases Array.mem_push.mp member with old | rfl
    · exact state.outside g old
    · exact ⟨fun leaf => fresh ((state.keys _).mpr (.inl ⟨g, leaf, rfl⟩)), other⟩
  ordered := state.ordered.push gate fun s slot => by
    rcases fanins s slot with key | none
    · rcases mem_of_keys state.keys key with leaf | member
      · exact .inl (.inr leaf)
      · exact .inr member
    · exact .inl (.inl none)

variable (net root leaves) in
/-- The outcome of visiting the nodes `roots` in turn: the walk arrives within four steps per gate
it lists and one per root, in a state that lists more gates after the same ones, marks the nodes
it marked and otherwise only listed gates, and keeps the window. Each gate it lists lies on a path
from a root that meets no leaf, and each root ends in the window or is no gate. -/
structure ConeVisited (roots : List Node) (visited window : Std.HashMap Nat Unit) (gates : Array Node)
    (visited' window' : Std.HashMap Nat Unit) (gates' : Array Node) : Prop where
  walks : ∃ steps, ConeWalks net root (roots.map (·, false)) visited window gates visited' window' gates'
    steps ∧ steps ≤ 4 * (gates'.size - gates.size) + roots.length
  state : ConeState net root leaves window' gates'
  prefix_ : gates.toList <+: gates'.toList
  marks : (∀ i ∈ visited, i ∈ visited') ∧ ∀ i ∈ visited', i ∈ visited ∨ ∃ g ∈ gates', g.id = i
  below : ∀ g ∈ gates', g ∈ gates ∨ ∃ c ∈ roots, net.Avoids (· ∈ leaves) c g
  grows : ∀ i ∈ window, i ∈ window'
  done : ∀ c ∈ roots, c.id ∈ window' ∨ net.gateFanins c = none

theorem mem_of_prefix {gates gates' : Array Node} (grown : gates.toList <+: gates'.toList) {g : Node}
    (member : g ∈ gates) : g ∈ gates' :=
  Array.mem_toList_iff.mp (grown.subset (Array.mem_toList_iff.mpr member))

theorem ConeVisited.nil (state : ConeState net root leaves window gates) :
    ConeVisited net root leaves [] visited window gates visited window gates :=
  ⟨⟨0, fun _ _ _ => rfl, Nat.zero_le _⟩, state, List.prefix_refl _,
    ⟨fun _ seen => seen, fun _ seen => .inl seen⟩, fun _ member => .inl member, fun _ key => key,
    fun _ member => (nomatch member)⟩

theorem ConeVisited.cons {c : Node} {cs : List Node} {v₂ w₂ v₃ w₃ : Std.HashMap Nat Unit}
    {g₂ g₃ : Array Node} (first : ConeVisited net root leaves [c] visited window gates v₂ w₂ g₂)
    (rest : ConeVisited net root leaves cs v₂ w₂ g₂ v₃ w₃ g₃) :
    ConeVisited net root leaves (c :: cs) visited window gates v₃ w₃ g₃ := by
  obtain ⟨k₁, walks₁, steps₁⟩ := first.walks
  obtain ⟨k₂, walks₂, steps₂⟩ := rest.walks
  have grows₁ := first.prefix_.length_le
  have grows₂ := rest.prefix_.length_le
  simp only [Array.length_toList] at grows₁ grows₂
  refine ⟨⟨k₁ + k₂, walks₁.append walks₂, ?_⟩, rest.state, first.prefix_.trans rest.prefix_,
    ⟨fun i seen => rest.marks.1 i (first.marks.1 i seen), fun i seen => ?_⟩, fun g member => ?_,
    fun i key => rest.grows i (first.grows i key), fun c' member => ?_⟩
  · simp only [List.length_cons, List.length_nil] at steps₁ ⊢
    omega
  · rcases rest.marks.2 i seen with middle | later
    · rcases first.marks.2 i middle with old | ⟨g, member, same⟩
      · exact .inl old
      · exact .inr ⟨g, mem_of_prefix rest.prefix_ member, same⟩
    · exact .inr later
  · rcases rest.below g member with middle | ⟨c', root', path⟩
    · rcases first.below g middle with old | ⟨c', root', path⟩
      · exact .inl old
      · exact .inr ⟨c', List.mem_cons.mpr (.inl (List.mem_singleton.mp root')), path⟩
    · exact .inr ⟨c', List.mem_cons_of_mem _ root', path⟩
  · rcases List.mem_cons.mp member with rfl | later
    · rcases first.done c' (List.mem_singleton_self _) with key | none
      · exact .inl (rest.grows _ key)
      · exact .inr none
    · exact rest.done c' later

/-! ### Visits -/

/-- A node in the window is passed over in one step. -/
theorem coneVisited_known (state : ConeState net root leaves window gates) (known : n.id ∈ window) :
    ConeVisited net root leaves [n] visited window gates visited window gates := by
  refine ⟨⟨1, fun fuel rest enough => ?_, by simp⟩, state, List.prefix_refl _,
    ⟨fun _ seen => seen, fun _ seen => .inl seen⟩, fun _ member => .inl member, fun _ key => key,
    fun c member => .inl (List.mem_singleton.mp member ▸ known)⟩
  obtain ⟨fuel, rfl⟩ : ∃ k, fuel = k + 1 := ⟨fuel - 1, by omega⟩
  exact coneWalk_known net root fuel rest visited window gates known

/-- A node that is no gate is passed over in one step. -/
theorem coneVisited_leaf (state : ConeState net root leaves window gates) (fresh : n.id ∉ window)
    (leaf : net.isGate n = .ok false) (notGate : net.gateFanins n = none) :
    ConeVisited net root leaves [n] visited window gates visited window gates := by
  refine ⟨⟨1, fun fuel rest enough => ?_, by simp⟩, state, List.prefix_refl _,
    ⟨fun _ seen => seen, fun _ seen => .inl seen⟩, fun _ member => .inl member, fun _ key => key,
    fun c member => .inr (List.mem_singleton.mp member ▸ notGate)⟩
  obtain ⟨fuel, rfl⟩ : ∃ k, fuel = k + 1 := ⟨fuel - 1, by omega⟩
  exact coneWalk_leaf net root fuel rest visited window gates fresh leaf

variable {rank : Node → Nat}

/-- Visiting the nodes `cs` in turn, each ranked below every node in progress, given that a single
such node can be visited. -/
theorem coneVisited_all {r : Nat}
    (single : ∀ c, net.Live c → rank c < r → ∀ v w g, ConeState net root leaves w g → root.id ∈ v →
      (∀ i ∈ v, (∃ g' ∈ g, g'.id = i) ∨ rank c < rank ⟨i⟩) →
      ∃ v' w' g', ConeVisited net root leaves [c] v w g v' w' g')
    (cs : List Node) (lower : ∀ c ∈ cs, net.Live c ∧ rank c < r) (visited window : Std.HashMap Nat Unit)
    (gates : Array Node) (state : ConeState net root leaves window gates) (rootSeen : root.id ∈ visited)
    (ancestors : ∀ i ∈ visited, (∃ g ∈ gates, g.id = i) ∨ r ≤ rank ⟨i⟩) :
    ∃ v' w' g', ConeVisited net root leaves cs visited window gates v' w' g' := by
  induction cs generalizing visited window gates with
  | nil => exact ⟨_, _, _, .nil state⟩
  | cons c cs ih =>
    obtain ⟨live, low⟩ := lower c List.mem_cons_self
    obtain ⟨v₁, w₁, g₁, first⟩ := single c live low visited window gates state rootSeen
      fun i seen => (ancestors i seen).imp_right (Nat.lt_of_lt_of_le low)
    -- the nodes marked by the first visit are listed, and the others keep their standing
    obtain ⟨v₂, w₂, g₂, rest⟩ := ih (fun c member => lower c (List.mem_cons_of_mem _ member))
      v₁ w₁ g₁ first.state (first.marks.1 _ rootSeen) fun i seen => by
        rcases first.marks.2 i seen with old | listed
        · exact (ancestors i old).imp_left fun ⟨g, member, same⟩ =>
            ⟨g, mem_of_prefix first.prefix_ member, same⟩
        · exact .inl listed
    exact ⟨v₂, w₂, g₂, first.cons rest⟩

/-- Visiting a gate out of the window that is not marked: the walk marks it, visits its fan-ins,
and lists it when it comes back to it. -/
theorem coneVisited_expand (coherent : net.Coherent) (ranked : net.Ranked rank)
    (state : ConeState net root leaves window gates) (fresh : n.id ∉ window) (unseen : n.id ∉ visited)
    (rootSeen : root.id ∈ visited) {f : Fanins} (gate : net.gateFanins n = some f)
    (ancestors : ∀ i ∈ visited, (∃ g ∈ gates, g.id = i) ∨ rank n < rank ⟨i⟩)
    (single : ∀ c, net.Live c → rank c < rank n → ∀ v w g, ConeState net root leaves w g →
      root.id ∈ v → (∀ i ∈ v, (∃ g' ∈ g, g'.id = i) ∨ rank c < rank ⟨i⟩) →
      ∃ v' w' g', ConeVisited net root leaves [c] v w g v' w' g') :
    ∃ v' w' g', ConeVisited net root leaves [n] visited window gates v' w' g' := by
  have other : n ≠ root := fun same => unseen (same ▸ rootSeen)
  have notLeaf : n ∉ leaves := fun leaf => fresh ((state.keys _).mpr (.inl ⟨n, leaf, rfl⟩))
  have isGate : net.isGate n = .ok true := by
    have read := coherent.isGate_eq (live_of_gateFanins gate)
    rw [gate] at read
    exact read
  obtain ⟨cs, listed⟩ : ∃ cs : List Node, cs = (f.toList.map (·.node)).reverse := ⟨_, rfl⟩
  have children : ∀ c ∈ cs, ∃ s ∈ f.toList, s.node = c := by
    intro c member
    rw [listed, List.mem_reverse, List.mem_map] at member
    exact member
  have three : cs.length = 3 := by
    rw [listed]
    simp [Fanins.toList]
  obtain ⟨v₂, w₂, g₂, visited₂⟩ := coneVisited_all single cs
    (fun c member => by
      obtain ⟨s, slot, rfl⟩ := children c member
      exact ⟨coherent.faninsLive n f gate s slot, ranked n f gate s slot⟩)
    (visited.insert n.id ()) window gates state (Std.HashMap.mem_insert.mpr (.inr rootSeen))
    fun i seen => by
      rcases Std.HashMap.mem_insert.mp seen with same | old
      · exact .inr (by rw [← beq_iff_eq.mp same])
      · exact (ancestors i old).imp_right Nat.le_of_lt
  obtain ⟨k, walks, steps⟩ := visited₂.walks
  -- the fan-ins rank below the gate, so the visits below them do not list it
  have notListed : n ∉ g₂ := by
    intro member
    rcases visited₂.below n member with old | ⟨c, child, path⟩
    · exact fresh ((state.keys _).mpr (.inr ⟨n, old, rfl⟩))
    · obtain ⟨s, slot, rfl⟩ := children c child
      exact absurd (Nat.lt_of_le_of_lt (ranked.rank_le_of_reaches path.reaches)
        (ranked n f gate s slot)) (Nat.lt_irrefl _)
  have fresh₂ : n.id ∉ w₂ := fun key => by
    rcases mem_of_keys visited₂.state.keys key with leaf | member
    · exact notLeaf leaf
    · exact notListed member
  have grown := visited₂.prefix_.length_le
  simp only [Array.length_toList] at grown
  refine ⟨v₂, w₂.insert n.id (), g₂.push n, ⟨⟨k + 2, fun fuel rest enough => ?_, ?_⟩,
    visited₂.state.push fresh₂ other gate fun s slot => visited₂.done s.node ?_,
    visited₂.prefix_.trans (by simp), ⟨fun i seen =>
      visited₂.marks.1 i (Std.HashMap.mem_insert.mpr (.inr seen)), fun i seen => ?_⟩,
    fun g member => ?_, fun i key => Std.HashMap.mem_insert.mpr (.inr (visited₂.grows i key)),
    fun c member => ?_⟩⟩
  · -- mark the gate, visit the fan-ins, and list the gate
    obtain ⟨fuel, rfl⟩ : ∃ m, fuel = m + 1 := ⟨fuel - 1, by omega⟩
    have back : fuel - k = (fuel - k - 1) + 1 := by omega
    simp only [List.map_cons, List.map_nil, List.cons_append, List.nil_append]
    rw [coneWalk_expand net root fuel rest visited window gates fresh unseen isGate gate, ← listed,
      walks fuel ((n, true) :: rest) (by omega), back, coneWalk_finish net root _ rest v₂ w₂ g₂ other]
    congr 1
    omega
  · simp only [List.length_cons, List.length_nil, Array.size_push] at steps ⊢
    omega
  · rw [listed, List.mem_reverse]
    exact List.mem_map_of_mem slot
  · rcases visited₂.marks.2 i seen with old | ⟨g, member, same⟩
    · rcases Std.HashMap.mem_insert.mp old with same | old
      · exact .inr ⟨n, Array.mem_push_self, beq_iff_eq.mp same⟩
      · exact .inl old
    · exact .inr ⟨g, Array.mem_push_of_mem _ member, same⟩
  · rcases Array.mem_push.mp member with old | rfl
    · rcases visited₂.below g old with older | ⟨c, child, path⟩
      · exact .inl older
      · obtain ⟨s, slot, rfl⟩ := children c child
        exact .inr ⟨n, List.mem_singleton_self _, .fanin notLeaf gate slot path⟩
    · exact .inr ⟨g, List.mem_singleton_self _, .refl notLeaf⟩
  · rw [List.mem_singleton.mp member]
    exact .inl (Std.HashMap.mem_insert.mpr (.inl (beq_self_eq_true _)))

/-- Every live node can be visited from a state whose nodes in progress rank above it; the
induction is on a bound of the node's rank. -/
theorem coneVisited_single (coherent : net.Coherent) (ranked : net.Ranked rank) :
    ∀ k c, rank c < k → net.Live c → ∀ visited window gates, ConeState net root leaves window gates →
      root.id ∈ visited → (∀ i ∈ visited, (∃ g ∈ gates, g.id = i) ∨ rank c < rank ⟨i⟩) →
      ∃ v' w' g', ConeVisited net root leaves [c] visited window gates v' w' g'
  | 0, _, low, _, _, _, _, _, _, _ => absurd low (Nat.not_lt_zero _)
  | k + 1, c, low, live, visited, window, gates, state, rootSeen, ancestors => by
    by_cases known : c.id ∈ window
    · exact ⟨_, _, _, coneVisited_known state known⟩
    cases gate : net.gateFanins c with
    | none =>
      have leaf : net.isGate c = .ok false := by
        have read := coherent.isGate_eq live
        rw [gate] at read
        exact read
      exact ⟨_, _, _, coneVisited_leaf state known leaf gate⟩
    | some f =>
      -- a marked node is listed or in progress above this one, so this one is not marked
      have unseen : c.id ∉ visited := fun seen => by
        rcases ancestors _ seen with ⟨g, member, same⟩ | lt
        · exact known ((state.keys _).mpr (.inr ⟨g, member, same⟩))
        · exact Nat.lt_irrefl _ lt
      exact coneVisited_expand coherent ranked state known unseen rootSeen gate ancestors
        fun c' live' low' => coneVisited_single coherent ranked k c' (by omega) live'

/-- The cone walk from a live gate out of the window, which holds exactly the leaves: it lists
gates in a state as above, each on a path from the root that meets no leaf, and ends with each
fan-in of the root in the window or no gate. -/
theorem coneWalk_spec (coherent : net.Coherent) {f : Fanins} (gate : net.gateFanins root = some f)
    (outsideRoot : root ∉ leaves) {window : Std.HashMap Nat Unit}
    (keys : ∀ i, i ∈ window ↔ ∃ l ∈ leaves, l.id = i) :
    ∃ window' gates, coneWalk net root (4 * net.size + 4) [(root, false)] {} window #[] =
        .ok (window', gates) ∧ ConeState net root leaves window' gates ∧
      (∀ g ∈ gates, net.Avoids (· ∈ leaves) root g) ∧
      ∀ s ∈ f.toList, s.node.id ∈ window' ∨ net.gateFanins s.node = none := by
  obtain ⟨rank, ranked⟩ := coherent.acyclic
  have start : ConeState net root leaves window #[] :=
    ⟨fun i => by simp [keys], List.nodup_nil, fun _ member => by simp at member,
      fun k lt => by simp at lt⟩
  have fresh : root.id ∉ window := fun key => by
    obtain ⟨l, leaf, same⟩ := (keys _).mp key
    exact outsideRoot (Node.eq_of_id_eq same ▸ leaf)
  have isGate : net.isGate root = .ok true := by
    have read := coherent.isGate_eq (live_of_gateFanins gate)
    rw [gate] at read
    exact read
  obtain ⟨cs, listed⟩ : ∃ cs : List Node, cs = (f.toList.map (·.node)).reverse := ⟨_, rfl⟩
  have children : ∀ c ∈ cs, ∃ s ∈ f.toList, s.node = c := by
    intro c member
    rw [listed, List.mem_reverse, List.mem_map] at member
    exact member
  have three : cs.length = 3 := by
    rw [listed]
    simp [Fanins.toList]
  obtain ⟨v, w, g, visited⟩ := coneVisited_all
    (fun c live low => coneVisited_single coherent ranked (rank root) c low live) cs
    (fun c member => by
      obtain ⟨s, slot, rfl⟩ := children c member
      exact ⟨coherent.faninsLive root f gate s slot, ranked root f gate s slot⟩)
    (({} : Std.HashMap Nat Unit).insert root.id ()) window #[] start
    (Std.HashMap.mem_insert.mpr (.inl (beq_self_eq_true _)))
    fun i seen => by
      rcases Std.HashMap.mem_insert.mp seen with same | none
      · exact .inr (by rw [← beq_iff_eq.mp same])
      · simp at none
  obtain ⟨k, walks, steps⟩ := visited.walks
  -- the listed gates and the root are distinct gates of the network, so the fuel covers the walk
  have bounded : g.size + 1 ≤ net.size := by
    have distinct : (root :: g.toList).Nodup := List.nodup_cons.mpr
      ⟨fun member => (visited.state.outside root (Array.mem_toList_iff.mp member)).2 rfl,
        visited.state.nodup⟩
    have : (root :: g.toList).length ≤ net.size := length_le_of_ids_lt distinct fun m member => by
      rcases List.mem_cons.mp member with rfl | listedGate
      · exact lt_size_of_gateFanins gate
      · obtain ⟨f', gate'⟩ := visited.state.ordered.gate_of_mem (Array.mem_toList_iff.mp listedGate)
        exact lt_size_of_gateFanins gate'
    simpa using this
  simp only [Array.size_empty, Nat.sub_zero] at steps
  have run : coneWalk net root (4 * net.size + 4) [(root, false)] {} window #[] = .ok (w, g) := by
    rw [show 4 * net.size + 4 = (4 * net.size + 3) + 1 from rfl,
      coneWalk_expand net root _ [] _ _ _ fresh (by simp) isGate gate, ← listed,
      walks _ [(root, true)] (by omega),
      show 4 * net.size + 3 - k = (4 * net.size + 2 - k) + 1 by omega, coneWalk_finish_root,
      show 4 * net.size + 2 - k = (4 * net.size + 1 - k) + 1 by omega]
    rfl
  refine ⟨w, g, run, visited.state, fun m member => ?_, fun s slot => visited.done s.node ?_⟩
  · rcases visited.below m member with old | ⟨c, child, path⟩
    · simp at old
    · obtain ⟨s, slot, rfl⟩ := children c child
      exact .fanin outsideRoot gate slot path
  · rw [listed, List.mem_reverse]
    exact List.mem_map_of_mem slot

/-- The gates that the cone walk lists are exactly the gates other than the root that a path from
the root reaches without meeting a leaf. -/
theorem ConeState.mem_iff (state : ConeState net root leaves window gates)
    (below : ∀ g ∈ gates, net.Avoids (· ∈ leaves) root g) {f : Fanins}
    (gate : net.gateFanins root = some f)
    (rootDone : ∀ s ∈ f.toList, s.node.id ∈ window ∨ net.gateFanins s.node = none) (g : Node) :
    g ∈ gates ↔ g ≠ root ∧ (net.gateFanins g).isSome ∧ net.Avoids (· ∈ leaves) root g := by
  constructor
  · intro member
    obtain ⟨f', gate'⟩ := state.ordered.gate_of_mem member
    exact ⟨(state.outside g member).2, by rw [gate']; rfl, below g member⟩
  · rintro ⟨other, isGate, path⟩
    -- along the path every node is the root or listed: a fan-in of either that is a gate and no
    -- leaf is listed
    suffices along : ∀ a b, net.Avoids (· ∈ leaves) a b → b ≠ root → (net.gateFanins b).isSome →
        (a = root ∨ a ∈ gates) → b ∈ gates from along root g path other isGate (.inl rfl)
    intro a b path'
    induction path' with
    | refl _ => exact fun other _ onPath => onPath.resolve_left other
    | @fanin a m f' s outside gate' slot rest ih =>
      intro other isGate onPath
      have notLeaf : s.node ∉ leaves := rest.start_outside
      have covered : s.node ∈ gates ∨ net.gateFanins s.node = none := by
        rcases onPath with rfl | member
        · rw [gate] at gate'
          cases gate'
          rcases rootDone s slot with key | none
          · exact .inl ((mem_of_keys state.keys key).resolve_left notLeaf)
          · exact .inr none
        · rcases state.ordered.fanin member gate' slot with (none | leaf) | listed
          · exact .inr none
          · exact absurd leaf notLeaf
          · exact .inl listed
      rcases covered with listed | none
      · exact ih other isGate (.inr listed)
      · rw [← rest.reaches.eq_of_gateFanins_none none, none] at isGate
        cases isGate

/-! ### The scan -/

/-- On a live gate `p` of a coherent network, the admission test reads the fan-out of `p` and
answers whether `p` is not the root, not in the window, within the fan-out limit, and has every
fan-in the constant or in the window. -/
theorem admits_gate (lim : WindowLimits) (root : Node) (window : Std.HashMap Nat Unit)
    (coherent : net.Coherent) {p : Node} {f : Fanins} (gate : net.gateFanins p = some f) :
    ∃ m, net.fanoutSize p = .ok m ∧ lim.admits net root window p = .ok (decide (p ≠ root ∧
      p.id ∉ window ∧ m ≤ lim.skipFanoutLimit ∧ ∀ s ∈ f.toList, s.node.id = 0 ∨ s.node.id ∈ window)) := by
  have live := live_of_gateFanins gate
  obtain ⟨m, fanout⟩ := coherent.fanoutSize_of_live live
  have alive := coherent.isDead_of_live live
  have fanned : net.fanins p = .ok f.toList := fanins_of_gateFanins gate
  refine ⟨m, fanout, ?_⟩
  by_cases same : p = root
  · simp [admits, same]
    rfl
  · by_cases inside : p.id ∈ window
    · simp [admits, same, alive, inside]
    · by_cases bounded : m ≤ lim.skipFanoutLimit
      · have within : ¬ lim.skipFanoutLimit < m := Nat.not_lt.mpr bounded
        simp [admits, same, alive, inside, fanout, within, fanned, bounded]
        rw [Bool.eq_iff_iff]
        simp [List.all_eq_true]
      · have beyond : lim.skipFanoutLimit < m := Nat.lt_of_not_le bounded
        simp [admits, same, alive, inside, fanout, beyond, bounded]

variable {lim : WindowLimits} {cone : Array Node}

/-- A state of the scan after the cone `cone`: the window holds exactly the leaves and the listed
gates; these are distinct, none a leaf or reaching the root, each listed after those of its
fan-ins that are neither the constant nor a leaf; they start with the cone, number at most
`maxDivisors` or the cone's size, and past the cone each has a fan-out within the limit. -/
structure WindowState (lim : WindowLimits) (net : Network) (root : Node) (leaves cone : Array Node)
    (window : Std.HashMap Nat Unit) (gates : Array Node) : Prop where
  keys : ∀ i, i ∈ window ↔ (∃ l ∈ leaves, l.id = i) ∨ ∃ g ∈ gates, g.id = i
  nodup : gates.toList.Nodup
  outside : ∀ g ∈ gates, g ∉ leaves ∧ ¬ net.Reaches g root
  ordered : net.Ordered (fun m => m = Node.constant ∨ m ∈ leaves) gates
  prefix_ : cone.toList <+: gates.toList
  size : gates.size ≤ max lim.maxDivisors cone.size
  limited : ∀ k (lt : k < gates.size), cone.size ≤ k →
    ∃ m, net.fanoutSize gates[k] = .ok m ∧ m ≤ lim.skipFanoutLimit

/-- The scan starts from the cone: its gates lie on paths from the root that meet no leaf, so none
of them reaches the root, and a fan-in of one of them that is no gate is the constant or a leaf,
since an input off the leaves would be reached from the root past them. -/
theorem ConeState.toWindowState (state : ConeState net root leaves window cone) (coherent : net.Coherent)
    (separates : net.Separates leaves root) (below : ∀ g ∈ cone, net.Avoids (· ∈ leaves) root g) :
    WindowState lim net root leaves cone window cone where
  keys := state.keys
  nodup := state.nodup
  outside g member := ⟨(state.outside g member).1,
    coherent.not_reaches_back (below g member).reaches (state.outside g member).2.symm⟩
  ordered := state.ordered.mono fun g member f gate s slot => by
    rintro (none | leaf)
    · rcases coherent.live_cases (coherent.faninsLive g f gate s slot) with constant | input | isGate
      · exact .inl constant
      · by_cases leaf : s.node ∈ leaves
        · exact .inr leaf
        · exact absurd ((below g member).trans (.fanin (state.outside g member).1 gate slot (.refl leaf)))
            (separates s.node input)
      · rw [none] at isGate
        cases isGate
    · exact .inr leaf
  prefix_ := List.prefix_refl _
  size := Nat.le_max_right _ _
  limited _ lt past := absurd lt (Nat.not_lt.mpr past)

/-- Listing an admitted gate: not the root, out of the window, within the fan-out limit and with
every fan-in the constant or in the window, while fewer than `maxDivisors` gates are listed. -/
theorem WindowState.push (state : WindowState lim net root leaves cone window gates)
    (coherent : net.Coherent) (rootGate : (net.gateFanins root).isSome)
    (above : ∀ l ∈ leaves, ¬ net.Reaches l root) {p : Node} {f : Fanins}
    (gate : net.gateFanins p = some f) (room : gates.size < lim.maxDivisors) (other : p ≠ root)
    (fresh : p.id ∉ window) {m : Nat} (fanout : net.fanoutSize p = .ok m)
    (within : m ≤ lim.skipFanoutLimit) (supported : ∀ s ∈ f.toList, s.node.id = 0 ∨ s.node.id ∈ window) :
    WindowState lim net root leaves cone (window.insert p.id ()) (gates.push p) where
  keys := keys_push state.keys p
  nodup := nodup_push state.nodup fun member => fresh ((state.keys _).mpr (.inr ⟨p, member, rfl⟩))
  outside g member := by
    rcases Array.mem_push.mp member with old | rfl
    · exact state.outside g old
    refine ⟨fun leaf => fresh ((state.keys _).mpr (.inl ⟨g, leaf, rfl⟩)),
      not_reaches_of_fanins other gate fun s slot path => ?_⟩
    rcases supported s slot with zero | key
    · -- the constant reaches only itself, and the root is a gate
      rw [show s.node = Node.constant from Node.eq_of_id_eq zero] at path
      rw [← path.eq_of_gateFanins_none coherent.gateFanins_constant, coherent.gateFanins_constant]
        at rootGate
      cases rootGate
    · rcases mem_of_keys state.keys key with leaf | listed
      · exact above _ leaf path
      · exact (state.outside _ listed).2 path
  ordered := state.ordered.push gate fun s slot => by
    rcases supported s slot with zero | key
    · exact .inl (.inl (Node.eq_of_id_eq zero))
    · rcases mem_of_keys state.keys key with leaf | listed
      · exact .inl (.inr leaf)
      · exact .inr listed
  prefix_ := state.prefix_.trans (by simp)
  size := by
    rw [Array.size_push]
    exact Nat.le_trans room (Nat.le_max_left _ _)
  limited k lt past := by
    rw [Array.size_push] at lt
    rcases Nat.lt_succ_iff_lt_or_eq.mp lt with old | rfl
    · rw [Array.getElem_push_lt old]
      exact state.limited k old past
    · rw [Array.getElem_push_eq]
      exact ⟨m, fanout, within⟩

/-- The scan from position `i` of the frontier, the leaves followed by the listed gates, returns
in a state as above, while the fuel covers the positions left: distinct live gates are no more than
the nodes of the network. -/
theorem expand_spec (coherent : net.Coherent) (rootGate : (net.gateFanins root).isSome)
    (live : ∀ l ∈ leaves, net.Live l) (above : ∀ l ∈ leaves, ¬ net.Reaches l root) :
    ∀ fuel i window gates, WindowState lim net root leaves cone window gates →
      i ≤ leaves.size + gates.size → leaves.size + net.size < i + fuel →
      ∃ gates', lim.expand net root fuel i (leaves ++ gates) window gates = .ok gates' ∧
        ∃ window', WindowState lim net root leaves cone window' gates'
  | 0, i, window, gates, state, within, enough => by
    have bounded := state.ordered.size_le state.nodup
    omega
  | fuel + 1, i, window, gates, state, within, enough => by
    by_cases more : i < leaves.size + gates.size ∧ gates.size < lim.maxDivisors
    · obtain ⟨lt, room⟩ := more
      -- the node at position `i` is a leaf or a listed gate, so its users can be read
      have lt' : i < (leaves ++ gates).size := by
        rw [Array.size_append]
        exact lt
      have member : (leaves ++ gates).getD i default ∈ leaves ++ gates := by
        rw [Array.getD_eq_getD_getElem?, Array.getElem?_eq_getElem lt']
        exact Array.getElem_mem lt'
      have liveN : net.Live ((leaves ++ gates).getD i default) := by
        rcases Array.mem_append.mp member with leaf | listed
        · exact live _ leaf
        · obtain ⟨f, gate⟩ := state.ordered.gate_of_mem listed
          exact live_of_gateFanins gate
      obtain ⟨ps, found⟩ := coherent.parents_live liveN
      simp only [expand, lt', room, decide_true, Bool.and_self, Bool.not_true, Bool.false_eq_true,
        if_false, found, except_ok_bind, ← Array.forIn_toList]
      refine forIn_ok_of_step_bind (fun st => st.1 = leaves ++ st.2.2 ∧
          WindowState lim net root leaves cone st.2.1 st.2.2 ∧ gates.size ≤ st.2.2.size) ?_
        ⟨rfl, state, Nat.le_refl _⟩ ?_
      · rintro p listed ⟨frontier, w, g⟩ ⟨same, state', grown⟩
        dsimp only at same state' grown ⊢
        subst same
        obtain ⟨f, gate, -⟩ := coherent.gate_of_mem_parents found (Array.mem_toList_iff.mp listed)
        obtain ⟨m, fanout, admitted⟩ := admits_gate lim root w coherent gate
        by_cases full : lim.maxDivisors ≤ g.size
        · exact ⟨.done (leaves ++ g, w, g), by simp [full]; rfl, rfl, state', grown⟩
        by_cases accepted : p ≠ root ∧ p.id ∉ w ∧ m ≤ lim.skipFanoutLimit ∧
            ∀ s ∈ f.toList, s.node.id = 0 ∨ s.node.id ∈ w
        · obtain ⟨other, fresh, within', supported⟩ := accepted
          refine ⟨.yield ((leaves ++ g).push p, w.insert p.id (), g.push p), ?_,
            (Array.append_push ..).symm, state'.push coherent rootGate above gate (by omega) other
              fresh fanout within' supported, by simp; omega⟩
          rw [if_neg (show ¬ g.size ≥ lim.maxDivisors from full), admitted, except_ok_bind,
            if_pos (decide_eq_true ⟨other, fresh, within', supported⟩)]
          rfl
        · refine ⟨.yield (leaves ++ g, w, g), ?_, rfl, state', grown⟩
          rw [if_neg (show ¬ g.size ≥ lim.maxDivisors from full), admitted, except_ok_bind,
            if_neg (by simpa using accepted)]
          rfl
      · rintro ⟨frontier, w, g⟩ ⟨same, state', grown⟩
        dsimp only at same state' grown ⊢
        subst same
        exact expand_spec coherent rootGate live above fuel (i + 1) w g state' (by omega) (by omega)
    · simp only [expand, Array.size_append, Bool.not_and]
      refine ⟨gates, ?_, window, state⟩
      rw [if_pos (by simp; omega)]
      rfl

/-! ### The window -/

/-- The window before the walks holds exactly the leaves. -/
theorem mem_foldl_insert (leaves : Array Node) (i : Nat) :
    i ∈ leaves.foldl (fun w n => w.insert n.id ()) ({} : Std.HashMap Nat Unit) ↔
      ∃ l ∈ leaves, l.id = i := by
  suffices along : ∀ (l : List Node) (w : Std.HashMap Nat Unit),
      i ∈ l.foldl (fun w n => w.insert n.id ()) w ↔ i ∈ w ∨ ∃ m ∈ l, m.id = i by
    rw [← Array.foldl_toList, along]
    simp
  intro l
  induction l with
  | nil => simp
  | cons m rest ih =>
    intro w
    rw [List.foldl_cons, ih, Std.HashMap.mem_insert, beq_iff_eq]
    simp only [List.mem_cons, exists_eq_or_imp]
    constructor
    · rintro ((same | old) | later)
      · exact .inr (.inl same)
      · exact .inl old
      · exact .inr (.inr later)
    · rintro (old | same | later)
      · exact .inl (.inr old)
      · exact .inl (.inl same)
      · exact .inr later

/-- A sound window of `root` over `leaves` within the limits `lim`: distinct live gates, none a
leaf, the root or above the root, each listed after those of its fan-ins that are neither the
constant nor a leaf. They start with the cone, the gates other than the root that a path from the
root reaches without meeting a leaf; there are at most `maxDivisors` of them or as many as the
cone has, and past the cone each has a fan-out within the limit. -/
structure SoundWindow (lim : WindowLimits) (net : Network) (root : Node) (leaves gates : Array Node) :
    Prop where
  nodup : gates.toList.Nodup
  members : ∀ g ∈ gates, (net.gateFanins g).isSome ∧ g ∉ leaves ∧ ¬ net.Reaches g root
  ordered : net.Ordered (fun m => m = Node.constant ∨ m ∈ leaves) gates
  cone : ∃ c ≤ gates.size, (∀ g, g ∈ gates.toList.take c ↔
      g ≠ root ∧ (net.gateFanins g).isSome ∧ net.Avoids (· ∈ leaves) root g) ∧
    gates.size ≤ max lim.maxDivisors c ∧
    ∀ k (lt : k < gates.size), c ≤ k → ∃ m, net.fanoutSize gates[k] = .ok m ∧ m ≤ lim.skipFanoutLimit

/-- A state of the scan after the cone is a sound window. -/
theorem WindowState.sound (state : WindowState lim net root leaves cone window gates)
    (isCone : ∀ g, g ∈ cone ↔ g ≠ root ∧ (net.gateFanins g).isSome ∧ net.Avoids (· ∈ leaves) root g) :
    SoundWindow lim net root leaves gates where
  nodup := state.nodup
  members g member := by
    obtain ⟨f, gate⟩ := state.ordered.gate_of_mem member
    exact ⟨by rw [gate]; rfl, state.outside g member⟩
  ordered := state.ordered
  cone := by
    have front : gates.toList.take cone.size = cone.toList := by
      simpa using (List.prefix_iff_eq_take.mp state.prefix_).symm
    refine ⟨cone.size, by simpa using state.prefix_.length_le, fun g => ?_, state.size, state.limited⟩
    rw [front, Array.mem_toList_iff, isCone]

/-- On a coherent network, `collect` builds a sound window of a live gate over live leaves that
separate it from the inputs and lie below it, such as the leaves of its cut: it returns distinct
live gates, none a leaf, the root or a gate above the root (one that reaches it), each listed after
those of its fan-ins that are neither the constant nor a leaf. They start with every gate of the
cone between the leaves and the root, the root excluded; there are at most `maxDivisors` of them
or as many as the cone has, and every gate past the cone has a fan-out within the limit. -/
theorem collect_sound_window (coherent : net.Coherent) (lim : WindowLimits) {f : Fanins}
    (gate : net.gateFanins root = some f) (live : ∀ l ∈ leaves, net.Live l)
    (below : ∀ l ∈ leaves, ¬ net.Reaches l root) (separates : net.Separates leaves root) :
    ∃ gates, lim.collect net root leaves = .ok gates ∧ SoundWindow lim net root leaves gates := by
  have outsideRoot : root ∉ leaves := fun leaf => below root leaf (.refl root)
  obtain ⟨window, cone, walked, state, onPaths, rootDone⟩ :=
    coneWalk_spec coherent gate outsideRoot (mem_foldl_insert leaves)
  -- the scan starts from the cone and keeps its state to the end
  obtain ⟨gates, scanned, window', final⟩ := expand_spec coherent (by rw [gate]; rfl) live below
    (leaves.size + net.size + 2) 0 window cone (state.toWindowState coherent separates onPaths)
    (Nat.zero_le _) (by omega)
  refine ⟨gates, ?_, final.sound (state.mem_iff onPaths gate rootDone)⟩
  simp only [collect, walked, except_ok_bind]
  exact scanned

/-- The window of `(a ∧ b) ∧ (a ∨ b)` over the leaves of its cut, the two inputs: the cone
walk lists both gates below the top gate. -/
theorem collect_sound_window_of_and_or :
    ∃ net : Network, net.Coherent ∧ net.gateFanins ⟨5⟩ = some ⟨⟨0⟩, ⟨6⟩, ⟨8⟩⟩ ∧
      ∃ cut, Logged.Yields (CutLimit.compute CutLimit.standard net ⟨5⟩) cut ∧
        (∀ l ∈ cut, net.Live l) ∧ (∀ l ∈ cut, ¬ net.Reaches l ⟨5⟩) ∧ net.Separates cut ⟨5⟩ ∧
        ∃ gates, (⟨150, 100⟩ : WindowLimits).collect net ⟨5⟩ cut = .ok gates ∧
          SoundWindow ⟨150, 100⟩ net ⟨5⟩ cut gates ∧ ⟨3⟩ ∈ gates ∧ ⟨4⟩ ∈ gates := by
  obtain ⟨net, cut, wf, gate₃, gate₄, gate₅, -, yields, valid, leaves⟩ := CutLimit.andOr_cut
  -- the leaves of a cut are live nodes below the root
  have leavesLive : ∀ l ∈ cut, net.Live l := fun l member => (valid.leaves l member).1
  have leavesBelow : ∀ l ∈ cut, ¬ net.Reaches l ⟨5⟩ := fun l member => by
    obtain ⟨-, -, other, path⟩ := valid.leaves l member
    exact wf.not_reaches_back path (Ne.symm other)
  obtain ⟨gates, collected, sound⟩ := collect_sound_window wf.toCoherent ⟨150, 100⟩ gate₅ leavesLive
    leavesBelow valid.separates
  -- a gate under the top gate that is no leaf lies in the cone, the front of the window
  obtain ⟨c, -, cone, -⟩ := sound.cone
  have inCone : ∀ g : Node, g ≠ ⟨5⟩ → (net.gateFanins g).isSome → g ∉ cut →
      net.Avoids (· ∈ cut) ⟨5⟩ g → g ∈ gates := fun g other isGate outside path =>
    Array.mem_toList_iff.mp (List.mem_of_mem_take ((cone g).mpr ⟨other, isGate, path⟩))
  have notLeaf : ∀ g : Node, 2 < g.id → g ∉ cut := fun g far leaf => by
    rcases (leaves g).mp leaf with rfl | rfl <;> simp at far
  have rootOutside : (⟨5⟩ : Node) ∉ cut := notLeaf _ (by decide)
  refine ⟨net, wf.toCoherent, gate₅, cut, yields, leavesLive, leavesBelow, valid.separates, gates,
    collected, sound, ?_, ?_⟩
  · exact inCone ⟨3⟩ (by decide) (by rw [gate₃]; rfl) (notLeaf _ (by decide))
      (.fanin rootOutside gate₅ (s := ⟨6⟩) (by simp [Fanins.toList])
        (.refl (notLeaf _ (by decide))))
  · exact inCone ⟨4⟩ (by decide) (by rw [gate₄]; rfl) (notLeaf _ (by decide))
      (.fanin rootOutside gate₅ (s := ⟨8⟩) (by simp [Fanins.toList])
        (.refl (notLeaf _ (by decide))))

end WindowLimits

end MajorityGraph
