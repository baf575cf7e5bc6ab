import MajorityGraph.Simulation

/-!
The depth-first walk lists every gate below an output once, after its gate fan-ins
(`topologicalOrder_spec`).
-/

namespace MajorityGraph

/-- A node is its id. -/
theorem Node.eq_of_id_eq {a b : Node} (same : a.id = b.id) : a = b := by
  cases a
  cases b
  simp only at same
  rw [same]

/-- Distinct nodes whose ids lie below `k` are at most `k`. -/
theorem length_le_of_ids_lt {l : List Node} (nodup : l.Nodup) {k : Nat} (below : ∀ n ∈ l, n.id < k) :
    l.length ≤ k := by
  have ids : (l.map (·.id)).Nodup :=
    List.Pairwise.map _ (fun a b apart same => apart (Node.eq_of_id_eq same)) nodup
  have within : l.map (·.id) ⊆ List.range k := by
    intro i member
    obtain ⟨n, listed, rfl⟩ := List.mem_map.mp member
    exact List.mem_range.mpr (below n listed)
  simpa using ids.length_le_of_subset within

namespace Simulation

open LogicNetwork

variable {ν : Type} [LogicNetwork ν] (ntk : ν)

/-! ### One step of the walk -/

theorem topoFrom_nil (fuel : Nat) (w : TopoWalk) : topoFrom ntk (fuel + 1) [] w = .ok w := rfl

theorem topoFrom_finish (fuel : Nat) (n : Node) (stack : List (Node × Bool)) (w : TopoWalk) :
    topoFrom ntk (fuel + 1) ((n, true) :: stack) w =
      topoFrom ntk fuel stack
        (if w.done.contains n.id then { w with inProgress := w.inProgress.erase n.id }
          else { w with inProgress := w.inProgress.erase n.id, done := w.done.insert n.id (), order := w.order.push n }) :=
  rfl

theorem topoFrom_done (fuel : Nat) (n : Node) (stack : List (Node × Bool)) (w : TopoWalk)
    (done : w.done.contains n.id = true) :
    topoFrom ntk (fuel + 1) ((n, false) :: stack) w = topoFrom ntk fuel stack w := by
  simp only [topoFrom, done]
  rfl

theorem topoFrom_leaf (fuel : Nat) (n : Node) (stack : List (Node × Bool)) (w : TopoWalk)
    (fresh : w.done.contains n.id = false) (leaf : isGate ntk n = .ok false) :
    topoFrom ntk (fuel + 1) ((n, false) :: stack) w = topoFrom ntk fuel stack w := by
  simp only [topoFrom, fresh, leaf]
  rfl

theorem topoFrom_expand (fuel : Nat) (n : Node) (stack : List (Node × Bool)) (w : TopoWalk)
    (fs : List Signal) (fresh : w.done.contains n.id = false) (gate : isGate ntk n = .ok true)
    (closedOff : w.inProgress.contains n.id = false) (fanned : fanins ntk n = .ok fs) :
    topoFrom ntk (fuel + 1) ((n, false) :: stack) w =
      topoFrom ntk fuel
        (((fs.filter fun f => !w.done.contains f.node.id).map (·.node)).map (·, false) ++
          (n, true) :: stack)
        { w with inProgress := w.inProgress.insert n.id () } := by
  simp only [topoFrom, fresh, gate, closedOff, fanned]
  simp [List.filter_reverse, List.map_map]
  rfl

/-! ### Paths and ranks -/

/-- `m` is `n`, or lies below a fan-in of the gate `n`. -/
inductive Below : Node → Node → Prop
  | refl (n : Node) : Below n n
  | fanin {g m : Node} {fs : List Signal} {f : Signal} (gate : isGate ntk g = .ok true)
      (fanned : fanins ntk g = .ok fs) (member : f ∈ fs) (below : Below f.node m) : Below g m

/-- What the walk needs of a network on the nodes it reaches: the gate test answers, a gate
has at most three fan-ins, among these nodes and ranked below it, and lies below the id bound,
and the outputs are among these nodes. -/
structure Walkable (good : Node → Prop) (rank : Node → Nat) : Prop where
  answers : ∀ n, good n → isGate ntk n = .ok true ∨ isGate ntk n = .ok false
  fanins : ∀ n, good n → isGate ntk n = .ok true →
    ∃ fs, fanins ntk n = .ok fs ∧ fs.length ≤ 3 ∧ ∀ f ∈ fs, good f.node ∧ rank f.node < rank n
  bound : ∀ n, good n → isGate ntk n = .ok true → n.id < idBound ntk
  outputs : ∀ s ∈ pos ntk, good s.node

variable {ntk} {good : Node → Prop} {rank : Node → Nat}

/-- Below a good node every node is good, and the rank never rises. -/
theorem Walkable.below (walkable : Walkable ntk good rank) {a b : Node} (path : Below ntk a b)
    (start : good a) : good b ∧ rank b ≤ rank a := by
  induction path with
  | refl => exact ⟨start, Nat.le_refl _⟩
  | fanin gate fanned member _ ih =>
    obtain ⟨fs, fanned', _, children⟩ := walkable.fanins _ start gate
    rw [fanned] at fanned'
    cases fanned'
    obtain ⟨good', lower⟩ := children _ member
    obtain ⟨goodEnd, le⟩ := ih good'
    exact ⟨goodEnd, Nat.le_trans le (Nat.le_of_lt lower)⟩

/-- From a gate, a path stops there or goes on through one of its fan-ins. -/
theorem Below.cases_of_fanins {n m : Node} {fs : List Signal} (path : Below ntk n m)
    (fanned : fanins ntk n = .ok fs) : m = n ∨ ∃ f ∈ fs, Below ntk f.node m := by
  cases path with
  | refl => exact .inl rfl
  | fanin _ fanned' member below =>
    rw [fanned] at fanned'
    cases fanned'
    exact .inr ⟨_, member, below⟩

/-- Only a gate has a path down. -/
theorem Below.eq_of_leaf {n m : Node} (path : Below ntk n m) (leaf : isGate ntk n = .ok false) :
    m = n := by
  cases path with
  | refl => rfl
  | fanin gate => rw [leaf] at gate; cases gate

/-! ### States of the walk -/

variable (ntk) in
/-- A list of gates among the good nodes, each once and after all of its gate fan-ins. -/
structure Topological (good : Node → Prop) (order : List Node) : Prop where
  nodup : order.Nodup
  gates : ∀ n ∈ order, good n ∧ isGate ntk n = .ok true
  before : ∀ l₁ n l₂, order = l₁ ++ n :: l₂ → ∀ fs, fanins ntk n = .ok fs →
    ∀ f ∈ fs, isGate ntk f.node = .ok true → f.node ∈ l₁

variable (ntk) in
/-- A state of the walk between visits: the listed gates are in topological order, `done` holds
exactly their ids, and every gate below a listed one is listed. -/
structure Settled (good : Node → Prop) (w : TopoWalk) : Prop
    extends Topological ntk good w.order.toList where
  done : ∀ i, w.done.contains i = true ↔ ∃ n ∈ w.order.toList, n.id = i
  closed : ∀ n ∈ w.order.toList, ∀ m, Below ntk n m → isGate ntk m = .ok true →
    m ∈ w.order.toList

/-- What a visit keeps: the list only grows, and the nodes in progress stay in progress. -/
structure Extends (w w' : TopoWalk) : Prop where
  prefix_ : w.order.toList <+: w'.order.toList
  inProgress : ∀ i, w'.inProgress.contains i = w.inProgress.contains i

theorem Extends.refl (w : TopoWalk) : Extends w w := ⟨List.prefix_refl _, fun _ => rfl⟩

theorem Extends.trans {w₁ w₂ w₃ : TopoWalk} (first : Extends w₁ w₂) (second : Extends w₂ w₃) :
    Extends w₁ w₃ :=
  ⟨first.prefix_.trans second.prefix_, fun i => (second.inProgress i).trans (first.inProgress i)⟩

variable (ntk) in
/-- From `w` the walk works through `stack` in `steps` steps and arrives at `w'`, whatever lies
below `stack`. -/
def Walks (stack : List (Node × Bool)) (w w' : TopoWalk) (steps : Nat) : Prop :=
  ∀ fuel rest, steps ≤ fuel →
    topoFrom ntk fuel (stack ++ rest) w = topoFrom ntk (fuel - steps) rest w'

theorem Walks.append {s₁ s₂ : List (Node × Bool)} {w₁ w₂ w₃ : TopoWalk} {k₁ k₂ : Nat}
    (first : Walks ntk s₁ w₁ w₂ k₁) (second : Walks ntk s₂ w₂ w₃ k₂) :
    Walks ntk (s₁ ++ s₂) w₁ w₃ (k₁ + k₂) := by
  intro fuel rest enough
  rw [List.append_assoc, first fuel (s₂ ++ rest) (by omega), second (fuel - k₁) rest (by omega),
    Nat.sub_sub]

variable (ntk) in
/-- The outcome of visiting the nodes `roots` in turn from `w`: the walk reaches `w'` within four
steps per new gate and one per root, `w'` is settled, and it lists in addition exactly the gates
below the roots. -/
structure Visited (good : Node → Prop) (roots : List Node) (w w' : TopoWalk) : Prop where
  walks : ∃ steps, Walks ntk (roots.map (·, false)) w w' steps ∧
    steps ≤ 4 * (w'.order.size - w.order.size) + roots.length
  settled : Settled ntk good w'
  extends_ : Extends w w'
  order : ∀ m, m ∈ w'.order.toList ↔
    m ∈ w.order.toList ∨ ∃ r ∈ roots, Below ntk r m ∧ isGate ntk m = .ok true

theorem Visited.nil {w : TopoWalk} (settled : Settled ntk good w) : Visited ntk good [] w w :=
  ⟨⟨0, fun fuel rest _ => rfl, Nat.zero_le _⟩, settled, Extends.refl w, by simp⟩

theorem Visited.cons {r : Node} {rs : List Node} {w₁ w₂ w₃ : TopoWalk}
    (first : Visited ntk good [r] w₁ w₂) (rest : Visited ntk good rs w₂ w₃) :
    Visited ntk good (r :: rs) w₁ w₃ := by
  obtain ⟨k₁, walks₁, steps₁⟩ := first.walks
  obtain ⟨k₂, walks₂, steps₂⟩ := rest.walks
  have grows₁ := first.extends_.prefix_.length_le
  have grows₂ := rest.extends_.prefix_.length_le
  simp only [Array.length_toList] at grows₁ grows₂
  refine ⟨⟨k₁ + k₂, walks₁.append walks₂, ?_⟩, rest.settled, first.extends_.trans rest.extends_, ?_⟩
  · simp only [List.length_cons, List.length_nil] at steps₁ ⊢
    omega
  · intro m
    rw [rest.order, first.order]
    simp only [List.mem_cons, List.mem_nil_iff, or_false, exists_eq_or_imp, exists_eq_left,
      or_assoc]

/-! ### Settled states -/

theorem Settled.empty : Settled ntk good ⟨{}, {}, #[]⟩ where
  nodup := List.nodup_nil
  gates := by simp
  before := by simp
  done := by simp
  closed := by simp

theorem Settled.withInProgress {w : TopoWalk} (settled : Settled ntk good w)
    (inProgress : Std.HashMap Nat Unit) : Settled ntk good { w with inProgress := inProgress } :=
  { settled with }

/-- A settled state lists a node exactly when `done` holds its id. -/
theorem Settled.contains_iff {w : TopoWalk} (settled : Settled ntk good w) (n : Node) :
    w.done.contains n.id = true ↔ n ∈ w.order.toList := by
  rw [settled.done]
  constructor
  · rintro ⟨m, member, same⟩
    have : m = n := by cases m; cases n; simp_all
    exact this ▸ member
  · intro member
    exact ⟨n, member, rfl⟩

/-- Listing a gate whose gate fan-ins and lower gates are listed keeps a state settled. -/
theorem Settled.push {w : TopoWalk} (settled : Settled ntk good w) {n : Node} {fs : List Signal}
    (fresh : n ∉ w.order.toList) (goodGate : good n ∧ isGate ntk n = .ok true)
    (fanned : fanins ntk n = .ok fs)
    (lower : ∀ f ∈ fs, ∀ m, Below ntk f.node m → isGate ntk m = .ok true → m ∈ w.order.toList)
    (inProgress : Std.HashMap Nat Unit) :
    Settled ntk good ⟨w.done.insert n.id (), inProgress, w.order.push n⟩ where
  nodup := by
    rw [Array.toList_push, List.nodup_append]
    refine ⟨settled.nodup, by simp, ?_⟩
    intro a member b same
    simp only [List.mem_singleton] at same
    exact fun equal => fresh (same ▸ equal ▸ member)
  gates := by
    intro m member
    rw [Array.toList_push, List.mem_append, List.mem_singleton] at member
    rcases member with old | rfl
    · exact settled.gates m old
    · exact goodGate
  before := by
    intro l₁ m l₂ split fs' fanned' f member gate
    rw [Array.toList_push] at split
    rcases List.eq_nil_or_concat l₂ with rfl | ⟨l₂', z, rfl⟩
    · -- the new gate is the last one: its gate fan-ins are all listed before it
      obtain ⟨front, last⟩ := List.append_inj' split rfl
      simp only [List.cons.injEq, and_true] at last
      subst last
      rw [fanned] at fanned'
      cases fanned'
      rw [← front]
      exact lower f member _ (.refl _) gate
    · have split' : w.order.toList ++ [n] = (l₁ ++ m :: l₂') ++ [z] := by
        simpa using split
      obtain ⟨front, -⟩ := List.append_inj' split' rfl
      exact settled.before l₁ m l₂' front fs' fanned' f member gate
  done := by
    intro i
    simp only [Std.HashMap.contains_insert, Bool.or_eq_true, beq_iff_eq, settled.done,
      Array.toList_push, List.mem_append, List.mem_singleton]
    constructor
    · rintro (rfl | ⟨m, member, rfl⟩)
      · exact ⟨n, .inr rfl, rfl⟩
      · exact ⟨m, .inl member, rfl⟩
    · rintro ⟨m, member | rfl, rfl⟩
      · exact .inr ⟨m, member, rfl⟩
      · exact .inl rfl
  closed := by
    intro a member m path gate
    rw [Array.toList_push, List.mem_append, List.mem_singleton] at member ⊢
    rcases member with old | rfl
    · exact .inl (settled.closed a old m path gate)
    · rcases path.cases_of_fanins fanned with rfl | ⟨f, child, below⟩
      · exact .inr rfl
      · exact .inl (lower f child m below gate)

/-! ### Visits -/

/-- A node already listed is passed over in one step. -/
theorem visited_done {w : TopoWalk} (settled : Settled ntk good w) {n : Node}
    (done : w.done.contains n.id = true) : Visited ntk good [n] w w := by
  have listed := (settled.contains_iff n).1 done
  refine ⟨⟨1, ?_, by simp⟩, settled, Extends.refl w, ?_⟩
  · intro fuel rest enough
    obtain ⟨fuel, rfl⟩ : ∃ k, fuel = k + 1 := ⟨fuel - 1, by omega⟩
    exact topoFrom_done ntk fuel n rest w done
  · intro m
    simp only [List.mem_singleton, exists_eq_left]
    constructor
    · exact .inl
    · rintro (old | ⟨path, gate⟩)
      · exact old
      · exact settled.closed n listed m path gate

/-- A node that is not a gate is passed over in one step. -/
theorem visited_leaf {w : TopoWalk} (settled : Settled ntk good w) {n : Node}
    (fresh : w.done.contains n.id = false) (leaf : isGate ntk n = .ok false) :
    Visited ntk good [n] w w := by
  refine ⟨⟨1, ?_, by simp⟩, settled, Extends.refl w, ?_⟩
  · intro fuel rest enough
    obtain ⟨fuel, rfl⟩ : ∃ k, fuel = k + 1 := ⟨fuel - 1, by omega⟩
    exact topoFrom_leaf ntk fuel n rest w fresh leaf
  · intro m
    simp only [List.mem_singleton, exists_eq_left]
    constructor
    · exact .inl
    · rintro (old | ⟨path, gate⟩)
      · exact old
      · rw [path.eq_of_leaf leaf, leaf] at gate
        cases gate

/-- Visiting the nodes `cs` in turn, each ranked below every node in progress, given that a
single such node can be visited. -/
theorem visited_all {r : Nat}
    (single : ∀ c, good c → rank c < r → ∀ w, Settled ntk good w →
      (∀ i, w.inProgress.contains i = true → rank c < rank ⟨i⟩) → ∃ w', Visited ntk good [c] w w')
    (cs : List Node) (lower : ∀ c ∈ cs, good c ∧ rank c < r) (w : TopoWalk)
    (settled : Settled ntk good w) (ancestors : ∀ i, w.inProgress.contains i = true → r ≤ rank ⟨i⟩) :
    ∃ w', Visited ntk good cs w w' := by
  induction cs generalizing w with
  | nil => exact ⟨w, .nil settled⟩
  | cons c cs ih =>
    obtain ⟨goodC, lowC⟩ := lower c (List.mem_cons_self ..)
    obtain ⟨w₁, first⟩ := single c goodC lowC w settled fun i open_ =>
      Nat.lt_of_lt_of_le lowC (ancestors i open_)
    have ancestors₁ : ∀ i, w₁.inProgress.contains i = true → r ≤ rank ⟨i⟩ := fun i open_ =>
      ancestors i ((first.extends_.inProgress i).symm.trans open_)
    obtain ⟨w₂, rest⟩ := ih (fun c member => lower c (List.mem_cons_of_mem _ member)) w₁
      first.settled ancestors₁
    exact ⟨w₂, first.cons rest⟩

/-- Visiting a gate that is not listed: the walk expands it, visits its fan-ins that are not
listed, in order, and lists the gate when it comes back to it. -/
theorem visited_expand (walkable : Walkable ntk good rank) {w : TopoWalk}
    (settled : Settled ntk good w) {n : Node} (start : good n)
    (fresh : w.done.contains n.id = false) (gate : isGate ntk n = .ok true)
    (ancestors : ∀ i, w.inProgress.contains i = true → rank n < rank ⟨i⟩)
    (single : ∀ c, good c → rank c < rank n → ∀ w, Settled ntk good w →
      (∀ i, w.inProgress.contains i = true → rank c < rank ⟨i⟩) → ∃ w', Visited ntk good [c] w w') :
    ∃ w', Visited ntk good [n] w w' := by
  have closedOff : w.inProgress.contains n.id = false := by
    cases open_ : w.inProgress.contains n.id
    · rfl
    · exact absurd (ancestors n.id open_) (Nat.lt_irrefl _)
  obtain ⟨fs, fanned, three, children⟩ := walkable.fanins n start gate
  let w₁ : TopoWalk := { w with inProgress := w.inProgress.insert n.id () }
  let cs := (fs.filter fun f => !w.done.contains f.node.id).map (·.node)
  have lowerCs : ∀ c ∈ cs, good c ∧ rank c < rank n := by
    intro c member
    obtain ⟨f, kept, rfl⟩ := List.mem_map.1 member
    exact children f (List.mem_filter.1 kept).1
  obtain ⟨w₂, visited⟩ := visited_all single cs lowerCs w₁ (settled.withInProgress _) (by
    intro i open_
    simp only [w₁, Std.HashMap.contains_insert, Bool.or_eq_true, beq_iff_eq] at open_
    rcases open_ with rfl | old
    · exact Nat.le_refl _
    · exact Nat.le_of_lt (ancestors i old))
  -- the gate is not below any of its fan-ins, so visiting them does not list it
  have notListed : n ∉ w₂.order.toList := by
    rw [visited.order]
    rintro (old | ⟨c, member, path, -⟩)
    · exact absurd ((settled.contains_iff n).2 old) (by simp [fresh])
    · obtain ⟨goodC, lowC⟩ := lowerCs c member
      exact absurd (walkable.below path goodC).2 (Nat.not_le.2 lowC)
  have listedBelow : ∀ f ∈ fs, ∀ m, Below ntk f.node m → isGate ntk m = .ok true →
      m ∈ w₂.order.toList := by
    intro f member m path gateM
    cases done : w.done.contains f.node.id
    · exact (visited.order m).2 (.inr ⟨f.node, List.mem_map.2 ⟨f, List.mem_filter.2
        ⟨member, by simp [done]⟩, rfl⟩, path, gateM⟩)
    · exact (visited.order m).2 (.inl (settled.closed _ ((settled.contains_iff _).1 done) m path gateM))
  let w₃ : TopoWalk := ⟨w₂.done.insert n.id (), w₂.inProgress.erase n.id, w₂.order.push n⟩
  have settled₃ : Settled ntk good w₃ :=
    visited.settled.push notListed ⟨start, gate⟩ fanned listedBelow _
  obtain ⟨k, walks, steps⟩ := visited.walks
  have grows := visited.extends_.prefix_.length_le
  simp only [Array.length_toList] at grows
  have few : cs.length ≤ 3 :=
    Nat.le_trans (by simpa [cs] using List.length_filter_le _ fs) three
  refine ⟨w₃, ⟨⟨k + 2, ?_, ?_⟩, settled₃, ⟨?_, ?_⟩, ?_⟩⟩
  · -- expand, visit the fan-ins, and list the gate
    intro fuel rest enough
    obtain ⟨fuel, rfl⟩ : ∃ f, fuel = f + 1 := ⟨fuel - 1, by omega⟩
    have back : fuel - k = (fuel - k - 1) + 1 := by omega
    have done₂ : w₂.done.contains n.id = false := by
      cases listed : w₂.done.contains n.id
      · rfl
      · exact absurd ((visited.settled.contains_iff n).1 listed) notListed
    simp only [List.map_cons, List.map_nil, List.cons_append, List.nil_append]
    rw [topoFrom_expand ntk fuel n rest w fs fresh gate closedOff fanned,
      walks fuel ((n, true) :: rest) (by omega), back, topoFrom_finish, done₂]
    simp only [Bool.false_eq_true, if_false]
    congr 1
    omega
  · have size₁ : w₁.order.size = w.order.size := rfl
    have size₃ : w₃.order.size = w₂.order.size + 1 := Array.size_push ..
    simp only [List.length_singleton]
    omega
  · exact visited.extends_.prefix_.trans (by simp [w₃])
  · intro i
    simp only [w₃, Std.HashMap.contains_erase, visited.extends_.inProgress, w₁,
      Std.HashMap.contains_insert]
    cases same : (n.id == i)
    · simp
    · simp only [beq_iff_eq] at same
      subst same
      simp [closedOff]
  · intro m
    simp only [w₃, Array.toList_push, List.mem_append, List.mem_singleton, visited.order,
      List.mem_singleton, exists_eq_left]
    constructor
    · rintro ((old | ⟨c, member, path, gateM⟩) | rfl)
      · exact .inl old
      · obtain ⟨f, kept, rfl⟩ := List.mem_map.1 member
        exact .inr ⟨.fanin gate fanned (List.mem_filter.1 kept).1 path, gateM⟩
      · exact .inr ⟨.refl _, gate⟩
    · rintro (old | ⟨path, gateM⟩)
      · exact .inl (.inl old)
      · rcases path.cases_of_fanins fanned with rfl | ⟨f, member, below⟩
        · exact .inr rfl
        · exact .inl ((visited.order m).1 (listedBelow f member m below gateM))

/-- Every good node can be visited from a settled state whose nodes in progress rank above it;
the induction is on a bound of the node's rank. -/
theorem visited (walkable : Walkable ntk good rank) :
    ∀ k n, rank n < k → good n → ∀ w, Settled ntk good w →
      (∀ i, w.inProgress.contains i = true → rank n < rank ⟨i⟩) → ∃ w', Visited ntk good [n] w w' := by
  intro k
  induction k with
  | zero => exact fun n low => absurd low (Nat.not_lt_zero _)
  | succ k ih =>
    intro n low start w settled ancestors
    cases done : w.done.contains n.id
    · rcases walkable.answers n start with gate | leaf
      · exact visited_expand walkable settled start done gate ancestors
          fun c goodC lowC => ih c (by omega) goodC
      · exact ⟨w, visited_leaf settled done leaf⟩
    · exact ⟨w, visited_done settled done⟩

/-- A settled state lists at most one gate per id below the bound. -/
theorem Settled.size_le (walkable : Walkable ntk good rank) {w : TopoWalk}
    (settled : Settled ntk good w) : w.order.size ≤ idBound ntk := by
  rw [← Array.length_toList]
  refine length_le_of_ids_lt settled.nodup fun n listed => ?_
  obtain ⟨goodN, gate⟩ := settled.gates n listed
  exact walkable.bound n goodN gate

/-- The walks below the outputs in turn, each from a settled state with nothing in progress,
list exactly the gates below these outputs. -/
theorem walk_outputs (walkable : Walkable ntk good rank) (ps : List Signal)
    (outputsGood : ∀ s ∈ ps, good s.node) (w : TopoWalk) (settled : Settled ntk good w)
    (idle : ∀ i, w.inProgress.contains i = false) :
    ∃ w', ps.foldlM (fun w po => topoFrom ntk (4 * idBound ntk + 4 + 1) [(po.node, false)] w) w =
        .ok w' ∧ Settled ntk good w' ∧
      ∀ m, m ∈ w'.order.toList ↔
        m ∈ w.order.toList ∨ ∃ s ∈ ps, Below ntk s.node m ∧ isGate ntk m = .ok true := by
  induction ps generalizing w with
  | nil => exact ⟨w, rfl, settled, by simp⟩
  | cons po ps ih =>
    obtain ⟨w₁, visit⟩ := visited walkable _ po.node (Nat.lt_succ_self _)
      (outputsGood po (List.mem_cons_self ..)) w settled (by simp [idle])
    obtain ⟨k, walks, steps⟩ := visit.walks
    have bounded := visit.settled.size_le walkable
    have run : topoFrom ntk (4 * idBound ntk + 4 + 1) [(po.node, false)] w = .ok w₁ := by
      have := walks (4 * idBound ntk + 4 + 1) [] (by simp at steps; omega)
      rw [List.map_singleton, List.append_nil] at this
      rw [this, show 4 * idBound ntk + 4 + 1 - k = (4 * idBound ntk + 4 - k) + 1 by
        simp at steps; omega]
      rfl
    have idle₁ : ∀ i, w₁.inProgress.contains i = false := fun i =>
      (visit.extends_.inProgress i).trans (idle i)
    obtain ⟨w₂, fold, settled₂, order₂⟩ := ih (fun s member => outputsGood s
      (List.mem_cons_of_mem _ member)) w₁ visit.settled idle₁
    refine ⟨w₂, by rw [List.foldlM_cons, run]; exact fold, settled₂, ?_⟩
    intro m
    rw [order₂, visit.order]
    simp only [List.mem_cons, List.mem_nil_iff, or_false, exists_eq_or_imp, exists_eq_left,
      or_assoc]

/-- On a walkable network the walk succeeds and lists every gate below an output exactly once,
each after all of its gate fan-ins, and nothing else. -/
theorem topologicalOrder_spec (walkable : Walkable ntk good rank) :
    ∃ order, topologicalOrder ntk = .ok order ∧ Topological ntk good order.toList ∧
      ∀ m, m ∈ order.toList ↔ isGate ntk m = .ok true ∧ ∃ s ∈ pos ntk, Below ntk s.node m := by
  obtain ⟨w, fold, settled, order⟩ := walk_outputs walkable (pos ntk).toList
    (fun s member => walkable.outputs s (Array.mem_toList_iff.1 member)) ⟨{}, {}, #[]⟩
    Settled.empty (by simp)
  refine ⟨w.order, ?_, settled.toTopological, ?_⟩
  · simp only [topologicalOrder, ← Array.foldlM_toList, fold]
    rfl
  · intro m
    rw [order]
    simp only [List.not_mem_nil, Array.mem_toList_iff, false_or]
    constructor
    · rintro ⟨s, output, path, gate⟩
      exact ⟨gate, s, output, path⟩
    · rintro ⟨gate, s, output, path⟩
      exact ⟨s, output, path, gate⟩

end Simulation

end MajorityGraph
