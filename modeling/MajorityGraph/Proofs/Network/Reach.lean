import MajorityGraph.Proofs.Network.WellFormed

/-!
Paths down the fan-ins: a ranking falls along every path, so in a coherent network no fan-in
reaches its own gate.
-/

namespace MajorityGraph

namespace Network

variable {net : Network}

/-- The nodes of the fan-ins of `g` when it is a live gate, one per slot; none otherwise. -/
def faninNodes (net : Network) (g : Node) : List Node :=
  match net.gateFanins g with
  | some f => f.toList.map Signal.node
  | none => []

theorem faninNodes_of_gateFanins {g : Node} {f : Fanins} (gate : net.gateFanins g = some f)
    : net.faninNodes g = f.toList.map Signal.node := by
  simp [faninNodes, gate]

theorem mem_faninNodes {g n : Node}
    : n ∈ net.faninNodes g ↔ ∃ f, net.gateFanins g = some f ∧ ∃ s ∈ f.toList, s.node = n := by
  unfold faninNodes
  cases net.gateFanins g <;> simp

/-- `m` is `n`, or lies below a fan-in of the live gate `n`. -/
inductive Reaches (net : Network) : Node → Node → Prop
  | refl (n : Node) : net.Reaches n n
  | fanin {g m : Node} {f : Fanins} {s : Signal} (gate : net.gateFanins g = some f)
      (member : s ∈ f.toList) (below : net.Reaches s.node m) : net.Reaches g m

/-- Only a live gate reaches another node. -/
theorem Reaches.eq_of_gateFanins_none {a b : Node} (path : net.Reaches a b)
    (notGate : net.gateFanins a = none) : a = b := by
  cases path with
  | refl => rfl
  | fanin gate =>
      rw [notGate] at gate
      cases gate

/-- A ranking never rises along a path. -/
theorem Ranked.rank_le_of_reaches {rank : Node → Nat} (ranked : net.Ranked rank) {a b : Node}
    (path : net.Reaches a b) : rank b ≤ rank a := by
  induction path with
  | refl => exact Nat.le_refl _
  | fanin gate member _ below =>
      exact Nat.le_of_lt (Nat.lt_of_le_of_lt below (ranked _ _ gate _ member))

/-- In a coherent network no fan-in node of a live gate reaches the gate. -/
theorem Coherent.not_reaches_of_mem_faninNodes (coherent : net.Coherent) {g n : Node}
    (member : n ∈ net.faninNodes g) : ¬ net.Reaches n g := by
  intro path
  obtain ⟨f, gate, s, sMember, rfl⟩ := mem_faninNodes.mp member
  obtain ⟨rank, ranked⟩ := coherent.acyclic
  have climbs := ranked g f gate s sMember
  have falls := ranked.rank_le_of_reaches path
  omega

/-- A node other than `g` whose fan-in nodes are all fan-in nodes of `g` does not reach `g`. -/
theorem Coherent.not_reaches_of_faninNodes_subset (coherent : net.Coherent) {a g : Node}
    (other : a ≠ g) (within : ∀ n ∈ net.faninNodes a, n ∈ net.faninNodes g) : ¬ net.Reaches a g := by
  intro path
  cases path with
  | refl => exact other rfl
  | @fanin _ _ _ s gate member below =>
      have inA : s.node ∈ net.faninNodes a := by
        rw [faninNodes_of_gateFanins gate]
        exact List.mem_map_of_mem member
      exact coherent.not_reaches_of_mem_faninNodes (within _ inA) below

/-- When `a` does not reach `b`, raising every node that reaches `b` above `a` keeps a ranking
and puts `a` below `b`. -/
theorem Ranked.lift {rank : Node → Nat} (ranked : net.Ranked rank) {a b : Node}
    (apart : ¬ net.Reaches a b) : ∃ rank', net.Ranked rank' ∧ rank' a < rank' b := by
  classical
  refine ⟨fun n => if net.Reaches n b then rank n + rank a + 1 else rank n,
    fun g f gate s member => ?_, ?_⟩
  · have lt := ranked g f gate s member
    by_cases below : net.Reaches s.node b
    · have above : net.Reaches g b := .fanin gate member below
      simp only [below, above, if_true]
      omega
    · simp only [below, if_false]
      split <;> omega
  · simp only [apart, if_false, Reaches.refl, if_true]
    omega

end Network

end MajorityGraph
