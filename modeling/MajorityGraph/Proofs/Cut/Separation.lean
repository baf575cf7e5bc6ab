import MajorityGraph.Proofs.Network.Reach

/-!
Paths that avoid a set of nodes, and leaves that separate a node from the inputs
(`separates_of_closed`).
-/

namespace MajorityGraph

namespace Network

variable {net : Network}

/-- `net.Avoids S a b`: a path down the fan-ins of live gates leads from `a` to `b` and meets no
node of `S`, its two ends included. -/
inductive Avoids (net : Network) (S : Node → Prop) : Node → Node → Prop
  | refl {n : Node} (outside : ¬ S n) : net.Avoids S n n
  | fanin {g m : Node} {f : Fanins} {s : Signal} (outside : ¬ S g)
      (gate : net.gateFanins g = some f) (member : s ∈ f.toList) (below : net.Avoids S s.node m) :
      net.Avoids S g m

/-- `leaves` separate `root` from the inputs: every path from `root` down to an input meets a
leaf. -/
def Separates (net : Network) (leaves : Array Node) (root : Node) : Prop :=
  ∀ p ∈ net.inputs, ¬ net.Avoids (· ∈ leaves) root p

variable {S S' : Node → Prop} {a b c : Node}

theorem Avoids.reaches (path : net.Avoids S a b) : net.Reaches a b := by
  induction path with
  | refl => exact .refl _
  | fanin _ gate member _ ih => exact .fanin gate member ih

theorem Avoids.start_outside (path : net.Avoids S a b) : ¬ S a := by
  cases path with
  | refl outside => exact outside
  | fanin outside => exact outside

theorem Avoids.end_outside (path : net.Avoids S a b) : ¬ S b := by
  induction path with
  | refl outside => exact outside
  | fanin _ _ _ _ ih => exact ih

/-- A path that avoids a set avoids every smaller one. -/
theorem Avoids.mono (smaller : ∀ n, S' n → S n) (path : net.Avoids S a b) : net.Avoids S' a b := by
  induction path with
  | refl outside => exact .refl fun inside => outside (smaller _ inside)
  | fanin outside gate member _ ih => exact .fanin (fun inside => outside (smaller _ inside)) gate member ih

theorem Avoids.trans (first : net.Avoids S a b) (second : net.Avoids S b c) : net.Avoids S a c := by
  induction first with
  | refl => exact second
  | fanin outside gate member _ ih => exact .fanin outside gate member (ih second)

/-- A path that meets no node of `S` stays inside a set `K` that holds its start, when every
fan-in of a live gate of `K` lies in `K` or in `S`. -/
theorem Avoids.within {K : Node → Prop}
    (closed : ∀ g f, K g → net.gateFanins g = some f → ∀ s ∈ f.toList, K s.node ∨ S s.node)
    (path : net.Avoids S a b) (start : K a) : K b := by
  induction path with
  | refl => exact start
  | fanin _ gate member below ih =>
    rcases closed _ _ start gate _ member with inside | met
    · exact ih inside
    · exact absurd met below.start_outside

/-- Leaves separate `root` from the inputs when some set of nodes holds `root`, holds no input,
and holds every fan-in of its live gates that is not a leaf. -/
theorem separates_of_closed {leaves : Array Node} {root : Node} {K : Node → Prop} (start : K root)
    (noInput : ∀ n, K n → n ∉ net.inputs)
    (closed : ∀ g f, K g → net.gateFanins g = some f → ∀ s ∈ f.toList, K s.node ∨ s.node ∈ leaves) :
    net.Separates leaves root :=
  fun p input path => noInput p (path.within closed start) input

/-- A path through gates outside `S` to an end outside `S` meets no node of `S`. -/
theorem Reaches.avoids (path : net.Reaches a b) (gates : ∀ g f, net.gateFanins g = some f → ¬ S g)
    (finish : ¬ S b) : net.Avoids S a b := by
  induction path with
  | refl => exact .refl finish
  | fanin gate member _ ih => exact .fanin (gates _ _ gate) gate member (ih finish)

/-- Paths survive in a network that keeps every live gate with its fan-ins. -/
theorem Reaches.of_kept {net' : Network}
    (kept : ∀ g f, net.gateFanins g = some f → net'.gateFanins g = some f) (path : net.Reaches a b) :
    net'.Reaches a b := by
  induction path with
  | refl => exact .refl _
  | fanin gate member _ ih => exact .fanin (kept _ _ gate) member ih

end Network

end MajorityGraph
