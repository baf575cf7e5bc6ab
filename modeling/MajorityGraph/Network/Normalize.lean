import MajorityGraph.Network.NodeData

/-!
Normal form of majority fan-ins: sorted, collapsed when two share a node, and with at most one
complemented fan-in by self-duality.
-/

namespace MajorityGraph

/-- The outcome of normalizing three majority fan-ins. -/
inductive Normalized where
  /-- The majority equals this signal. -/
  | trivial (s : Signal)
  /-- A gate over sorted fan-ins, with the output complemented when the flag holds. -/
  | gate (f : Fanins) (complement : Bool)
deriving DecidableEq, Repr

namespace Fanins

/-- Puts two signals in increasing order. -/
def order2 (x y : Signal) : Signal × Signal := if y.raw < x.raw then (y, x) else (x, y)

/-- Sorts the fan-ins by packed value. -/
def sort (f : Fanins) : Fanins :=
  let (a, b) := order2 f.a f.b
  let (b, c) := order2 b f.c
  let (a, b) := order2 a b
  ⟨a, b, c⟩

/-- How many fan-ins are complemented. -/
def complementCount (f : Fanins) : Nat := (f.toList.filter (·.isComplemented)).length

/-- The normal form of a majority over these fan-ins. -/
def normalize (f : Fanins) : Normalized :=
  let s := f.sort
  if s.a.node = s.b.node then .trivial (if s.a = s.b then s.a else s.c)
  else if s.b.node = s.c.node then .trivial (if s.b = s.c then s.b else s.a)
  else if s.complementCount ≥ 2 then .gate (s.map Signal.complement) true
  else .gate s false

end Fanins

end MajorityGraph
