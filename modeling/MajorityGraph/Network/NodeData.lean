import MajorityGraph.Signal
import MajorityGraph.Pairing

/-!
The structural part of a node, its kind and three fan-in signals, by which the unique table
keys its nodes.
-/

namespace MajorityGraph

/-- What a node is: the constant, a primary input or a majority gate. -/
inductive NodeKind where
  | constant
  | input
  | majority
deriving DecidableEq, Repr, Inhabited

/-- The three fan-ins of a majority gate, in their stored order. -/
structure Fanins where
  a : Signal
  b : Signal
  c : Signal
deriving DecidableEq, Repr, Inhabited

namespace Fanins

/-- Three zero signals: the fan-ins recorded for the constant and the inputs. -/
def zeros : Fanins := ⟨Signal.zero, Signal.zero, Signal.zero⟩

/-- The fan-ins in order. -/
def toList (f : Fanins) : List Signal := [f.a, f.b, f.c]

/-- Applies `g` to each fan-in. -/
def map (g : Signal → Signal) (f : Fanins) : Fanins := ⟨g f.a, g f.b, g f.c⟩

end Fanins

/-- The kind and fan-ins of a node. -/
structure NodeData where
  kind : NodeKind
  fanins : Fanins
deriving DecidableEq, Repr, Inhabited

namespace NodeData

/-- The constant node's record. -/
def constant : NodeData := ⟨.constant, Fanins.zeros⟩

/-- An input's record. -/
def input : NodeData := ⟨.input, Fanins.zeros⟩

/-- A majority gate's record. -/
def majority (f : Fanins) : NodeData := ⟨.majority, f⟩

/-- Whether the record is a majority gate. -/
def isGate (d : NodeData) : Bool := d.kind == .majority

/-- The bucket hash of a record: the pairing of its three fan-in words. -/
def hash (d : NodeData) : UInt64 :=
  Pairing.pair3 d.fanins.a.raw.toUInt64 d.fanins.b.raw.toUInt64 d.fanins.c.raw.toUInt64

end NodeData

end MajorityGraph
