import MajorityGraph.IndexList.Basic
import MajorityGraph.TruthTable.Basic

/-!
Simulation of an index list over one table per input; the constant takes the width of the first
input.
-/

namespace MajorityGraph

namespace IndexList

/-- The table of a literal, given the tables of the entries so far. -/
def literalValue (values : Array TruthTable) (lit : Nat) : Except Fault TruthTable :=
  match values[Literal.index lit]? with
  | some t => .ok (if Literal.isComplemented lit then t.not else t)
  | none => .error (.indexOutOfBounds values.size (Literal.index lit))

/-- The table of one gate, given the tables of the entries so far, appended to them. -/
def simulateGate (values : Array TruthTable) (g : LitGate) : Except Fault (Array TruthTable) := do
  let a ← literalValue values g.a
  let b ← literalValue values g.b
  let c ← literalValue values g.c
  pure (values.push (← TruthTable.maj a b c))

/-- The tables of the outputs, given one table per input. -/
def simulate (l : IndexList) (inputs : Array TruthTable) : Except Fault (Array TruthTable) := do
  if inputs.size ≠ l.numInputs then throw (.inputCountMismatch inputs.size l.numInputs)
  let numVars := (inputs[0]?.map (·.numVars)).getD 0
  let zero ← TruthTable.constant numVars false
  let values ← l.gates.foldlM simulateGate (#[zero] ++ inputs)
  l.outputs.mapM (literalValue values)

end IndexList

end MajorityGraph
