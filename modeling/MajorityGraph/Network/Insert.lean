import MajorityGraph.IndexList.Basic
import MajorityGraph.Network.Build

/-! Replaying an index list into a network with `createMaj` over given input signals. -/

namespace MajorityGraph

namespace Network

/-- The signal of a literal, given the signals of the entries so far. -/
def literalSignal (signals : Array Signal) (lit : Nat) : Except Fault Signal := do
  let i := Literal.index lit
  if i ≥ signals.size then throw (.literalReferencesLater lit)
  if i == 0 then pure (Signal.ofBool (Literal.isComplemented lit))
  else pure ((signals.getD i default).xor (Literal.isComplemented lit))

/-- Builds one gate of a list over the signals of the entries so far and appends its signal. -/
def insertGate (signals : Array Signal) (g : LitGate) : NetM (Array Signal) := do
  let a ← lift (literalSignal signals g.a)
  let b ← lift (literalSignal signals g.b)
  let c ← lift (literalSignal signals g.c)
  pure (signals.push (← createMaj a b c))

/-- Builds the gates of `l` over the input signals and returns the output signals. -/
def insertList (l : IndexList) (inputs : Array Signal) : NetM (Array Signal) := do
  if inputs.size ≠ l.numInputs then lift (.error (.inputCountMismatch inputs.size l.numInputs))
  let signals ← l.gates.foldlM insertGate (#[Signal.zero] ++ inputs)
  l.outputs.mapM fun lit => lift (literalSignal signals lit)

end Network

end MajorityGraph
