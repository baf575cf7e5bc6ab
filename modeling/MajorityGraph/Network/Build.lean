import MajorityGraph.Network.Basic
import MajorityGraph.Network.Normalize

/-!
Building gates: `createMaj` normalizes its fan-ins and finds or adds the gate in the unique
table; conjunction, disjunction and exclusive or are majorities with a constant fan-in.
-/

namespace MajorityGraph

namespace Network

/-- Runs a computation that may fail as a step of network work. -/
def lift {α : Type} (x : Except Fault α) : NetM α := orFail x

/-- Writes a record from network work. -/
def log (l : Level) (msg : String) : NetM Unit := StateT.lift (logAt l msg)

/-- Runs a step that may fail on the network and returns its value. The network is taken out
of the state while the step runs, so that the step owns it and changes it in place. -/
def change {α : Type} (f : Network → Except Fault (α × Network)) : NetM α := do
  let net ← modifyGet fun net => (net, Network.empty)
  let (a, net) ← lift (f net)
  set net
  pure a

/-- Adds the gate over normalized fan-ins, or finds it in the unique table: the gate's node and
whether it is new. A new gate adds one use to each of its fan-in nodes. -/
def addGate (net : Network) (f : Fanins) : Except Fault ((Node × Bool) × Network) := do
  let ⟨table, refs, inputs, outputs, numGates⟩ := net
  let ((i, created), table) ← table.put (NodeData.majority f)
  let node ← Node.ofIndex i
  if !created then return ((node, false), ⟨table, refs, inputs, outputs, numGates⟩)
  let mut net : Network := ⟨table, refs.push ⟨0, #[], false⟩, inputs, outputs, numGates + 1⟩
  for s in f.toList do
    net ← net.addReference s.node node
  pure ((node, true), net)

/-- The majority of three signals: a trivial majority is one of them; otherwise the gate over
the normalized fan-ins, found in the unique table or added to it. -/
def createMaj (a b c : Signal) : NetM Signal := do
  match Fanins.normalize ⟨a, b, c⟩ with
  | .trivial s =>
    log .trace s!"create_maj({a.display}, {b.display}, {c.display}) => {s.display}"
    pure s
  | .gate f compl =>
    let (node, created) ← change (·.addGate f)
    if created then
      log .debug s!"create_maj: {node.display} = <{f.a.display} {f.b.display} {f.c.display}>"
    pure (Signal.make node compl)

/-- Conjunction: `<0 a b>`. -/
def createAnd (a b : Signal) : NetM Signal := createMaj Signal.zero a b

/-- Disjunction: `<1 a b>`. -/
def createOr (a b : Signal) : NetM Signal := createMaj Signal.one a b

/-- Exclusive or: `(a & !b) | (!a & b)`. -/
def createXor (a b : Signal) : NetM Signal := do
  let x ← createAnd a b.complement
  let y ← createAnd a.complement b
  createOr x y

end Network

end MajorityGraph
