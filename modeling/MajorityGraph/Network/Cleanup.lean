import Std.Data.HashMap
import MajorityGraph.Simulation
import MajorityGraph.Network.Build

/-!
Compaction: a network rebuilt with only the gates reachable from its outputs, numbered densely
in topological order.
-/

namespace MajorityGraph

namespace Network

/-- The signal in the rebuilt network of a signal of the old one. -/
def mapSignal (map : Std.HashMap Nat Signal) (f : Signal) : Except Fault Signal :=
  match map.get? f.node.id with
  | some s => .ok (s.xor f.isComplemented)
  | none => .error .missingEntry

/-- The network rebuilt from its outputs into a fresh network with the default bucket count. -/
def cleanupDangling (net : Network) : Logged Network := do
  let mut map : Std.HashMap Nat Signal := ({} : Std.HashMap Nat Signal).insert 0 Signal.zero
  let mut result := Network.empty
  for pi in net.inputs do
    let (s, r) ← orFail result.createPi
    result := r
    map := map.insert pi.id s
  for n in ← orFail (Simulation.topologicalOrder net) do
    let fs ← orFail (net.fanins n)
    let [a, b, c] ← orFail (fs.mapM (mapSignal map)) | orFail (.error (.notMajority n fs.length))
    let (s, r) ← (createMaj a b c).run result
    result := r
    map := map.insert n.id s
  for po in net.outputs do
    let (_, r) ← orFail (result.createPo (← orFail (mapSignal map po)))
    result := r
  logAt .debug s!"cleanup_dangling: {net.size} -> {result.size} nodes, {net.numGates} -> {result.numGates} gates"
  pure result

end Network

end MajorityGraph
