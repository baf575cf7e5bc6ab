import MajorityGraph.Network.Substitute
import MajorityGraph.Network.Insert

/-!
Splicing a replacement into a network: the list is built, the root substituted by its output,
and the fresh gates left without fan-out taken out.
-/

namespace MajorityGraph

namespace Network

/-- Builds `list` over `inputs` and substitutes `root` by its first output, complemented when
`complement` holds; returns whether the root was replaced, which it is unless the output is the
root itself. -/
def commit (root : Node) (list : IndexList) (inputs : Array Signal) (complement : Bool) :
    NetM Bool := do
  let firstNew := (← get).size
  let outs ← insertList list inputs
  let first ← match outs[0]? with
    | some s => pure s
    | none => lift (.error (.indexOutOfBounds outs.size 0))
  let out := first.xor complement
  let committed := out.node ≠ root
  if committed then substituteNode root out
  let last := (← get).size
  for index in List.range' firstNew (last - firstNew) do
    let n ← lift (Node.ofIndex index)
    if (← query (·.fanoutSize n)) == 0 then takeOutNode n
  pure committed

end Network

end MajorityGraph
