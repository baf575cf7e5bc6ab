import Std.Data.HashMap
import MajorityGraph.Network.Basic

/-!
Windows for resubstitution: the cone between the cut leaves and the root, then gates hanging off
it, within size and fan-out limits.
-/

namespace MajorityGraph

/-- Limits of window collection. -/
structure WindowLimits where
  maxDivisors : Nat
  skipFanoutLimit : Nat
deriving Repr

namespace WindowLimits

/-- The cone walk: a gate joins the window when the walk returns to it after its fan-ins. -/
def coneWalk (net : Network) (root : Node) :
    Nat → List (Node × Bool) → Std.HashMap Nat Unit → Std.HashMap Nat Unit → Array Node →
      Except Fault (Std.HashMap Nat Unit × Array Node)
  | 0, _, _, _, _ => .error .boundExceeded
  | _, [], _, window, gates => .ok (window, gates)
  | fuel + 1, (n, expanded) :: stack, visited, window, gates => do
    if expanded then
      if n = root then return ← coneWalk net root fuel stack visited window gates
      return ← coneWalk net root fuel stack visited (window.insert n.id ()) (gates.push n)
    if window.contains n.id then return ← coneWalk net root fuel stack visited window gates
    if !(← net.isGate n) || visited.contains n.id then
      return ← coneWalk net root fuel stack visited window gates
    let fs ← net.fanins n
    let pushed := fs.map fun f => (f.node, false)
    coneWalk net root fuel (pushed.reverse ++ (n, true) :: stack) (visited.insert n.id ()) window
      gates

/-- Whether gate `p` may join the window now. -/
def admits (lim : WindowLimits) (net : Network) (root : Node) (window : Std.HashMap Nat Unit)
    (p : Node) : Except Fault Bool := do
  if p = root then return false
  if (← net.isDead p) || window.contains p.id then return false
  if (← net.fanoutSize p) > lim.skipFanoutLimit then return false
  let fs ← net.fanins p
  pure (fs.all fun f => f.node.id == 0 || window.contains f.node.id)

/-- The scan of the users of the frontier, from position `i` on. -/
def expand (lim : WindowLimits) (net : Network) (root : Node) :
    Nat → Nat → Array Node → Std.HashMap Nat Unit → Array Node → Except Fault (Array Node)
  | 0, _, _, _, _ => .error .boundExceeded
  | fuel + 1, i, frontier, window, gates => do
    if !(i < frontier.size && gates.size < lim.maxDivisors) then return gates
    let n := frontier.getD i default
    let mut frontier := frontier
    let mut window := window
    let mut gates := gates
    for p in ← net.parents n do
      if gates.size ≥ lim.maxDivisors then break
      if ← lim.admits net root window p then
        window := window.insert p.id ()
        gates := gates.push p
        frontier := frontier.push p
    expand lim net root fuel (i + 1) frontier window gates

/-- The window gates of `root` over `leaves`, the root excluded, each after its fan-ins: the
whole cone first, then further gates while fewer than `maxDivisors` are collected. -/
def collect (lim : WindowLimits) (net : Network) (root : Node) (leaves : Array Node) :
    Except Fault (Array Node) := do
  let window := leaves.foldl (fun w n => w.insert n.id ()) ({} : Std.HashMap Nat Unit)
  let (window, gates) ← coneWalk net root (4 * net.size + 4) [(root, false)] {} window #[]
  expand lim net root (leaves.size + net.size + 2) 0 (leaves ++ gates) window gates

end WindowLimits

end MajorityGraph
