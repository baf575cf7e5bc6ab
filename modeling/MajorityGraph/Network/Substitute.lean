import Std.Data.HashMap
import MajorityGraph.Network.Build

/-!
Changing a network in place: `takeOutNode` removes a gate without fan-out and its dangling
fan-ins, and `substituteNode` redirects every use of a node to a replacement signal.
-/

-- Powers of naturals are computed by `Nat.pow`, whatever algebraic instances are in scope.
attribute [local instance (1100)] instPowNat

namespace MajorityGraph

namespace Network

/-- Changes the network state with a step that may fail. -/
def update (f : Network → Except Fault Network) : NetM Unit :=
  change fun net => do pure ((), ← f net)

/-- Reads the network state with a query that may fail. -/
def query {α : Type} (f : Network → Except Fault α) : NetM α := do
  lift (f (← get))

/-- Unlinks gate `n` from the table, marks it dead and counts it off. -/
def kill (net : Network) (n : Node) : Except Fault Network := do
  let ⟨table, refs, inputs, outputs, numGates⟩ := net
  let table ← table.unlink n.id
  if numGates = 0 then throw .counterUnderflow
  pure ⟨table, refs.modify n.id fun r => { r with dead := true }, inputs, outputs, numGates - 1⟩

/-- The stack walk of `takeOutNode`: each gate popped that is alive and without fan-out dies,
and the fan-ins it leaves without fan-out are pushed. -/
def takeOutLoop : Nat → List Node → NetM Unit
  | 0, _ => lift (.error .boundExceeded)
  | _, [] => pure ()
  | fuel + 1, n :: stack => do
    let d ← query (·.data n)
    let r ← query (·.refsOf n)
    if !d.isGate || r.dead || r.fanout != 0 then
      takeOutLoop fuel stack
    else
      log .debug s!"take_out_node: {n.display}"
      update (·.kill n)
      let mut stack := stack
      for f in d.fanins.toList do
        update (·.removeReference f.node n)
        if (← query (·.fanoutSize f.node)) == 0 then
          stack := f.node :: stack
      takeOutLoop fuel stack

/-- Takes out a gate without fan-out, and recursively the fan-ins left without fan-out. The
constant, inputs, dead gates and gates with fan-out are left as they are. -/
def takeOutNode (n : Node) : NetM Unit := do
  takeOutLoop (4 * (← get).size + 4) [n]

/-- Redirects the fan-ins of `parent` that use `old` to `new`, and returns the signal that
`parent` must itself be replaced by when the redirected gate collapses, needs a new normal form
or duplicates a gate already in the table. Otherwise the gate is linked again in normal form. -/
def replaceInNode (parent old : Node) (new : Signal) : NetM (Option Signal) := do
  update (·.updateTable (·.unlink parent.id))
  let d ← query (·.data parent)
  let redirect (s : Signal) : Signal := if s.node = old then new.xor s.isComplemented else s
  let fanins := d.fanins.map redirect
  let replaced := (d.fanins.toList.filter (·.node = old)).length
  for _ in List.range replaced do
    update (·.removeReference old parent)
    update (·.addReference new.node parent)
  let store (f : Fanins) : NetM Unit :=
    update (·.updateTable fun t => pure (t.setValue parent.id (NodeData.majority f)))
  match fanins.normalize with
  | .trivial s =>
    log .trace s!"replace_in_node: {parent.display} collapses to {s.display}"
    store fanins
    pure (some s)
  | .gate _ true =>
    store fanins
    let s ← createMaj fanins.a fanins.b fanins.c
    log .trace s!"replace_in_node: {parent.display} renormalizes to {s.display}"
    pure (some s)
  | .gate sorted false =>
    store sorted
    match (← get).table.find (NodeData.majority sorted) with
    | some e =>
      if e ≠ parent.id then
        log .trace s!"replace_in_node: {parent.display} duplicates n{e}"
        pure (some (Signal.make ⟨e⟩ false))
      else
        update (·.updateTable (·.link parent.id))
        pure none
    | none =>
      update (·.updateTable (·.link parent.id))
      pure none

/-- Follows a dead replacement through the substitutions made so far; without a recorded
substitution `old` is built again from its redirected fan-ins. A walk that ends follows at most
two chains of recorded substitutions with one rebuild between them, which the fuel covers. -/
def resolveReplacement (old : Node) (done : Std.HashMap Nat Signal) :
    Nat → Signal → NetM Signal
  | 0, _ => lift (.error .boundExceeded)
  | fuel + 1, new => do
    if !(← query (·.isDead new.node)) then return new
    match done.get? new.node.id with
    | some s => resolveReplacement old done fuel (s.xor new.isComplemented)
    | none =>
      let d ← query (·.data old)
      if !d.isGate then lift (.error (.replacementDead new old))
      let s ← createMaj d.fanins.a d.fanins.b d.fanins.c
      resolveReplacement old done fuel s

/-- Moves the outputs that use `old` to `new`, keeping their polarity and the fan-out counts. -/
def redirectOutputs (old : Node) (new : Signal) : NetM Unit := do
  for i in List.range (← get).outputs.size do
    let po := (← get).outputs.getD i default
    if po.node = old then
      update fun ⟨table, refs, inputs, outputs, numGates⟩ =>
        pure ⟨table, refs, inputs, outputs.set! i (new.xor po.isComplemented), numGates⟩
      update fun net => do
        let r ← net.refsOf old
        if r.fanout == 0 then throw .counterUnderflow
        net.modifyRefs old fun r => { r with fanout := r.fanout - 1 }
      update (·.addUse new.node id)

/-- Sorts node ids and drops repeats. -/
def sortedUnique (ns : Array Node) : List Node :=
  let sorted := ns.toList.mergeSort (fun a b => a.id ≤ b.id)
  sorted.foldr (fun n acc => match acc with
    | m :: _ => if m = n then acc else n :: acc
    | [] => [n]) []

/-- Redirects each live parent of `old` in turn to `new`, and puts the parents that must be
replaced in turn on top of the work list, with their replacements. -/
def redirectParents (old : Node) (new : Signal) (parents : List Node)
    (work : List (Node × Signal)) : NetM (List (Node × Signal)) := do
  let mut work := work
  for p in parents do
    if ← query (·.isDead p) then continue
    if let some r ← replaceInNode p old new then
      work := (p, r) :: work
  return work

/-- The work list of `substituteNode`: pairs of a node and its replacement, last in first out,
with the substitutions made so far. -/
def substituteLoop : Nat → List (Node × Signal) → Std.HashMap Nat Signal → NetM Unit
  | 0, _, _ => lift (.error .boundExceeded)
  | _, [], _ => pure ()
  | fuel + 1, (old, new) :: work, done => do
    if ← query (·.isDead old) then
      return ← substituteLoop fuel work done
    let new ← resolveReplacement old done (2 * done.size + 4) new
    if new.node = old then
      return ← substituteLoop fuel work done
    log .debug s!"substitute_node: {old.display} -> {new.display}"
    redirectOutputs old new
    let work ← redirectParents old new (sortedUnique (← query (·.parents old))) work
    takeOutNode old
    substituteLoop fuel work (done.insert old.id new)

/-- A bound on the work of a substitution. It is no polynomial in the size of the network: a
parent that renormalizes hands a complemented replacement on to each of its own parents, and
where paths reconverge a gate can be rebuilt once for every path that reaches it, so the work
can grow exponentially with the depth. -/
def substituteFuel : Nat := 2 ^ (64 : Nat)

/-- Redirects every use of `old`, by gates and by outputs, to `new`, then takes `old` out. -/
def substituteNode (old : Node) (new : Signal) : NetM Unit :=
  substituteLoop substituteFuel [(old, new)] {}

end Network

end MajorityGraph
