import MajorityGraph.Demo.Options
import MajorityGraph.Random.Uniform
import MajorityGraph.Network.Cleanup
import MajorityGraph.Simulation
import MajorityGraph.Optimize.Refactor
import MajorityGraph.Optimize.Resubstitute

/-!
The demonstration program: a random network is grown, cleaned up, refactored and checked by
simulation, with everything it prints kept in order.
-/

namespace MajorityGraph.Demo

open MajorityGraph.Random

/-- How a run of the program ends: its exit code and the lines of its two streams. -/
structure Outcome where
  exitCode : Nat
  stdout : Array String
  stderr : Array String := #[]
deriving Repr, Inhabited

/-- A run in progress: the lines printed so far, and a fault that stops it. -/
abbrev Session := ExceptT Fault (StateM (Array String))

/-- Prints a line. -/
def say (line : String) : Session Unit := modify (·.push line)

/-- Runs one stage, printing its info-level log lines even when it faults. -/
def stage {α : Type} (x : Logged α) : Session α := do
  let (res, journal) := x.runFrom (Journal.start (some .info))
  modify fun out => out ++ journal.records.map fun r => s!"[{r.1.name}] {r.2}"
  match res with
  | .ok a => pure a
  | .error f => throw f

/-- A random member of the pool, complemented with probability 0.3. -/
def pick (pool : Array Signal) (g : Generator) : Except Fault (Signal × Generator) := do
  let (i, g) ← g.below pool.size
  let (c, g) := g.coin threeTenths
  pure ((pool.getD i Signal.zero).xor c, g)

/-- One random gate over the pool: a majority, an absorbed conjunction or disjunction, or a
plain conjunction, by a draw among four. The pool is handed back with the gate. -/
def randomGate (pool : Array Signal) (g : Generator) :
    NetM (Signal × Array Signal × Generator) := do
  let (a, g) ← Network.lift (pick pool g)
  let (b, g) ← Network.lift (pick pool g)
  let (c, g) ← Network.lift (pick pool g)
  let (op, g) := g.uniformInclusive 0 3
  let f ← match op with
    | 0 => Network.createMaj a b c
    | 1 => do
      let h ← Network.createAnd a b
      Network.createAnd h a
    | 2 => do
      let h ← Network.createOr a b
      Network.createOr b h
    | _ => Network.createAnd a b
  pure (f, pool, g)

/-- Adds `k` random gates, each joining the pool unless it is a constant. -/
def growPool : Nat → Array Signal → Generator → NetM (Array Signal × Generator)
  | 0, pool, g => pure (pool, g)
  | k + 1, pool, g => do
    let (f, pool, g) ← randomGate pool g
    growPool k (if f.isConst then pool else pool.push f) g

/-- Adds `k` primary inputs to the network and their signals to the pool. -/
def addInputs : Nat → Array Signal × Network → Except Fault (Array Signal × Network)
  | 0, acc => pure acc
  | k + 1, (pool, net) => do
    let (s, net) ← net.createPi
    addInputs k (pool.push s, net)

/-- The random network of the options: the inputs, the gates, and as outputs the last `pos`
members of the pool, newest first. -/
def randomNetwork (o : Options) : Logged Network := do
  let (pool, net) ← orFail (addInputs o.pis (#[], Network.empty))
  let ((pool, _), net) ← (growPool o.gates pool (Generator.ofSeed o.seed.toUInt64)).run net
  (pool.reverse.toList.take o.pos).foldlM (fun net s => do
    let (_, net) ← orFail (net.createPo s)
    pure net) net

/-- The network's output tables. -/
def outputTables (net : Network) : Logged (Array TruthTable) := orFail (Simulation.simulate net)

/-- The counters line after an optimisation pass. -/
def passLine (pass : String) (net : Network) (dead replacements gain : Nat) : String :=
  s!"After {pass}: {net.numGates} gates ({dead} dead), {replacements} replacements, " ++
    s!"estimated gain {gain}"

/-- The whole run on parsed options; `false` when the optimised network computes other
functions. -/
def session (o : Options) : Session Bool := do
  say s!"args = {o.summary}"
  let net ← stage (randomNetwork o >>= Network.cleanupDangling)
  say s!"Generated network: {net.numPis} PIs, {net.numPos} POs, {net.numGates} gates"
  let expected ← stage (outputTables net)
  let (stats, net) ← stage ((Refactor.run
    { maxPis := o.maxPis, progress := o.progress, verbose := true }).run net)
  say (passLine "refactoring" net (← stage (orFail net.numDead)) stats.replacements stats.gain)
  let net ← if o.resub then do
      let (stats, net) ← stage ((Resubstitute.run
        { maxPis := o.maxPis, progress := o.progress, verbose := true }).run net)
      say (passLine "resubstitution" net (← stage (orFail net.numDead)) stats.replacements
        stats.gain)
      pure net
    else pure net
  let net ← stage (Network.cleanupDangling net)
  say s!"After cleanup: {net.size} nodes, {net.numGates} gates"
  let actual ← stage (outputTables net)
  if actual != expected then return false
  say "Equivalence check passed"
  return true

/-- The outcome of running the program on parsed options. -/
def runOptions (o : Options) : Outcome :=
  match (session o).run.run #[] with
  | (.ok true, out) => ⟨0, out, #[]⟩
  | (.ok false, out) =>
    ⟨1, out, #["Error: ", "   0: Refactored network is not equivalent to the generated one"]⟩
  | (.error f, out) => ⟨101, out, #["The application panicked (crashed).", s!"Message: {f.message}"]⟩

/-- The outcome of running the program with these arguments. -/
def run (args : List String) : Outcome :=
  match Request.ofArgs args with
  | .run o => runOptions o
  | .help => ⟨0, helpLines.toArray, #[]⟩
  | .version => ⟨0, #[versionLine], #[]⟩
  | .refused lines => ⟨2, #[], lines.toArray⟩

end MajorityGraph.Demo
