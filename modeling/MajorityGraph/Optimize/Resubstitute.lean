import Std.Data.HashMap
import MajorityGraph.Optimize.Refactor
import MajorityGraph.Window

/-!
Windowed resubstitution: refactoring in which the engine may also build on window gates outside
the root's cone.
-/

namespace MajorityGraph

/-- Parameters of windowed resubstitution. -/
structure ResubParams where
  maxPis : Nat := 8
  /-- Most window gates, the cone included. -/
  maxDivisors : Nat := 150
  maxInserts : Nat := 2
  skipFanoutLimitForRoots : Nat := 1000
  /-- Gates with a larger fan-out do not join windows. -/
  skipFanoutLimitForDivisors : Nat := 100
  normalize : Bool := false
  progress : Bool := false
  verbose : Bool := false
deriving Repr

/-- Counters of a resubstitution run. -/
structure ResubStats where
  windows : Nat := 0
  leaves : Nat := 0
  divisors : Nat := 0
  mffc : Nat := 0
  gain : Nat := 0
  replacements : Nat := 0
  skipped : Nat := 0
  resyn : ResynStats := {}
deriving Inhabited

namespace Resubstitute

/-- A table of the window, which simulation must have given. -/
def windowValue (values : Simulation.Values) (n : Node) : Except Fault TruthTable :=
  match values.get? n.id with
  | some t => .ok t
  | none => .error .missingEntry

/-- Complements a divisor and its table when the table is 1 under the all-zero assignment. -/
def normalizeDivisor (d : Signal × TruthTable) : Except Fault (Signal × TruthTable) := do
  if ← d.2.getBit 0 then pure (d.1.complement, d.2.not) else pure d

/-- Tries to replace `root` by a circuit over the divisors of its window. -/
def atNode (params : ResubParams) (root : Node) (leaves : Array Node) (stats : ResubStats) :
    NetM ResubStats := do
  let net ← get
  let lim : WindowLimits := ⟨params.maxDivisors, params.skipFanoutLimitForDivisors⟩
  let gates ← Network.lift (lim.collect net root leaves)
  let coneNodes ← Network.lift (Mffc.nodes net root leaves)
  let cone := coneNodes.foldl (fun m n => m.insert n.id ()) ({} : Std.HashMap Nat Unit)
  let values ← Network.lift (Simulation.simulateWindow net leaves (gates.push root))
  let members := leaves ++ gates.filter fun g => !cone.contains g.id
  let mut divs ← Network.lift (members.mapM fun n => do
    pure (Signal.make n false, ← windowValue values n))
  let mut target ← Network.lift (windowValue values root)
  let mut complement := false
  if params.normalize then
    divs ← Network.lift (divs.mapM normalizeDivisor)
    if ← Network.lift (target.getBit 0) then
      target := target.not
      complement := true
  let stats := { stats with windows := stats.windows + 1, leaves := stats.leaves + leaves.size,
                            divisors := stats.divisors + divs.size, mffc := stats.mffc + cone.size }
  let maxSize := min (cone.size - 1) params.maxInserts
  let care ← Network.lift (TruthTable.constant target.numVars true)
  let tables := divs.map (·.2)
  let (found, resyn) ← StateT.lift
    ((Resynthesis.resynthesize target care (Array.range tables.size) tables maxSize).run stats.resyn)
  let stats := { stats with resyn }
  match found with
  | none =>
    Network.log .debug s!"resub: no replacement for {root.display}"
    pure stats
  | some list =>
    if list.numGates ≥ cone.size then
      Network.log .debug
        s!"resub: {list.numGates} gates do not improve on MFFC {cone.size} of {root.display}"
      return stats
    if ← Network.commit root list (divs.map (·.1)) complement then
      let gain := cone.size - list.numGates
      Network.log .debug s!"resub: replace {root.display} by {list.display} (gain {gain})"
      pure { stats with gain := stats.gain + gain, replacements := stats.replacements + 1 }
    else pure stats

/-- The progress line of a processed gate. -/
def progressLine (index size : Nat) (n : Node) (stats : ResubStats) : String :=
  s!"resub |{index}/{size}| node = {n.display}   windows = " ++
    Text.padLeft 4 (toString stats.windows) ++ "   est. gain = " ++
    Text.padLeft 5 (toString stats.gain)

/-- The averages line of the report; an empty run divides by one. -/
def averagesLine (stats : ResubStats) : String :=
  let w := max stats.windows 1
  s!"[i] windows = {stats.windows}, avg. leaves = {Text.ratio2 stats.leaves w}, " ++
    s!"avg. divisors = {Text.ratio2 stats.divisors w}, avg. mffc = {Text.ratio2 stats.mffc w}"

/-- Resubstitutes the network in place and returns the counters. -/
def run (params : ResubParams) : NetM ResubStats := do
  let lim ← Network.lift (Refactor.cutLimit params.maxPis)
  let size := (← get).size
  let mut stats : ResubStats := {}
  for index in List.range size do
    let n ← Network.lift (Node.ofIndex index)
    if !(← Network.query (·.isGate n)) then continue
    if ← Network.query (·.isDead n) then
      stats := { stats with skipped := stats.skipped + 1 }
      continue
    if params.progress then Network.log .info (progressLine index size n stats)
    let fanout ← Network.query (·.fanoutSize n)
    if fanout > params.skipFanoutLimitForRoots then
      Network.log .debug s!"resub: skip {n.display} (fan-out {fanout})"
      stats := { stats with skipped := stats.skipped + 1 }
      continue
    let leaves ← StateT.lift (lim.compute (← get) n)
    stats ← atNode params n leaves stats
  if params.verbose then
    Network.log .info (averagesLine stats)
    Network.log .info s!"[i] replacements = {stats.replacements}, skipped = {stats.skipped}, est. gain = {stats.gain}"
    Network.log .info stats.resyn.report
  pure stats

end Resubstitute

end MajorityGraph
