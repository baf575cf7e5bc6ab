import MajorityGraph.Optimize.Commit
import MajorityGraph.Simulation
import MajorityGraph.Cut
import MajorityGraph.Mffc
import MajorityGraph.Resynthesis
import MajorityGraph.Text.Decimal

/-!
Refactoring: one greedy sweep that replaces each gate's cone by a smaller circuit over its cut
when the resynthesis engine finds one.
-/

namespace MajorityGraph

/-- Parameters of refactoring. -/
structure RefactorParams where
  /-- Leaf limit of the cuts; at most the widest truth table. -/
  maxPis : Nat := 8
  /-- Gates with a larger fan-out are not used as roots. -/
  skipFanoutLimitForRoots : Nat := 1000
  /-- Most gates a replacement may insert. -/
  maxInserts : Nat := 1
  /-- Log every processed gate. -/
  progress : Bool := false
  /-- Log the counters when done. -/
  verbose : Bool := false
deriving Repr

/-- Counters of a refactoring run. -/
structure RefactorStats where
  gain : Nat := 0
  candidates : Nat := 0
  replacements : Nat := 0
  skipped : Nat := 0
  resyn : ResynStats := {}
  /-- Each processed gate as it was reached: position, node, candidates and gain so far. -/
  visits : Array (Nat × Node × Nat × Nat) := #[]
deriving Inhabited

namespace Refactor

/-- The leaf limit of a sweep: at most the widest truth table, and at least one leaf. -/
def cutLimit (maxPis : Nat) : Except Fault CutLimit :=
  if maxPis > TruthTable.maxVars then .error (.leafLimitTooLarge maxPis) else CutLimit.new maxPis

/-- Tries to replace `root` by a smaller circuit over its cut. -/
def atNode (params : RefactorParams) (root : Node) (leaves : Array Node)
    (stats : RefactorStats) : NetM RefactorStats := do
  let net ← get
  let (target, _) ← Network.lift (Simulation.simulateCut net leaves root)
  let mffc ← Network.lift (Mffc.size net root leaves)
  let k := leaves.size
  let inputs ← Network.lift ((Array.range k).mapM (TruthTable.nthVar k))
  let care ← Network.lift (TruthTable.constant k true)
  let maxSize := min (mffc - 1) params.maxInserts
  let (found, resyn) ← StateT.lift
    ((Resynthesis.resynthesize target care (Array.range k) inputs maxSize).run stats.resyn)
  let stats := { stats with resyn, candidates := stats.candidates + 1 }
  match found with
  | none =>
    Network.log .debug s!"refactor: no replacement for {root.display}"
    pure stats
  | some list =>
    if list.numGates ≥ mffc then
      Network.log .debug
        s!"refactor: {list.numGates} gates do not improve on MFFC {mffc} of {root.display}"
      return stats
    if ← Network.commit root list (leaves.map (Signal.make · false)) false then
      let gain := mffc - list.numGates
      Network.log .debug s!"refactor: replace {root.display} by {list.display} (gain {gain})"
      pure { stats with gain := stats.gain + gain, replacements := stats.replacements + 1 }
    else pure stats

/-- The progress line of a processed gate. -/
def progressLine (index size : Nat) (n : Node) (stats : RefactorStats) : String :=
  s!"refactor |{index}/{size}| node = {n.display}   cand = " ++
    Text.padLeft 4 (toString stats.candidates) ++ "   est. gain = " ++
    Text.padLeft 5 (toString stats.gain)

/-- Refactors the network in place and returns the counters. -/
def run (params : RefactorParams) : NetM RefactorStats := do
  let lim ← Network.lift (cutLimit params.maxPis)
  let size := (← get).size
  let mut stats : RefactorStats := {}
  for index in List.range size do
    let n ← Network.lift (Node.ofIndex index)
    if !(← Network.query (·.isGate n)) then continue
    if ← Network.query (·.isDead n) then
      stats := { stats with skipped := stats.skipped + 1 }
      continue
    stats := { stats with visits := stats.visits.push (index, n, stats.candidates, stats.gain) }
    if params.progress then Network.log .info (progressLine index size n stats)
    let fanout ← Network.query (·.fanoutSize n)
    if fanout > params.skipFanoutLimitForRoots then
      Network.log .debug s!"refactor: skip {n.display} (fan-out {fanout})"
      stats := { stats with skipped := stats.skipped + 1 }
      continue
    let leaves ← StateT.lift (lim.compute (← get) n)
    stats ← atNode params n leaves stats
  if params.verbose then
    Network.log .info (s!"[i] candidates = {stats.candidates}, replacements = {stats.replacements}, " ++
      s!"skipped = {stats.skipped}, est. gain = {stats.gain}")
    Network.log .info stats.resyn.report
  pure stats

end Refactor

end MajorityGraph
