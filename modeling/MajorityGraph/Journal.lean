import MajorityGraph.Fault

/-!
The journal of a run, and `Logged`, the monad of computations that may stop with a fault and
write log records.
-/

namespace MajorityGraph

/-- Levels of log records, from the most to the least important. -/
inductive Level where
  | info
  | debug
  | trace
deriving DecidableEq, Repr, Inhabited

namespace Level

/-- Position of a level: a threshold keeps the records of its own rank and below. -/
def rank : Level → Nat
  | info => 0
  | debug => 1
  | trace => 2

/-- The level's name in a written record. -/
def name : Level → String
  | info => "INFO"
  | debug => "DEBUG"
  | trace => "TRACE"

end Level

/-- Records written so far, and the least important level that is kept (none keeps nothing). -/
structure Journal where
  threshold : Option Level
  records : Array (Level × String)
deriving Inhabited

namespace Journal

/-- A journal that keeps the records up to `threshold`. -/
def start (threshold : Option Level) : Journal := ⟨threshold, #[]⟩

/-- Whether a record of level `l` is kept. -/
def keeps (j : Journal) (l : Level) : Bool :=
  match j.threshold with
  | some t => l.rank ≤ t.rank
  | none => false

/-- Writes a record if its level is kept. -/
def write (j : Journal) (l : Level) (msg : String) : Journal :=
  if j.keeps l then { j with records := j.records.push (l, msg) } else j

/-- The kept records as text lines, `LEVEL message`. -/
def lines (j : Journal) : Array String := j.records.map fun r => r.1.name ++ " " ++ r.2

end Journal

/-- Computations that write to a journal and may stop with a fault. -/
abbrev Logged := ExceptT Fault (StateM Journal)

/-- Runs a computation from a journal: its result or fault, and the journal after it. -/
def Logged.runFrom {α : Type} (x : Logged α) (j : Journal) : Except Fault α × Journal :=
  (x.run).run j

/-- Writes a record. -/
def logAt (l : Level) (msg : String) : Logged Unit := modify (·.write l msg)

/-- Runs a computation that may fail inside any monad that can stop with a fault. -/
def orFail {m : Type → Type} [Monad m] [MonadExceptOf Fault m] {α : Type} :
    Except Fault α → m α
  | .ok a => pure a
  | .error f => throw f

end MajorityGraph
