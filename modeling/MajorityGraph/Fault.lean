import MajorityGraph.Signal

/-! Faults: the broken preconditions that stop an operation, with the text reported for each. -/

namespace MajorityGraph

/-- A broken precondition that stops an operation. -/
inductive Fault where
  /-- A truth table over more variables than the library supports. -/
  | tooManyVariables (n : Nat)
  /-- A projection onto a variable that the table does not have. -/
  | variableOutOfRange (var n : Nat)
  /-- An access to a bit past the end of a truth table. -/
  | bitOutOfRange (index : Nat)
  /-- A bitwise operation on tables of different widths. -/
  | widthsDiffer (left right : Nat)
  /-- A majority or implication check on tables of different widths. -/
  | operandWidthsDiffer (left right : Nat)
  /-- A signal on a node id too large to be packed with its polarity. -/
  | signalNodeTooLarge
  /-- A node index too large to name a node. -/
  | nodeIndexOutOfRange (index : Nat)
  /-- A unique table with more bucket bits than supported. -/
  | bucketBitsTooLarge
  /-- Linking or unlinking cell 0, which marks the end of every chain. -/
  | sentinelCell
  /-- Linking a cell that is already linked. -/
  | cellAlreadyLinked (index : Nat)
  /-- Unlinking a cell that its bucket chain does not hold. -/
  | cellNotInBucket (index : Nat)
  /-- A position past the end of a sequence of `len` entries. -/
  | indexOutOfBounds (len index : Nat)
  /-- An index list over more inputs than literals can address. -/
  | inputsUnaddressable (n : Nat)
  /-- A gate of an index list whose literal does not fit the literal space. -/
  | gateOutsideLiteralRange (k : Nat)
  /-- A gate literal that names an entry not defined yet. -/
  | literalReferencesLater (lit : Nat)
  /-- An output literal that names an entry not defined yet. -/
  | outputLiteralUndefined (lit : Nat)
  /-- A slice that starts past the end of its sequence. -/
  | sliceStartOutOfRange (start len : Nat)
  /-- A slice that ends past the end of its sequence. -/
  | sliceEndOutOfRange (stop len : Nat)
  /-- An index list replayed on the wrong number of inputs. -/
  | inputCountMismatch (given expected : Nat)
  /-- An access to a node id that the network does not have. -/
  | nodeMissing (node : Node)
  /-- A dereference of a node without fan-out. -/
  | fanoutUnderflow (node : Node)
  /-- A substitution whose replacement died and cannot be rebuilt. -/
  | replacementDead (replacement : Signal) (old : Node)
  /-- A look-up of a node that has no entry yet. -/
  | missingEntry
  /-- A counter taken below zero. -/
  | counterUnderflow
  /-- A sum past the largest value of its word. -/
  | sumOverflow
  /-- A 64-bit product past the largest word. -/
  | productOverflow
  /-- A cut simulation that reaches an input outside the cut. -/
  | inputOutsideCut (node : Node)
  /-- A cut with room for no leaf. -/
  | cutWithoutLeaves
  /-- A leaf limit beyond what truth tables can simulate. -/
  | leafLimitTooLarge (maxLeaves : Nat)
  /-- A care set that is not the whole space. -/
  | dontCares
  /-- A node that a view does not contain. -/
  | nodeNotInView (node : Node)
  /-- A uniform choice from an empty range. -/
  | emptyRange
  /-- A walk in topological order that met a node twice on one path. -/
  | cycleThrough (node : Node)
  /-- A walk of a cone of influence that met a node twice on one path. -/
  | coneCycleThrough (node : Node)
  /-- Evaluating a node that is not a majority gate. -/
  | notMajority (node : Node) (fanins : Nat)
  /-- A loop that exceeded the bound derived from its input. -/
  | boundExceeded
deriving Repr, Inhabited

namespace Fault

/-- The text of an equality check that failed, with the two sides. -/
def equalityText (label : Option String) (left right : String) : String :=
  let head := match label with
    | some l => "assertion `left == right` failed: " ++ l
    | none => "assertion `left == right` failed"
  head ++ "\n  left: " ++ left ++ "\n right: " ++ right

/-- The text of an inequality check that failed, with the two sides. -/
def inequalityText (label : String) (left right : String) : String :=
  "assertion `left != right` failed: " ++ label ++ "\n  left: " ++ left ++ "\n right: " ++ right

/-- The text reported for a fault. -/
def message : Fault → String
  | tooManyVariables n => s!"Truth tables support at most 24 variables, got {n}"
  | variableOutOfRange var n => s!"Variable {var} is out of range for {n} variables"
  | bitOutOfRange i => s!"Bit {i} is out of range"
  | widthsDiffer l r =>
    equalityText (some "Truth tables have different numbers of variables") (toString l) (toString r)
  | operandWidthsDiffer l r => equalityText none (toString l) (toString r)
  | signalNodeTooLarge => "assertion failed: node.id() <= MAX_NODE"
  | nodeIndexOutOfRange i => s!"Node index {i} is out of range"
  | bucketBitsTooLarge => "Bucket bits should be in the range 0..=31"
  | sentinelCell => inequalityText "Index is 0" "0" "0"
  | cellAlreadyLinked i => s!"Cell {i} is already linked"
  | cellNotInBucket i => inequalityText s!"Cell {i} is not in its bucket" "0" "0"
  | indexOutOfBounds len i => s!"index out of bounds: the len is {len} but the index is {i}"
  | inputsUnaddressable n => s!"Index list cannot address {n} inputs"
  | gateOutsideLiteralRange k => s!"Gate {k} is outside the literal range"
  | literalReferencesLater lit => s!"Literal {lit} references a later entry"
  | outputLiteralUndefined lit => s!"Output literal {lit} references an undefined entry"
  | sliceStartOutOfRange start len =>
    s!"range start index {start} out of range for slice of length {len}"
  | sliceEndOutOfRange stop len => s!"range end index {stop} out of range for slice of length {len}"
  | inputCountMismatch given expected =>
    equalityText (some s!"Index list expects {expected} inputs") (toString given) (toString expected)
  | nodeMissing n => "Node " ++ n.display ++ " does not exist"
  | fanoutUnderflow n => "Fan-out of " ++ n.display ++ " underflows"
  | replacementDead s n => "Replacement " ++ s.display ++ " of " ++ n.display ++ " is dead"
  | missingEntry => "no entry found for key"
  | counterUnderflow => "attempt to subtract with overflow"
  | sumOverflow => "attempt to add with overflow"
  | productOverflow => "attempt to multiply with overflow"
  | inputOutsideCut n => "Input " ++ n.display ++ " is outside the cut"
  | cutWithoutLeaves => "Cuts need at least one leaf"
  | leafLimitTooLarge m => s!"max_pis = {m} exceeds the truth table limit of 24 variables"
  | dontCares => "Enumerative resynthesis does not support don't cares"
  | nodeNotInView n => "Node " ++ n.display ++ " is not in the view"
  | emptyRange => "cannot sample empty range"
  | cycleThrough n => "Cycle through " ++ n.display
  | coneCycleThrough n => "Cycle through " ++ n.display ++ " in the cone of influence"
  | notMajority n k =>
    equalityText (some ("Node " ++ n.display ++ " is not a majority gate")) (toString k) "3"
  | boundExceeded => "iteration bound exceeded"

end Fault

end MajorityGraph

namespace MajorityGraph

-----------------------------------------------------------------------------------------
-- Checked constructors of nodes and signals
-----------------------------------------------------------------------------------------

/-- The node of a position, which must not exceed `Node.maxId`. -/
def Node.ofIndex (i : Nat) : Except Fault Node :=
  if i ≤ Node.maxId then .ok ⟨i⟩ else .error (.nodeIndexOutOfRange i)

/-- The node written as a record: `Node(5)`. -/
def Node.debugText (n : Node) : String := "Node(" ++ toString n.id ++ ")"

/-- The signal of node id `id` with polarity `c`; the id must not exceed `Node.maxId`. -/
def Signal.ofNode (id : Nat) (c : Bool) : Except Fault Signal :=
  if id ≤ Node.maxId then .ok (Signal.make ⟨id⟩ c) else .error .signalNodeTooLarge

end MajorityGraph
