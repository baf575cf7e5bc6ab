import MajorityGraph.Fault
import MajorityGraph.IndexList.Literal

/-!
Index lists: small majority circuits over literals of earlier entries, with their raw word form
`numInputs, numOutputs, numGates, a b c per gate, one literal per output`.
-/

-- Powers of naturals are computed by `Nat.pow`, whatever algebraic instances are in scope.
attribute [local instance (1100)] instPowNat

namespace MajorityGraph

/-- The three literals of a gate of an index list. -/
structure LitGate where
  a : Nat
  b : Nat
  c : Nat
deriving DecidableEq, Repr, Inhabited

/-- The literals of a gate, in order. -/
def LitGate.toList (g : LitGate) : List Nat := [g.a, g.b, g.c]

/-- A majority circuit over `numInputs` inputs, as gates over literals and output literals. -/
structure IndexList where
  numInputs : Nat
  gates : Array LitGate
  outputs : Array Nat
deriving DecidableEq, Repr, Inhabited

/-- Why a word list is not the raw form of an index list. -/
inductive IndexListError where
  /-- The words end before the declared contents. -/
  | truncated (expected actual : Nat)
  /-- The words go on past the declared contents. -/
  | trailingData (expected actual : Nat)
  /-- A literal of `entry` names an entry not defined yet; `entry` is the gate count for an
  output. -/
  | forwardReference (entry literal : Nat)
  /-- The constant, the inputs and the gates do not fit the literal space. -/
  | tooManyEntries (entries : Nat)
deriving DecidableEq, Repr

namespace IndexListError

/-- The name of the kind of error. -/
def kind : IndexListError → String
  | truncated .. => "Truncated"
  | trailingData .. => "TrailingData"
  | forwardReference .. => "ForwardReference"
  | tooManyEntries .. => "TooManyEntries"

/-- The text reported for an error. -/
def message : IndexListError → String
  | truncated e a => s!"Truncated index list: expected {e} words, got {a}"
  | trailingData e a => s!"Trailing data in index list: expected {e} words, got {a}"
  | forwardReference e l => s!"Literal {l} in entry {e} references a later entry"
  | tooManyEntries n => s!"Index list declares {n} entries, at most 2147483648 are addressable"

end IndexListError

namespace IndexList

/-- Entries that a 32-bit literal can name. -/
def maxEntries : Nat := 2 ^ (31 : Nat)

/-- An empty list over `n` inputs; the constant and the inputs must fit the literal space. -/
def new (n : Nat) : Except Fault IndexList :=
  if 1 + n ≤ maxEntries then .ok ⟨n, #[], #[]⟩ else .error (.inputsUnaddressable n)

/-- Number of gates. -/
def numGates (l : IndexList) : Nat := l.gates.size

/-- Number of outputs. -/
def numOutputs (l : IndexList) : Nat := l.outputs.size

/-- Number of entries that a literal may name now: the constant, the inputs and the gates. -/
def numEntries (l : IndexList) : Nat := 1 + l.numInputs + l.gates.size

/-- The positive literal of gate `k`, without the range check. -/
def gateLiteral (l : IndexList) (k : Nat) : Nat := Literal.make (1 + l.numInputs + k) false

/-- The positive literal of gate `k`, whose entry must fit the literal space; the entry is
counted in 64-bit words, so a gate number near the largest word overflows first. -/
def literalOfGate (l : IndexList) (k : Nat) : Except Fault Nat :=
  if 1 + l.numInputs + k ≥ 2 ^ (64 : Nat) then .error .sumOverflow
  else if 1 + l.numInputs + k < maxEntries then .ok (l.gateLiteral k)
  else .error (.gateOutsideLiteralRange k)

/-- Appends a majority gate over earlier entries and returns its positive literal. -/
def addMaj (l : IndexList) (a b c : Nat) : Except Fault (Nat × IndexList) := do
  for lit in [a, b, c] do
    if Literal.index lit ≥ l.numEntries then throw (.literalReferencesLater lit)
  let l := { l with gates := l.gates.push ⟨a, b, c⟩ }
  let lit ← l.literalOfGate (l.gates.size - 1)
  pure (lit, l)

/-- Appends the conjunction `<0 a b>`. -/
def addAnd (l : IndexList) (a b : Nat) : Except Fault (Nat × IndexList) := l.addMaj 0 a b

/-- Appends the disjunction `<1 a b>`. -/
def addOr (l : IndexList) (a b : Nat) : Except Fault (Nat × IndexList) := l.addMaj 1 a b

/-- Appends an output literal of a defined entry. -/
def addOutput (l : IndexList) (lit : Nat) : Except Fault IndexList :=
  if Literal.index lit < l.numEntries then .ok { l with outputs := l.outputs.push lit }
  else .error (.outputLiteralUndefined lit)

/-- The first literal that names an entry not defined before it: gates in order, then the
outputs, which are reported with the gate count as their entry. -/
def firstForwardReference (l : IndexList) : Option (Nat × Nat) :=
  let inGates := (List.range l.gates.size).findSome? fun k =>
    let limit := 1 + l.numInputs + k
    ((l.gates.getD k default).toList.find? fun lit => Literal.index lit ≥ limit).map (k, ·)
  match inGates with
  | some r => some r
  | none => (l.outputs.find? fun lit => Literal.index lit ≥ l.numEntries).map (l.gates.size, ·)

/-- Whether every literal names an earlier entry. -/
def isWellFormed (l : IndexList) : Bool := l.firstForwardReference.isNone

/-- The raw word form; the output and gate counts are cut to 32-bit words. -/
def raw (l : IndexList) : Array Nat :=
  #[l.numInputs, l.outputs.size % UInt32.size, l.gates.size % UInt32.size] ++
    l.gates.flatMap (fun g => #[g.a, g.b, g.c]) ++ l.outputs

/-- The largest value of the machine words on which the reader counts. -/
def maxWord : Nat := 2 ^ (64 : Nat) - 1

/-- The word at position `i`, which must exist. -/
def wordAt (w : Array Nat) (i : Nat) : Except Fault Nat :=
  match w[i]? with
  | some x => .ok x
  | none => .error (.indexOutOfBounds w.size i)

/-- The words from position `start` on; the start must not pass the end. -/
def sliceFrom (w : Array Nat) (start : Nat) : Except Fault (Array Nat) :=
  if start ≤ w.size then .ok (w.extract start w.size)
  else .error (.sliceStartOutOfRange start w.size)

/-- The words before position `stop`, which must not pass the end. -/
def sliceTo (w : Array Nat) (stop : Nat) : Except Fault (Array Nat) :=
  if stop ≤ w.size then .ok (w.extract 0 stop) else .error (.sliceEndOutOfRange stop w.size)

/-- Gates read from words in threes; words past the last full three are left. -/
def chunkGates (w : Array Nat) : Array LitGate :=
  Array.ofFn (n := w.size / 3) fun k =>
    ⟨w.getD (3 * k.val) 0, w.getD (3 * k.val + 1) 0, w.getD (3 * k.val + 2) 0⟩

/-- Reads the raw word form: first the length against the declared counts, summed on machine
words that saturate, then the size of the literal space, then the literals in order. The words
after the counts are sliced into gate words and outputs. The outer failure is a fault of the
reader itself; the inner one says why the words are no raw form. -/
def ofRaw (w : Array Nat) : Except Fault (Except IndexListError IndexList) := do
  if w.size < 3 then return .error (.truncated 3 w.size)
  let numInputs ← wordAt w 0
  let numOutputs ← wordAt w 1
  let numGates ← wordAt w 2
  let expected := min (min (3 + min (numGates * 3) maxWord) maxWord + numOutputs) maxWord
  if w.size < expected then return .error (.truncated expected w.size)
  if w.size > expected then return .error (.trailingData expected w.size)
  if 1 + numInputs + numGates > maxWord then throw .sumOverflow
  let entries := 1 + numInputs + numGates
  if entries > maxEntries then return .error (.tooManyEntries entries)
  let body ← sliceFrom w 3
  if 3 * numGates > maxWord then throw .productOverflow
  let gateWords ← sliceTo body (3 * numGates)
  let outputs ← sliceFrom body (3 * numGates)
  let l : IndexList := ⟨numInputs, chunkGates gateWords, outputs⟩
  match l.firstForwardReference with
  | some (entry, lit) => return .error (.forwardReference entry lit)
  | none => return .ok l

/-- The list as text: `{2 inputs; 6 = <0 2 4>; outputs 6}`. -/
def display (l : IndexList) : String :=
  let gates := (List.range l.gates.size).map fun k =>
    let g := l.gates.getD k default
    s!"; {l.gateLiteral k} = <{g.a} {g.b} {g.c}>"
  let outs := l.outputs.toList.map fun lit => s!" {lit}"
  "\x7b" ++ toString l.numInputs ++ " inputs" ++ String.join gates ++ "; outputs" ++
    String.join outs ++ "\x7d"

end IndexList

end MajorityGraph

namespace MajorityGraph.IndexList

/-- Whether reading the raw form back gives the list itself. -/
def roundTrips (l : IndexList) : Bool :=
  match ofRaw l.raw with
  | .ok (.ok l') => l' == l
  | _ => false

end MajorityGraph.IndexList
