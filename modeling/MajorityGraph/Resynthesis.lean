import MajorityGraph.IndexList.Basic
import MajorityGraph.TruthTable.Basic
import MajorityGraph.Journal

/-!
Enumerative majority resynthesis: the smallest majority circuit over candidate functions, exact
up to one gate.
-/

namespace MajorityGraph

/-- Counters of the engine, cumulative over its calls. -/
structure ResynStats where
  calls : Nat := 0
  constant : Nat := 0
  direct : Nat := 0
  oneGate : Nat := 0
  failures : Nat := 0
  relations : Nat := 0
deriving Repr, Inhabited

namespace ResynStats

/-- The counters as one line of text. -/
def report (s : ResynStats) : String :=
  s!"resyn: {s.calls} calls, {s.constant} constant, {s.direct} direct, {s.oneGate} one-gate, " ++
    s!"{s.failures} failed, {s.relations} relations"

end ResynStats

namespace Resynthesis

/-- The literal of candidate `i` with polarity `c`. -/
@[inline]
def candidateLit (i : Nat) (c : Bool) : Nat := Literal.make (i + 1) c

/-- Whether the literal is one of the two constants. -/
def isConstantLit (lit : Nat) : Bool := lit < 2

/-- The candidate tables and their complements, interleaved, so literal `l` is entry `l - 2`. -/
def literalTables (candidates : Array Nat) (tts : Array TruthTable) :
    Except Fault (Array TruthTable) :=
  candidates.foldlM (fun acc c => match tts[c]? with
    | some t => .ok ((acc.push t).push t.not)
    | none => .error (.indexOutOfBounds tts.size c)) #[]

/-- The table of a candidate literal. -/
@[inline]
def litTable (lits : Array TruthTable) (lit : Nat) : TruthTable := lits.getD (lit - 2) default

/-- The signs of a pair relation, in the order they are tried. -/
def signs : List (Bool × Bool) := [(false, false), (true, false), (false, true), (true, true)]

/-- Appends `pair` to the relations when its test holds. -/
def recordIf (rels : Array (Nat × Nat)) (pair : Nat × Nat) (test : Except Fault Bool) :
    Except Fault (Array (Nat × Nat)) := do
  if ← test then pure (rels.push pair) else pure rels

/-- The relations of the target over `n` candidates, in the order they are recorded: for each
candidate `i`, its literal pairs with every later candidate in the sign order, then its positive
and negative literal with constant 1, then with constant 0. -/
def relations (target : TruthTable) (lits : Array TruthTable) (n : Nat) :
    Except Fault (Array (Nat × Nat)) :=
  (List.range n).foldlM (fun rels i => do
    let rels ← (List.range' (i + 1) (n - (i + 1))).foldlM (fun rels j =>
      signs.foldlM (fun rels (ci, cj) =>
        recordIf rels (candidateLit i ci, candidateLit j cj)
          (TruthTable.majIs (litTable lits (candidateLit i ci)) (litTable lits (candidateLit j cj))
            target target)) rels) rels
    let pos := candidateLit i false
    let neg := candidateLit i true
    let rels ← recordIf rels (pos, 1) ((litTable lits pos).implies target)
    let rels ← recordIf rels (neg, 1) ((litTable lits neg).implies target)
    let rels ← recordIf rels (pos, 0) (target.implies (litTable lits pos))
    recordIf rels (neg, 0) (target.implies (litTable lits neg))) #[]

/-- Whether the conjunction or disjunction of two tables, as a constant fan-in 0 or 1 asks,
is the target. -/
def withConstantIs (q : Nat) (x y target : TruthTable) : Except Fault Bool :=
  if q == 0 then x.andIs y target else x.orIs y target

/-- The first gate, in enumeration order, made of relation `(p, q)` and a literal of a later
relation. -/
def gateFrom (target : TruthTable) (lits : Array TruthTable) (p q : Nat)
    (rest : List (Nat × Nat)) : Except Fault (Option (Nat × Nat × Nat)) := do
  let x := litTable lits p
  if isConstantLit q then
    for (r, s) in rest do
      if ← withConstantIs q x (litTable lits r) target then return some (p, q, r)
      if isConstantLit s then continue
      if ← withConstantIs q x (litTable lits s) target then return some (p, q, s)
    pure none
  else
    let y := litTable lits q
    for (r, s) in rest do
      if ← TruthTable.majIs x y (litTable lits r) target then return some (p, q, r)
      if isConstantLit s then
        if ← withConstantIs s x y target then return some (p, q, s)
      else if ← TruthTable.majIs x y (litTable lits s) target then return some (p, q, s)
    pure none

/-- The first pair of relations, in enumeration order, that makes the target with one gate. -/
def oneGate (target : TruthTable) (lits : Array TruthTable) :
    List (Nat × Nat) → Except Fault (Option (Nat × Nat × Nat))
  | [] => pure none
  | (p, q) :: rest => do
    match ← gateFrom target lits p q rest with
    | some g => pure (some g)
    | none => oneGate target lits rest

/-- The first candidate at one of `positions` whose table is the target (`false`) or, failing
that, its complement `ntarget` (`true`). -/
def findDirect (target ntarget : TruthTable) (candidates : Array Nat) (tts : Array TruthTable) :
    List Nat → Except Fault (Option (Nat × Bool))
  | [] => pure none
  | i :: positions => do
    let c := candidates.getD i 0
    let t ← match tts[c]? with
      | some t => pure t
      | none => throw (.indexOutOfBounds tts.size c)
    if t == target then return some (i, false)
    if t == ntarget then return some (i, true)
    findDirect target ntarget candidates tts positions

/-- A circuit of at most `maxSize` gates over the candidates `tts[candidates[i]]` that computes
`target`, or none when the search finds none. The care set must be the whole space. -/
def resynthesize (target care : TruthTable) (candidates : Array Nat) (tts : Array TruthTable)
    (maxSize : Nat) : StateT ResynStats Logged (Option IndexList) := do
  if !care.isConst1 then orFail (.error .dontCares)
  modify fun s => { s with calls := s.calls + 1 }
  let list ← orFail (IndexList.new candidates.size)
  if target.isConst0 then
    StateT.lift (logAt .trace "resyn: constant 0")
    modify fun s => { s with constant := s.constant + 1 }
    return some (← orFail (list.addOutput 0))
  if target.isConst1 then
    StateT.lift (logAt .trace "resyn: constant 1")
    modify fun s => { s with constant := s.constant + 1 }
    return some (← orFail (list.addOutput 1))
  let ntarget := target.not
  match ← orFail (findDirect target ntarget candidates tts (List.range candidates.size)) with
  | some (i, false) =>
    StateT.lift (logAt .trace s!"resyn: candidate {i} matches")
    modify fun s => { s with direct := s.direct + 1 }
    return some (← orFail (list.addOutput (candidateLit i false)))
  | some (i, true) =>
    StateT.lift (logAt .trace s!"resyn: complement of candidate {i} matches")
    modify fun s => { s with direct := s.direct + 1 }
    return some (← orFail (list.addOutput (candidateLit i true)))
  | none => pure ()
  if maxSize == 0 then
    modify fun s => { s with failures := s.failures + 1 }
    return none
  let lits ← orFail (literalTables candidates tts)
  let rels ← orFail (relations target lits candidates.size)
  modify fun s => { s with relations := s.relations + rels.size }
  StateT.lift (logAt .debug s!"resyn: {rels.size} relations over {candidates.size} candidates")
  match ← orFail (oneGate target lits rels.toList) with
  | some (a, b, c) =>
    StateT.lift (logAt .trace s!"resyn: one gate <{a} {b} {c}>")
    modify fun s => { s with oneGate := s.oneGate + 1 }
    let (f, list) ← orFail (list.addMaj a b c)
    return some (← orFail (list.addOutput f))
  | none =>
    modify fun s => { s with failures := s.failures + 1 }
    return none

end Resynthesis

end MajorityGraph
