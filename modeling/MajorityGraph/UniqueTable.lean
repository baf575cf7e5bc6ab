import Std.Data.HashMap
import MajorityGraph.Fault
import MajorityGraph.Pairing

/-!
The unique table: an arena of cells with an intrusive hash index whose buckets double when
full.
-/

-- Powers of naturals are computed by `Nat.pow`, whatever algebraic instances are in scope.
attribute [local instance (1100)] instPowNat

namespace MajorityGraph

/-- Values that the unique table can place in a bucket. -/
class BucketHash (α : Type) where
  bucketHash : α → UInt64

/-- Triples of words hash by pairing. -/
instance : BucketHash (UInt64 × UInt64 × UInt64) :=
  ⟨fun v => Pairing.pair3 v.1 v.2.1 v.2.2⟩

/-- A cell of the unique table: a value, the next cell of its chain, and whether it is linked. -/
structure Cell (α : Type) where
  value : α
  next : Nat
  linked : Bool
deriving Repr, Inhabited

/-- An arena of cells with `2 ^ bits` buckets; `heads` holds the first cell of every
non-empty bucket. -/
structure UniqueTable (α : Type) where
  cells : Array (Cell α)
  heads : Std.HashMap Nat Nat
  bits : Nat
  linkedCount : Nat

namespace UniqueTable

variable {α : Type}

/-- The most bucket bits a table may start with. -/
def maxBits : Nat := 31

/-- An empty table with `2 ^ bits` buckets. -/
def new (bits : Nat) : Except Fault (UniqueTable α) :=
  if bits ≤ maxBits then .ok ⟨#[], {}, bits, 0⟩ else .error .bucketBitsTooLarge

/-- Number of cells. -/
def size (t : UniqueTable α) : Nat := t.cells.size

/-- Number of buckets. -/
def bucketCount (t : UniqueTable α) : Nat := 2 ^ t.bits

/-- The first cell of bucket `b`, or 0 when the bucket is empty. -/
def head (t : UniqueTable α) (b : Nat) : Nat := t.heads.getD b 0

/-- The cell at index `i`, if there is one. -/
def cell? (t : UniqueTable α) (i : Nat) : Option (Cell α) := t.cells[i]?

/-- The cell at index `i`, which must exist. -/
def cell (t : UniqueTable α) (i : Nat) : Except Fault (Cell α) :=
  match t.cells[i]? with
  | some c => .ok c
  | none => .error (.indexOutOfBounds t.cells.size i)

/-- The value at index `i`, which must exist. -/
def value (t : UniqueTable α) (i : Nat) : Except Fault α := (·.value) <$> t.cell i

/-- Whether the cell at index `i`, which must exist, is linked. -/
def isLinked (t : UniqueTable α) (i : Nat) : Except Fault Bool := (·.linked) <$> t.cell i

/-- The next cell in the chain of cell `i`, which must exist; 0 ends the chain. -/
def next (t : UniqueTable α) (i : Nat) : Except Fault Nat := (·.next) <$> t.cell i

/-- The next cell after `i` in its chain, with 0 for a missing cell. -/
def nextOf (t : UniqueTable α) (i : Nat) : Nat := ((t.cells[i]?).map (·.next)).getD 0

/-- Appends an unlinked cell and returns its index. -/
def add (t : UniqueTable α) (v : α) : Nat × UniqueTable α :=
  let ⟨cells, heads, bits, linkedCount⟩ := t
  (cells.size, ⟨cells.push ⟨v, 0, false⟩, heads, bits, linkedCount⟩)

/-- Replaces the value at index `i`; only an unlinked cell may change its value. -/
def setValue (t : UniqueTable α) (i : Nat) (v : α) : UniqueTable α :=
  let ⟨cells, heads, bits, linkedCount⟩ := t
  ⟨cells.modify i fun c => { c with value := v }, heads, bits, linkedCount⟩

/-- Replaces the next-pointer of cell `i`. -/
def setNext (t : UniqueTable α) (i n : Nat) : UniqueTable α :=
  let ⟨cells, heads, bits, linkedCount⟩ := t
  ⟨cells.modify i fun c => { c with next := n }, heads, bits, linkedCount⟩

/-- Marks cell `i` linked or not, with its next-pointer, and moves the linked count by the
change. -/
def setLinked (t : UniqueTable α) (i : Nat) (linked : Bool) (n : Nat) : UniqueTable α :=
  let ⟨cells, heads, bits, linkedCount⟩ := t
  ⟨cells.modify i fun c => { c with next := n, linked },
    heads, bits, if linked then linkedCount + 1 else linkedCount - 1⟩

/-- Makes cell `i` the first of bucket `b`, or empties the bucket when `i` is 0. -/
def setHead (t : UniqueTable α) (b i : Nat) : UniqueTable α :=
  let ⟨cells, heads, bits, linkedCount⟩ := t
  ⟨cells, heads.insert b i, bits, linkedCount⟩

variable [BucketHash α]

/-- The bucket of a value: the low `bits` bits of its hash. -/
def bucketOf (t : UniqueTable α) (v : α) : Nat := (BucketHash.bucketHash v).toNat % 2 ^ t.bits

/-- Walks a chain from cell `i`, looking for a cell equal to `v`; `fuel` bounds the walk. -/
def findFrom [BEq α] (t : UniqueTable α) (v : α) : Nat → Nat → Option Nat
  | 0, _ => none
  | fuel + 1, i =>
    if i == 0 then none
    else match t.cells[i]? with
      | some c => if c.value == v then some i else t.findFrom v fuel c.next
      | none => none

/-- A linked cell equal to `v`, searched in the chain of its bucket. -/
def find [BEq α] (t : UniqueTable α) (v : α) : Option Nat :=
  t.findFrom v (t.cells.size + 1) (t.head (t.bucketOf v))

/-- Puts linked cell `i` at the front of its bucket's chain. -/
def chainIn (t : UniqueTable α) (i : Nat) : UniqueTable α :=
  match t.cells[i]? with
  | some c =>
    let b := t.bucketOf c.value
    (t.setNext i (t.head b)).setHead b i
  | none => t

/-- Doubles the buckets and chains the linked cells again, in increasing index order. -/
def grow (t : UniqueTable α) : UniqueTable α :=
  let ⟨cells, _, bits, linkedCount⟩ := t
  let t : UniqueTable α := ⟨cells, {}, bits + 1, linkedCount⟩
  (List.range' 1 (t.cells.size - 1)).foldl
    (fun acc i => if ((acc.cells[i]?).map (·.linked)).getD false then acc.chainIn i else acc) t

/-- Links cell `i` into its bucket, growing the table first when it is full. -/
def link (t : UniqueTable α) (i : Nat) : Except Fault (UniqueTable α) := do
  if i == 0 then throw .sentinelCell
  let c ← t.cell i
  if c.linked then throw (.cellAlreadyLinked i)
  let t := if t.linkedCount + 1 > 2 * t.bucketCount then t.grow else t
  let t := t.chainIn i
  pure (t.setLinked i true (t.nextOf i))

/-- The cell before `i` in a chain that starts at `prev`; `fuel` bounds the walk. -/
def prevOf (t : UniqueTable α) (i : Nat) : Nat → Nat → Except Fault Nat
  | 0, _ => .error .boundExceeded
  | fuel + 1, prev =>
    let n := t.nextOf prev
    if n == i then .ok prev
    else if n == 0 then .error (.cellNotInBucket i)
    else t.prevOf i fuel n

/-- Takes cell `i` out of its bucket's chain; the cell and its index stay. Unlinking a cell
that is not linked changes nothing. -/
def unlink (t : UniqueTable α) (i : Nat) : Except Fault (UniqueTable α) := do
  if i == 0 then throw .sentinelCell
  let c ← t.cell i
  if !c.linked then return t
  let b := t.bucketOf c.value
  let t ← if t.head b == i then pure (t.setHead b c.next)
    else do
      let prev ← t.prevOf i (t.cells.size + 1) (t.head b)
      pure (t.setNext prev c.next)
  pure (t.setLinked i false 0)

/-- The index of a linked cell equal to `v`, adding and linking a new cell when there is none;
the flag tells whether a cell was created. -/
def put [BEq α] (t : UniqueTable α) (v : α) : Except Fault ((Nat × Bool) × UniqueTable α) :=
  match t.find v with
  | some i => .ok ((i, false), t)
  | none =>
    let (i, t) := t.add v
    (fun t => ((i, true), t)) <$> t.link i

end UniqueTable

end MajorityGraph
