import MajorityGraph.Fault

/-!
Truth tables: the `2 ^ n` values of a Boolean function packed into 64-bit words, bit `m` being the
value under the assignment coded by `m`.
-/

-- Powers of naturals are computed by `Nat.pow`, whatever algebraic instances are in scope.
attribute [local instance (1100)] instPowNat

namespace MajorityGraph

/-- A Boolean function over `numVars` variables, stored as packed words. -/
structure TruthTable where
  numVars : Nat
  words : Array UInt64
deriving DecidableEq, Repr, Inhabited

namespace TruthTable

/-- The widest table the library builds. -/
def maxVars : Nat := 24

/-- The word with every bit set. -/
def allOnes : UInt64 := 0xFFFFFFFFFFFFFFFF

/-- Number of storage words of a table over `n` variables: one word holds up to 64 bits. -/
def wordCount (n : Nat) : Nat := max (2 ^ n / 64) 1

/-- The bits of a storage word that hold values: all of them from six variables on. -/
def liveMask (n : Nat) : UInt64 :=
  if n < 6 then ((1 : UInt64) <<< (2 ^ n).toUInt64) - 1 else allOnes

/-- Clears the bits above `2 ^ numVars` in a single-word table. -/
def masked (t : TruthTable) : TruthTable :=
  if t.numVars < 6 then { t with words := t.words.modify 0 (· &&& liveMask t.numVars) } else t

/-- The number of function values, `2 ^ numVars`. -/
def numBits (t : TruthTable) : Nat := 2 ^ t.numVars

/-- Word `i` of the table, zero past the end. -/
@[inline]
def word (t : TruthTable) (i : Nat) : UInt64 := t.words.getD i 0

-----------------------------------------------------------------------------------------
-- Construction
-----------------------------------------------------------------------------------------

/-- The constant-0 function over `n` variables; at most `maxVars` variables are supported. -/
def new (n : Nat) : Except Fault TruthTable :=
  if n > maxVars then .error (.tooManyVariables n) else .ok ⟨n, Array.replicate (wordCount n) 0⟩

/-- The constant function of value `v` over `n` variables. -/
def constant (n : Nat) (v : Bool) : Except Fault TruthTable := do
  let t ← new n
  pure (if v then masked { t with words := t.words.map fun _ => allOnes } else t)

/-- The word pattern of variable `var < 6`: bit `m` is bit `var` of `m`. -/
def projection : Nat → UInt64
  | 0 => 0xAAAAAAAAAAAAAAAA
  | 1 => 0xCCCCCCCCCCCCCCCC
  | 2 => 0xF0F0F0F0F0F0F0F0
  | 3 => 0xFF00FF00FF00FF00
  | 4 => 0xFFFF0000FFFF0000
  | _ => 0xFFFFFFFF00000000

/-- The projection onto variable `var`: a variable from six on selects whole words, word `i`
being full when bit `var - 6` of `i` is set. -/
def nthVar (n var : Nat) : Except Fault TruthTable := do
  if var ≥ n then throw (.variableOutOfRange var n)
  let t ← new n
  if var < 6 then
    pure (masked { t with words := t.words.map fun _ => projection var })
  else
    let block := 2 ^ (var - 6)
    pure ⟨n, Array.ofFn (n := t.words.size) fun i => if (i.val / block) % 2 == 1 then allOnes else 0⟩

-----------------------------------------------------------------------------------------
-- Bits
-----------------------------------------------------------------------------------------

/-- The value under assignment `m`, read off the words without a range check. -/
def bit (t : TruthTable) (m : Nat) : Bool :=
  ((t.word (m / 64)) >>> (m % 64).toUInt64) &&& 1 == 1

/-- The value under assignment `m`, which must be below `2 ^ numVars`. -/
def getBit (t : TruthTable) (m : Nat) : Except Fault Bool :=
  if m < t.numBits then .ok (t.bit m) else .error (.bitOutOfRange m)

/-- Sets the value under assignment `m`, which must be below `2 ^ numVars`. -/
def setBit (t : TruthTable) (m : Nat) (v : Bool) : Except Fault TruthTable :=
  if m < t.numBits then
    let b : UInt64 := (1 : UInt64) <<< (m % 64).toUInt64
    .ok { t with words := t.words.modify (m / 64) fun w => if v then w ||| b else w &&& ~~~b }
  else .error (.bitOutOfRange m)

/-- Number of set bits of a word, by sums over fields of two, four and eight bits. -/
def wordOnes (x : UInt64) : Nat :=
  let pairs : UInt64 := 0x5555555555555555
  let quads : UInt64 := 0x3333333333333333
  let bytes : UInt64 := 0x0F0F0F0F0F0F0F0F
  let lows : UInt64 := 0x0101010101010101
  let x1 := x - ((x >>> 1) &&& pairs)
  let x2 := (x1 &&& quads) + ((x1 >>> 2) &&& quads)
  let x3 := (x2 + (x2 >>> 4)) &&& bytes
  ((x3 * lows) >>> 56).toNat

/-- The number of satisfying assignments. -/
def countOnes (t : TruthTable) : Nat := t.words.foldl (fun acc w => acc + wordOnes w) 0

/-- Whether the function is constant 0. -/
def isConst0 (t : TruthTable) : Bool := t.words.all (· == 0)

/-- Whether the function is constant 1. -/
def isConst1 (t : TruthTable) : Bool := t.words.all (· == liveMask t.numVars)

-----------------------------------------------------------------------------------------
-- Boolean operations
-----------------------------------------------------------------------------------------

/-- The complement. -/
def not (t : TruthTable) : TruthTable := masked { t with words := t.words.map (~~~ ·) }

/-- Combines two tables of one width word by word. -/
def zipWords (f : UInt64 → UInt64 → UInt64) (a b : TruthTable) : Except Fault TruthTable :=
  if a.numVars = b.numVars then .ok ⟨a.numVars, Array.zipWith f a.words b.words⟩
  else .error (.widthsDiffer a.numVars b.numVars)

/-- Conjunction of two tables of one width. -/
def and (a b : TruthTable) : Except Fault TruthTable := zipWords (· &&& ·) a b

/-- Disjunction of two tables of one width. -/
def or (a b : TruthTable) : Except Fault TruthTable := zipWords (· ||| ·) a b

/-- Exclusive or of two tables of one width. -/
def xor (a b : TruthTable) : Except Fault TruthTable := zipWords (· ^^^ ·) a b

/-- Majority of three words, bit by bit. -/
@[inline]
def majWord (x y z : UInt64) : UInt64 := (x &&& y) ||| (x &&& z) ||| (y &&& z)

/-- The checks of `maj`: the width of `a` against `b`, then against `c`. -/
def majWidths (a b c : TruthTable) : Except Fault Unit := do
  if a.numVars ≠ b.numVars then throw (.operandWidthsDiffer a.numVars b.numVars)
  if a.numVars ≠ c.numVars then throw (.operandWidthsDiffer a.numVars c.numVars)

/-- Majority of three tables: true where at least two are. The width of `a` is checked against
`b`, then against `c`. -/
def maj (a b c : TruthTable) : Except Fault TruthTable := do
  majWidths a b c
  pure ⟨a.numVars, Array.ofFn (n := a.words.size) fun i =>
    majWord (a.word i) (b.word i) (c.word i)⟩

/-- Whether every assignment that satisfies `a` satisfies `b`; the widths must agree. -/
def implies (a b : TruthTable) : Except Fault Bool :=
  if a.numVars = b.numVars then
    .ok (Nat.all a.words.size fun i _ => a.word i &&& ~~~(b.word i) == 0)
  else .error (.operandWidthsDiffer a.numVars b.numVars)

-----------------------------------------------------------------------------------------
-- Tests of equations
-----------------------------------------------------------------------------------------

/-- Whether word `f i` equals word `i` of `t` at every position of a table of `n` variables
whose words number `size`, `t` having that width too. -/
@[inline]
def wordsAre (n size : Nat) (f : Nat → UInt64) (t : TruthTable) : Bool :=
  t.numVars == n && t.words.size == size && Nat.all size fun i _ => f i == t.word i

/-- Whether `a ∧ b = t`, with the width check of the conjunction. -/
def andIs (a b t : TruthTable) : Except Fault Bool :=
  if a.numVars = b.numVars then
    .ok (wordsAre a.numVars (min a.words.size b.words.size) (fun i => a.word i &&& b.word i) t)
  else .error (.widthsDiffer a.numVars b.numVars)

/-- Whether `a ∨ b = t`, with the width check of the disjunction. -/
def orIs (a b t : TruthTable) : Except Fault Bool :=
  if a.numVars = b.numVars then
    .ok (wordsAre a.numVars (min a.words.size b.words.size) (fun i => a.word i ||| b.word i) t)
  else .error (.widthsDiffer a.numVars b.numVars)

/-- Whether `<a b c> = t`, with the width checks of the majority. -/
def majIs (a b c t : TruthTable) : Except Fault Bool := do
  majWidths a b c
  pure (wordsAre a.numVars a.words.size (fun i => majWord (a.word i) (b.word i) (c.word i)) t)

/-- Sets bit `4 * i + j` for every bit `j` of the `i`-th nibble from the end of `nibbles`,
dropping bits past the table. -/
def ofNibbles (n : Nat) (nibbles : List Nat) : Except Fault TruthTable := do
  let t ← new n
  let bits := (List.range nibbles.length).flatMap fun i =>
    let v := nibbles.getD (nibbles.length - 1 - i) 0
    ((List.range 4).filter fun j => v / 2 ^ j % 2 == 1).map fun j => 4 * i + j
  bits.foldlM (fun acc m => if m < acc.numBits then acc.setBit m true else pure acc) t

end TruthTable

end MajorityGraph
