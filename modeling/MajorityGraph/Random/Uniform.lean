import MajorityGraph.Random.ChaCha
import MajorityGraph.Fault

/-! Random choices from the ChaCha stream: seeds, bounded numbers and biased coins. -/

-- Powers of naturals are computed by `Nat.pow`, whatever algebraic instances are in scope.
attribute [local instance (1100)] instPowNat

namespace MajorityGraph.Random

/-- The PCG32 multiplier. -/
def pcgMultiplier : UInt64 := 6364136223846793005

/-- The PCG32 increment. -/
def pcgIncrement : UInt64 := 11634580027462260723

/-- Rotates a word right by `n` bits. -/
def rotr (x : UInt32) (n : UInt32) : UInt32 := (x >>> n) ||| (x <<< (32 - n))

/-- One PCG32 step: the advanced state and its output word. -/
def pcgStep (state : UInt64) : UInt32 × UInt64 :=
  let state := state * pcgMultiplier + pcgIncrement
  let xorshifted := (((state >>> 18) ^^^ state) >>> 27).toUInt32
  let rot := (state >>> 59).toUInt32
  (rotr xorshifted rot, state)

/-- The eight key words that a 64-bit seed spreads to. -/
def keyOfSeed (seed : UInt64) : Array UInt32 :=
  ((List.range 8).foldl (fun (acc, st) _ => let (w, st) := pcgStep st; (acc.push w, st))
    ((#[] : Array UInt32), seed)).1

/-- The generator of a 64-bit seed. -/
def Generator.ofSeed (seed : UInt64) : Generator := Generator.ofKey (keyOfSeed seed)

/-- A number in `low..=high`, both below `2 ^ 32`, by widening multiplication with one
correction step. -/
def Generator.uniformInclusive (g : Generator) (low high : Nat) : Nat × Generator :=
  let range := (high - low + 1) % 2 ^ (32 : Nat)
  if range == 0 then
    let (x, g) := g.nextU32
    (x.toNat, g)
  else
    let (x, g) := g.nextU32
    let prod := x.toNat * range
    let hi := prod / 2 ^ (32 : Nat)
    let lo := prod % 2 ^ (32 : Nat)
    if lo > 2 ^ (32 : Nat) - range then
      let (y, g) := g.nextU32
      let hi2 := y.toNat * range / 2 ^ (32 : Nat)
      let carry := if lo + hi2 ≥ 2 ^ (32 : Nat) then 1 else 0
      ((low + hi + carry) % 2 ^ (32 : Nat), g)
    else ((low + hi) % 2 ^ (32 : Nat), g)

/-- A number below `n`; the range must not be empty. -/
def Generator.below (g : Generator) (n : Nat) : Except Fault (Nat × Generator) :=
  if n == 0 then .error .emptyRange else .ok (g.uniformInclusive 0 (n - 1))

/-- A coin that shows true with probability `threshold / 2 ^ 64`. -/
def Generator.coin (g : Generator) (threshold : UInt64) : Bool × Generator :=
  let (v, g) := g.nextU64
  (v < threshold, g)

/-- The threshold of probability 0.3: the double nearest 0.3 times `2 ^ 64`, truncated. -/
def threeTenths : UInt64 := 5534023222112865280

end MajorityGraph.Random
