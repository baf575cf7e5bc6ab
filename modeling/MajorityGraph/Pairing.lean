/-!
Szudzik's pairing on 64-bit words, wrapping modulo `2 ^ 64`, as the bucket hash of the unique
table.
-/

namespace MajorityGraph.Pairing

/-- Szudzik's pairing of two words, computed modulo `2 ^ 64`. -/
def szudzik (a b : UInt64) : UInt64 :=
  if a < b then b * b + a else a * a + a + b

/-- The pairing of two words used for hashing. -/
def pair2 (a b : UInt64) : UInt64 := szudzik a b

/-- Three words are paired by pairing the first two, then the result with the third. -/
def pair3 (a b c : UInt64) : UInt64 := pair2 (pair2 a b) c

end MajorityGraph.Pairing
