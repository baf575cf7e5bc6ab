/-! Literals of index lists: the 32-bit word `2 * index + complement`. -/

namespace MajorityGraph.Literal

/-- The literal of entry `index` with polarity `c`, cut to 32 bits: a top bit of `index` is
lost. -/
def make (index : Nat) (c : Bool) : Nat := (2 * index + c.toNat) &&& 0xFFFFFFFF

/-- The entry that a literal names. -/
def index (lit : Nat) : Nat := lit / 2

/-- Whether a literal is the complement of its entry. -/
def isComplemented (lit : Nat) : Bool := lit % 2 == 1

end MajorityGraph.Literal
