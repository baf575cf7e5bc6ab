/-! Nodes and signals: a signal packs a node and a polarity bit as `2 * id + polarity`. -/

-- Powers of naturals are computed by `Nat.pow`, whatever algebraic instances are in scope.
attribute [local instance (1100)] instPowNat

namespace MajorityGraph

/-- A node of a network, named by its id. -/
structure Node where
  id : Nat
deriving DecidableEq, Hashable, Repr, Inhabited

namespace Node

/-- The constant node, whose plain signal is constant 0. -/
def constant : Node := ⟨0⟩

/-- The largest id that a signal can carry: id and polarity share one 32-bit word. -/
def maxId : Nat := 2 ^ (31 : Nat) - 1

instance : LT Node := ⟨fun a b => a.id < b.id⟩

instance : LE Node := ⟨fun a b => a.id ≤ b.id⟩

instance (a b : Node) : Decidable (a < b) := inferInstanceAs (Decidable (a.id < b.id))

instance (a b : Node) : Decidable (a ≤ b) := inferInstanceAs (Decidable (a.id ≤ b.id))

instance : Ord Node := ⟨fun a b => compare a.id b.id⟩

/-- A node is written as `n` followed by its id. -/
def display (n : Node) : String := "n" ++ toString n.id

end Node

/-- A reference to a node with a polarity bit, packed as `2 * id + polarity`. -/
structure Signal where
  raw : Nat
deriving DecidableEq, Hashable, Repr, Inhabited

namespace Signal

/-- Constant 0: the plain signal of the constant node. -/
def zero : Signal := ⟨0⟩

/-- Constant 1: the complemented signal of the constant node. -/
def one : Signal := ⟨1⟩

/-- The signal of `n` with polarity `c`. -/
def make (n : Node) (c : Bool) : Signal := ⟨2 * n.id + c.toNat⟩

/-- The node that the signal refers to. -/
def node (s : Signal) : Node := ⟨s.raw / 2⟩

/-- Whether the signal is the complement of its node. -/
def isComplemented (s : Signal) : Bool := s.raw % 2 == 1

/-- Whether the signal refers to the constant node. -/
def isConst (s : Signal) : Bool := s.raw / 2 == 0

/-- The plain signal of the same node. -/
def regular (s : Signal) : Signal := make s.node false

/-- The signal of the same node with the other polarity. -/
def complement (s : Signal) : Signal := make s.node (!s.isComplemented)

/-- Complements the signal when `b` holds. -/
def xor (s : Signal) (b : Bool) : Signal := if b then s.complement else s

/-- The constant signal of a truth value. -/
def ofBool (b : Bool) : Signal := if b then one else zero

instance : LT Signal := ⟨fun a b => a.raw < b.raw⟩

instance : LE Signal := ⟨fun a b => a.raw ≤ b.raw⟩

instance (a b : Signal) : Decidable (a < b) := inferInstanceAs (Decidable (a.raw < b.raw))

instance (a b : Signal) : Decidable (a ≤ b) := inferInstanceAs (Decidable (a.raw ≤ b.raw))

/-- Constants are written `0` and `1`; other signals as their node, with `!` for a complement. -/
def display (s : Signal) : String :=
  if s.isConst then toString (s.raw % 2)
  else if s.isComplemented then "!" ++ s.node.display
  else s.node.display

theorem raw_make (n : Node) (c : Bool) : (make n c).raw = 2 * n.id + c.toNat := rfl

@[simp] theorem node_make (n : Node) (c : Bool) : (make n c).node = n := by
  cases n with
  | mk i =>
    have small : c.toNat < 2 := Bool.toNat_lt c
    show (⟨(2 * i + c.toNat) / 2⟩ : Node) = ⟨i⟩
    rw [Node.mk.injEq]
    omega

@[simp] theorem isComplemented_make (n : Node) (c : Bool) : (make n c).isComplemented = c := by
  show ((2 * n.id + c.toNat) % 2 == 1) = c
  rw [Nat.mul_add_mod]
  cases c <;> rfl

theorem make_node_isComplemented (s : Signal) : make s.node s.isComplemented = s := by
  cases s with
  | mk r =>
    show Signal.mk (2 * (r / 2) + (r % 2 == 1).toNat) = Signal.mk r
    congr 1
    rcases Nat.mod_two_eq_zero_or_one r with h | h <;> simp [h] <;> omega

@[simp] theorem node_complement (s : Signal) : s.complement.node = s.node := by
  simp [complement]

@[simp] theorem isComplemented_complement (s : Signal) :
    s.complement.isComplemented = !s.isComplemented := by
  simp [complement]

@[simp] theorem complement_complement (s : Signal) : s.complement.complement = s := by
  simp [complement, make_node_isComplemented]

end Signal

end MajorityGraph
