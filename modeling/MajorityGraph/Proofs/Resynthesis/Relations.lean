import Mathlib.Algebra.Group.Nat.Defs
import MajorityGraph.Resynthesis
import MajorityGraph.Proofs.Simulation.Values
import MajorityGraph.Proofs.TruthTable.Tests

/-!
The relations of the resynthesis engine are exactly the tried literal pairs `(a, b)` with
`<a b t> = t`, in the order tried (`relations_eq`).
-/

namespace MajorityGraph

namespace Literal

/-- Below the top of the literal space, a literal is twice its entry plus its polarity. -/
theorem make_eq {index : Nat} (small : index < 2 ^ 31) (c : Bool) :
    make index c = 2 * index + c.toNat := by
  have bit : c.toNat ≤ 1 := Bool.toNat_le c
  have mask : (0xFFFFFFFF : Nat) = 2 ^ 32 - 1 := rfl
  rw [make, mask, Nat.and_two_pow_sub_one_eq_mod, Nat.mod_eq_of_lt]
  omega

end Literal

namespace Resynthesis

open TruthTable

section Folds

variable {α β ε : Type}

/-- A fold whose every step succeeds with `g b x` is the pure fold of `g`. -/
theorem foldlM_eq_ok {l : List α} {f : β → α → Except ε β} {g : β → α → β}
    {init : β} (step : ∀ b, ∀ x ∈ l, f b x = .ok (g b x)) :
    l.foldlM f init = .ok (l.foldl g init) := by
  induction l generalizing init with
  | nil => rfl
  | cons x rest ih =>
    rw [List.foldlM_cons, step init x List.mem_cons_self]
    exact ih fun b y member => step b y (List.mem_cons_of_mem x member)

/-- Pushing the elements that pass a test appends the filtered list. -/
theorem foldl_push_filter (P : α → Prop) [DecidablePred P] (l : List α) (acc : Array α) :
    l.foldl (fun acc x => if P x then acc.push x else acc) acc =
      acc ++ (l.filter fun x => decide (P x)).toArray := by
  induction l generalizing acc with
  | nil => simp
  | cons x rest ih => by_cases px : P x <;> simp [px, ih]

/-- Pushing each element's image and the complement of its image appends them interleaved. -/
theorem foldl_push_pairs (f : α → TruthTable) (l : List α) (acc : Array TruthTable) :
    l.foldl (fun acc x => (acc.push (f x)).push (f x).not) acc =
      acc ++ (l.flatMap fun x => [f x, (f x).not]).toArray := by
  induction l generalizing acc with
  | nil => simp
  | cons x rest ih => simp [ih]

end Folds

-----------------------------------------------------------------------------------------
-- Literals and their tables
-----------------------------------------------------------------------------------------

section Literals

variable {n k i : Nat} {lits : Array TruthTable}

/-- Below the top of the literal space, a candidate literal is `2 * (i + 1)` plus its
polarity. -/
theorem candidateLit_eq (small : i + 1 < 2 ^ 31) (c : Bool) :
    candidateLit i c = 2 * (i + 1) + c.toNat :=
  Literal.make_eq small c

@[simp] theorem index_candidateLit (small : i + 1 < 2 ^ 31) (c : Bool) :
    Literal.index (candidateLit i c) = i + 1 := by
  have bit : c.toNat ≤ 1 := Bool.toNat_le c
  rw [candidateLit_eq small, Literal.index]
  omega

@[simp] theorem isComplemented_candidateLit (small : i + 1 < 2 ^ 31) (c : Bool) :
    Literal.isComplemented (candidateLit i c) = c := by
  rw [candidateLit_eq small, Literal.isComplemented]
  cases c <;> simp [Nat.add_mod]

theorem two_le_candidateLit (small : i + 1 < 2 ^ 31) (c : Bool) : 2 ≤ candidateLit i c := by
  rw [candidateLit_eq small]
  omega

theorem candidateLit_lt (lt : i < k) (small : k < 2 ^ 31) (c : Bool) :
    candidateLit i c < 2 * (k + 1) := by
  have bit : c.toNat ≤ 1 := Bool.toNat_le c
  rw [candidateLit_eq (by omega)]
  omega

/-- The literal tables of a list of candidate tables: each table, then its complement. -/
def literalTablesOf (tables : List TruthTable) : Array TruthTable :=
  (tables.flatMap fun t => [t, t.not]).toArray

theorem size_literalTablesOf (tables : List TruthTable) :
    (literalTablesOf tables).size = 2 * tables.length := by
  induction tables with
  | nil => rfl
  | cons t rest ih =>
    simp only [literalTablesOf, List.size_toArray, List.flatMap_cons, List.length_append] at ih ⊢
    simp only [ih, List.length_cons, List.length_nil]
    omega

theorem getD_literalTablesOf {tables : List TruthTable} (lt : i < tables.length) (c : Bool) :
    (literalTablesOf tables).getD (2 * i + c.toNat) default =
      if c then (tables.getD i default).not else tables.getD i default := by
  induction tables generalizing i with
  | nil => cases lt
  | cons t rest ih =>
    cases i with
    | zero => cases c <;> simp [literalTablesOf]
    | succ i =>
      have shift : 2 * (i + 1) + c.toNat = 2 * i + c.toNat + 2 := by omega
      have inner := ih (by simpa using lt)
      simp only [literalTablesOf, Array.getD_eq_getD_getElem?, List.getElem?_toArray] at inner ⊢
      simpa [shift, List.getElem?_append_right] using inner

/-- Literal `2 * (i + 1) + c` reads candidate `i`, complemented when `c` holds. -/
theorem litTable_candidateLit {tables : List TruthTable} (lt : i < tables.length)
    (small : tables.length < 2 ^ 31) (c : Bool) :
    litTable (literalTablesOf tables) (candidateLit i c) =
      if c then (tables.getD i default).not else tables.getD i default := by
  rw [litTable, candidateLit_eq (by omega),
    show 2 * (i + 1) + c.toNat - 2 = 2 * i + c.toNat by omega]
  exact getD_literalTablesOf lt c

/-- The candidate tables of the engine, as the caller gives them by index. -/
theorem literalTables_eq {candidates : Array Nat} {tts : Array TruthTable}
    (inRange : ∀ c ∈ candidates, c < tts.size) :
    literalTables candidates tts =
      .ok (literalTablesOf (candidates.toList.map fun c => tts.getD c default)) := by
  rw [literalTables, ← Array.foldlM_toList,
    foldlM_eq_ok (g := fun acc c => (acc.push (tts.getD c default)).push (tts.getD c default).not)]
  · rw [foldl_push_pairs]
    simp [literalTablesOf, List.flatMap_map]
  · intro acc c member
    have lt := inRange c (Array.mem_toList_iff.mp member)
    simp [Array.getElem?_eq_getElem lt, Array.getD_eq_getD_getElem?]

/-- The table that a literal stands for: constant 0 and constant 1 over `n` variables, and
entry `lit - 2` of the literal tables. -/
def operand (n : Nat) (lits : Array TruthTable) (lit : Nat) : TruthTable :=
  if lit = 0 then zeros n else if lit = 1 then (zeros n).not else litTable lits lit

@[simp] theorem operand_zero : operand n lits 0 = zeros n := rfl

@[simp] theorem operand_one : operand n lits 1 = (zeros n).not := rfl

theorem operand_of_two_le {lit : Nat} (two : 2 ≤ lit) :
    operand n lits lit = litTable lits lit := by
  rw [operand, if_neg (by omega), if_neg (by omega)]

/-- Every literal of the answer's space stands for a table over `n` variables. -/
theorem valid_operand {lit : Nat} (vlits : ∀ t ∈ lits, Valid n t) (size : lits.size = 2 * k)
    (lt : lit < 2 * (k + 1)) : Valid n (operand n lits lit) := by
  by_cases zero : lit = 0
  · subst zero
    exact zeros_valid n
  by_cases one : lit = 1
  · subst one
    exact (zeros_valid n).not
  rw [operand_of_two_le (by omega), litTable, Array.getD_eq_getD_getElem?,
    Array.getElem?_eq_getElem (by omega), Option.getD_some]
  exact vlits _ (Array.getElem_mem _)

end Literals

-----------------------------------------------------------------------------------------
-- The tried pairs and the recorded relations
-----------------------------------------------------------------------------------------

/-- A relation of the target: the majority of the pair's tables with the target is the
target. -/
def Related (n : Nat) (lits : Array TruthTable) (target : TruthTable) (pair : Nat × Nat) : Prop :=
  maj (operand n lits pair.1) (operand n lits pair.2) target = .ok target

instance (n : Nat) (lits : Array TruthTable) (target : TruthTable) :
    DecidablePred (Related n lits target) :=
  fun _ => decidableEqOk _ _

/-- The pairs of candidate `i`'s literals with those of candidate `j`, in the sign order. -/
def signedPairs (i j : Nat) : List (Nat × Nat) :=
  signs.map fun (ci, cj) => (candidateLit i ci, candidateLit j cj)

/-- The pairs tried for candidate `i` of `k`: its literals with those of every later candidate,
then with constant 1, then with constant 0. -/
def pairsOf (k i : Nat) : List (Nat × Nat) :=
  (List.range' (i + 1) (k - (i + 1))).flatMap (signedPairs i) ++
    [(candidateLit i false, 1), (candidateLit i true, 1), (candidateLit i false, 0),
      (candidateLit i true, 0)]

/-- Every pair the relations over `k` candidates are drawn from, in the order tried. -/
def triedPairs (k : Nat) : List (Nat × Nat) := (List.range k).flatMap (pairsOf k)

section Recorded

variable {n k : Nat} {lits : Array TruthTable} {target : TruthTable}

/-- Keeps the relations and drops the other pairs. -/
def keepRelated (n : Nat) (lits : Array TruthTable) (target : TruthTable)
    (rels : Array (Nat × Nat)) (pair : Nat × Nat) : Array (Nat × Nat) :=
  if Related n lits target pair then rels.push pair else rels

theorem recordIf_eq {rels : Array (Nat × Nat)} {pair : Nat × Nat} {test : Except Fault Bool}
    (answers : test = .ok (decide (Related n lits target pair))) :
    recordIf rels pair test = .ok (keepRelated n lits target rels pair) := by
  rw [recordIf, answers, keepRelated]
  by_cases related : Related n lits target pair <;> simp [related] <;> rfl

variable (vt : Valid n target) (vlits : ∀ t ∈ lits, Valid n t) (size : lits.size = 2 * k)
  (small : k < 2 ^ 31)
include vt vlits size small

/-- The test of two candidate literals is whether they are a relation. -/
theorem pair_test {i j : Nat} (li : i < k) (lj : j < k) (ci cj : Bool) :
    majIs (litTable lits (candidateLit i ci)) (litTable lits (candidateLit j cj)) target target =
      .ok (decide (Related n lits target (candidateLit i ci, candidateLit j cj))) := by
  have ha : operand n lits (candidateLit i ci) = litTable lits (candidateLit i ci) :=
    operand_of_two_le (two_le_candidateLit (show i + 1 < 2 ^ 31 by omega) ci)
  have hb : operand n lits (candidateLit j cj) = litTable lits (candidateLit j cj) :=
    operand_of_two_le (two_le_candidateLit (show j + 1 < 2 ^ 31 by omega) cj)
  have va := valid_operand vlits size (candidateLit_lt li small ci)
  have vb := valid_operand vlits size (candidateLit_lt lj small cj)
  rw [ha] at va
  rw [hb] at vb
  rw [majIs_eq va vb vt vt]
  simp only [Related, ha, hb]

/-- A literal with constant 1 is a relation when it implies the target. -/
theorem implies_test {i : Nat} (li : i < k) (c : Bool) :
    (litTable lits (candidateLit i c)).implies target =
      .ok (decide (Related n lits target (candidateLit i c, 1))) := by
  have ha : operand n lits (candidateLit i c) = litTable lits (candidateLit i c) :=
    operand_of_two_le (two_le_candidateLit (show i + 1 < 2 ^ 31 by omega) c)
  have va := valid_operand vlits size (candidateLit_lt li small c)
  rw [ha] at va
  rw [implies_eq va vt]
  simp only [Related, ha, operand_one]

/-- A literal with constant 0 is a relation when the target implies it. -/
theorem implied_test {i : Nat} (li : i < k) (c : Bool) :
    target.implies (litTable lits (candidateLit i c)) =
      .ok (decide (Related n lits target (candidateLit i c, 0))) := by
  have ha : operand n lits (candidateLit i c) = litTable lits (candidateLit i c) :=
    operand_of_two_le (two_le_candidateLit (show i + 1 < 2 ^ 31 by omega) c)
  have va := valid_operand vlits size (candidateLit_lt li small c)
  rw [ha] at va
  rw [implied_eq va vt]
  simp only [Related, ha, operand_zero]

/-- The relations are the tried pairs that are relations, in the order tried. -/
theorem relations_eq :
    relations target lits k =
      .ok ((triedPairs k).filter fun pair => decide (Related n lits target pair)).toArray := by
  rw [relations,
    foldlM_eq_ok (g := fun rels i => (pairsOf k i).foldl (keepRelated n lits target) rels)]
  · have keeps : keepRelated n lits target =
        fun rels pair => if Related n lits target pair then rels.push pair else rels := rfl
    rw [← List.foldl_flatMap, ← triedPairs, keeps, foldl_push_filter]
    simp
  intro rels i member
  have li : i < k := List.mem_range.mp member
  -- the pairs with later candidates, sign by sign
  have later : ∀ rels, (List.range' (i + 1) (k - (i + 1))).foldlM (fun rels j =>
      signs.foldlM (fun rels (ci, cj) =>
        recordIf rels (candidateLit i ci, candidateLit j cj)
          (majIs (litTable lits (candidateLit i ci)) (litTable lits (candidateLit j cj))
            target target)) rels) rels =
      .ok (((List.range' (i + 1) (k - (i + 1))).flatMap (signedPairs i)).foldl
        (keepRelated n lits target) rels) := by
    intro rels
    rw [foldlM_eq_ok (g := fun rels j => (signedPairs i j).foldl (keepRelated n lits target) rels),
      List.foldl_flatMap]
    intro rels j member
    have lj : j < k := by
      rw [List.mem_range'] at member
      omega
    rw [foldlM_eq_ok (g := fun rels (signs : Bool × Bool) =>
      keepRelated n lits target rels (candidateLit i signs.1, candidateLit j signs.2))]
    · simp [signedPairs, List.foldl_map]
    · rintro rels ⟨ci, cj⟩ -
      exact recordIf_eq (pair_test vt vlits size small li lj ci cj)
  simp only [bind, Except.bind, later, pairsOf, List.foldl_append, List.foldl_cons,
    List.foldl_nil, recordIf_eq (implies_test vt vlits size small li _),
    recordIf_eq (implied_test vt vlits size small li _)]

end Recorded

end Resynthesis

end MajorityGraph
