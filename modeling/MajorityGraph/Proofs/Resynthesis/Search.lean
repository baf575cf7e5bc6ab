import Mathlib.Data.List.Infix
import MajorityGraph.Proofs.Resynthesis.Relations

/-!
The one-gate search is the first completion of the first relation that has one (`oneGate_eq`).
-/

namespace MajorityGraph

namespace Resynthesis

open TruthTable

section Loops

variable {α β ε : Type}

/-- A loop that stops at the first element with an answer, and goes on past the others, finds
the first answer. -/
theorem forIn_findSome {l : List α}
    {body : α → Option (Option β) × Unit →
      Except ε (ForInStep (Option (Option β) × Unit))}
    {f : α → Option β}
    (step : ∀ x ∈ l, body x (none, ()) = .ok (match f x with
      | some g => .done (some (some g), ())
      | none => .yield (none, ()))) :
    forIn l (none, ()) body = .ok ((l.findSome? f).map some, ()) := by
  induction l with
  | nil => rfl
  | cons x rest ih =>
    rw [List.forIn_cons, step x List.mem_cons_self, List.findSome?_cons]
    cases f x with
    | some g => rfl
    | none => exact ih fun y member => step y (List.mem_cons_of_mem x member)

end Loops

/-- Whether the gate `<a b c>` over the literals' tables is the target. -/
def Makes (n : Nat) (lits : Array TruthTable) (target : TruthTable) (a b c : Nat) : Prop :=
  maj (operand n lits a) (operand n lits b) (operand n lits c) = .ok target

instance (n : Nat) (lits : Array TruthTable) (target : TruthTable) (a b c : Nat) :
    Decidable (Makes n lits target a b c) :=
  decidableEqOk _ _

/-- The gate that relation `(p, q)` makes with a later relation `(r, s)`: with `r`, or else
with `s`, which is not tried when `q` and `s` are both constants. -/
def completion (n : Nat) (lits : Array TruthTable) (target : TruthTable) (p q : Nat)
    (later : Nat × Nat) : Option (Nat × Nat × Nat) :=
  if Makes n lits target p q later.1 then some (p, q, later.1)
  else if isConstantLit q && isConstantLit later.2 then none
  else if Makes n lits target p q later.2 then some (p, q, later.2)
  else none

/-- The gate that the first relation of a list makes with the first later relation that
completes it. -/
def firstCompletion (n : Nat) (lits : Array TruthTable) (target : TruthTable) :
    List (Nat × Nat) → Option (Nat × Nat × Nat)
  | [] => none
  | (p, q) :: rest => rest.findSome? (completion n lits target p q)

theorem isConstantLit_iff {lit : Nat} : isConstantLit lit = true ↔ lit < 2 := by
  rw [isConstantLit, decide_eq_true_iff]

theorem isConstantLit_eq_false {lit : Nat} : isConstantLit lit = false ↔ 2 ≤ lit := by
  rw [isConstantLit, decide_eq_false_iff_not, Nat.not_lt]

/-- A pair as the relations hold it over `k` candidates: a candidate literal, then a literal. -/
def InRange (k : Nat) (pair : Nat × Nat) : Prop :=
  2 ≤ pair.1 ∧ pair.1 < 2 * (k + 1) ∧ pair.2 < 2 * (k + 1)

theorem completion_eq_some {n : Nat} {lits : Array TruthTable} {target : TruthTable}
    {p q : Nat} {later : Nat × Nat} {g : Nat × Nat × Nat}
    (found : completion n lits target p q later = some g) :
    ∃ c, (c = later.1 ∨ c = later.2) ∧ g = (p, q, c) ∧ Makes n lits target p q c := by
  unfold completion at found
  by_cases first : Makes n lits target p q later.1
  · rw [if_pos first] at found
    cases found
    exact ⟨_, .inl rfl, rfl, first⟩
  rw [if_neg first] at found
  by_cases skipped : (isConstantLit q && isConstantLit later.2) = true
  · rw [if_pos skipped] at found
    cases found
  rw [if_neg skipped] at found
  by_cases second : Makes n lits target p q later.2
  · rw [if_pos second] at found
    cases found
    exact ⟨_, .inr rfl, rfl, second⟩
  rw [if_neg second] at found
  cases found

section Tests

variable {n k : Nat} {lits : Array TruthTable} {target : TruthTable}
variable (vt : Valid n target) (vlits : ∀ t ∈ lits, Valid n t) (size : lits.size = 2 * k)
include vt vlits size

omit vlits size in
/-- The conjunction or disjunction test of a constant literal is the majority with its
table. -/
theorem withConstantIs_eq {q : Nat} (constant : q < 2) {x y : TruthTable} (vx : Valid n x)
    (vy : Valid n y) :
    withConstantIs q x y target = .ok (decide (maj (operand n lits q) x y = .ok target)) := by
  unfold withConstantIs
  rcases (by omega : q = 0 ∨ q = 1) with rfl | rfl
  · exact andIs_eq vx vy vt
  · exact orIs_eq vx vy vt

/-- The test of a gate with a constant fan-in in the middle is whether it makes the target. -/
theorem constant_middle_test {p q c : Nat} (hp : 2 ≤ p ∧ p < 2 * (k + 1)) (constant : q < 2)
    (hc : 2 ≤ c ∧ c < 2 * (k + 1)) :
    withConstantIs q (litTable lits p) (litTable lits c) target =
      .ok (decide (Makes n lits target p q c)) := by
  have vp := valid_operand vlits size hp.2
  have vq : Valid n (operand n lits q) := valid_operand vlits size (by omega)
  have vc := valid_operand vlits size hc.2
  rw [operand_of_two_le hp.1] at vp
  rw [operand_of_two_le hc.1] at vc
  rw [withConstantIs_eq vt constant vp vc, decide_eq_decide.mpr]
  rw [Makes, operand_of_two_le hp.1, operand_of_two_le hc.1,
    maj_swap_left vq.fits vp.fits vc.fits]

/-- The test of a gate with a constant fan-in last is whether it makes the target. -/
theorem constant_last_test {p q s : Nat} (hp : 2 ≤ p ∧ p < 2 * (k + 1))
    (hq : 2 ≤ q ∧ q < 2 * (k + 1)) (constant : s < 2) :
    withConstantIs s (litTable lits p) (litTable lits q) target =
      .ok (decide (Makes n lits target p q s)) := by
  have vp := valid_operand vlits size hp.2
  have vq := valid_operand vlits size hq.2
  have vs : Valid n (operand n lits s) := valid_operand vlits size (by omega)
  rw [operand_of_two_le hp.1] at vp
  rw [operand_of_two_le hq.1] at vq
  rw [withConstantIs_eq vt constant vp vq, decide_eq_decide.mpr]
  rw [Makes, operand_of_two_le hp.1, operand_of_two_le hq.1,
    maj_swap_left vs.fits vp.fits vq.fits, maj_swap_right vp.fits vs.fits vq.fits]

/-- The test of a gate over three candidate literals is whether it makes the target. -/
theorem candidates_test {p q c : Nat} (hp : 2 ≤ p ∧ p < 2 * (k + 1))
    (hq : 2 ≤ q ∧ q < 2 * (k + 1)) (hc : 2 ≤ c ∧ c < 2 * (k + 1)) :
    majIs (litTable lits p) (litTable lits q) (litTable lits c) target =
      .ok (decide (Makes n lits target p q c)) := by
  have vp := valid_operand vlits size hp.2
  have vq := valid_operand vlits size hq.2
  have vc := valid_operand vlits size hc.2
  rw [operand_of_two_le hp.1] at vp
  rw [operand_of_two_le hq.1] at vq
  rw [operand_of_two_le hc.1] at vc
  rw [majIs_eq vp vq vc vt, decide_eq_decide.mpr]
  rw [Makes, operand_of_two_le hp.1, operand_of_two_le hq.1, operand_of_two_le hc.1]

/-- The walk over the later relations finds the first completion of `(p, q)`. -/
theorem gateFrom_eq {p q : Nat} {rest : List (Nat × Nat)} (hpq : InRange k (p, q))
    (inRange : ∀ pair ∈ rest, InRange k pair) :
    gateFrom target lits p q rest = .ok (rest.findSome? (completion n lits target p q)) := by
  obtain ⟨hp, hp', hq⟩ := hpq
  unfold gateFrom
  -- one case per branch of the walk: a constant `q` tests with a conjunction or disjunction
  by_cases constant : isConstantLit q = true
  · have small : q < 2 := isConstantLit_iff.mp constant
    simp only [if_pos constant]
    rw [forIn_findSome (f := completion n lits target p q)]
    · cases rest.findSome? (completion n lits target p q) <;> rfl
    rintro ⟨r, s⟩ member
    obtain ⟨hr, hr', hs⟩ := inRange _ member
    simp only [constant_middle_test vt vlits size ⟨hp, hp'⟩ small ⟨hr, hr'⟩]
    by_cases last : isConstantLit s = true
    · by_cases first : Makes n lits target p q r <;>
        simp [completion, first, constant, last, pure, Except.pure]
    have hs2 : 2 ≤ s := isConstantLit_eq_false.mp (Bool.eq_false_iff.mpr last)
    simp only [constant_middle_test vt vlits size ⟨hp, hp'⟩ small ⟨hs2, hs⟩]
    by_cases first : Makes n lits target p q r <;> by_cases second : Makes n lits target p q s <;>
      simp [completion, first, second, last, pure, Except.pure]
  · have hq2 : 2 ≤ q := isConstantLit_eq_false.mp (Bool.eq_false_iff.mpr constant)
    simp only [if_neg constant]
    rw [forIn_findSome (f := completion n lits target p q)]
    · cases rest.findSome? (completion n lits target p q) <;> rfl
    rintro ⟨r, s⟩ member
    obtain ⟨hr, hr', hs⟩ := inRange _ member
    simp only [candidates_test vt vlits size ⟨hp, hp'⟩ ⟨hq2, hq⟩ ⟨hr, hr'⟩]
    by_cases last : isConstantLit s = true
    · have small : s < 2 := isConstantLit_iff.mp last
      simp only [constant_last_test vt vlits size ⟨hp, hp'⟩ ⟨hq2, hq⟩ small]
      by_cases first : Makes n lits target p q r <;> by_cases second : Makes n lits target p q s <;>
        simp [completion, first, second, constant, last, pure, Except.pure]
    have hs2 : 2 ≤ s := isConstantLit_eq_false.mp (Bool.eq_false_iff.mpr last)
    simp only [candidates_test vt vlits size ⟨hp, hp'⟩ ⟨hq2, hq⟩ ⟨hs2, hs⟩]
    by_cases first : Makes n lits target p q r <;> by_cases second : Makes n lits target p q s <;>
      simp [completion, first, second, constant, last, pure, Except.pure]

/-- The search is the first completion of the first relation, in order, that has one. -/
theorem oneGate_eq {rels : List (Nat × Nat)} (inRange : ∀ pair ∈ rels, InRange k pair) :
    oneGate target lits rels = .ok (rels.tails.findSome? (firstCompletion n lits target)) := by
  induction rels with
  | nil => rfl
  | cons pair rest ih =>
    obtain ⟨p, q⟩ := pair
    have later : ∀ pair ∈ rest, InRange k pair :=
      fun pair member => inRange pair (List.mem_cons_of_mem _ member)
    rw [oneGate, gateFrom_eq vt vlits size (inRange _ List.mem_cons_self) later, List.tails_cons,
      List.findSome?_cons, firstCompletion]
    cases rest.findSome? (completion n lits target p q) with
    | some g => rfl
    | none => exact ih later

end Tests

section Outcomes

variable {n : Nat} {lits : Array TruthTable} {target : TruthTable}

/-- An answer of the search is a gate that makes the target out of a relation and a literal of
a later relation. -/
theorem firstCompletion_sound {rels : List (Nat × Nat)} {g : Nat × Nat × Nat}
    (found : rels.tails.findSome? (firstCompletion n lits target) = some g) :
    ∃ p q later c, (p, q) ∈ rels ∧ later ∈ rels ∧ (c = later.1 ∨ c = later.2) ∧
      g = (p, q, c) ∧ Makes n lits target p q c := by
  obtain ⟨tail, member, first⟩ := List.exists_of_findSome?_eq_some found
  have suffix := (List.mem_tails _ _).mp member
  match tail, first with
  | (p, q) :: rest, first =>
    obtain ⟨later, inRest, completes⟩ := List.exists_of_findSome?_eq_some first
    obtain ⟨c, side, rfl, makes⟩ := completion_eq_some completes
    exact ⟨p, q, later, c, suffix.subset List.mem_cons_self,
      suffix.subset (List.mem_cons_of_mem _ inRest), side, rfl, makes⟩

/-- The search answers as soon as one relation has a completion among the later ones. -/
theorem firstCompletion_isSome {rels rest : List (Nat × Nat)} {p q : Nat}
    (suffix : (p, q) :: rest <:+ rels) (later : Nat × Nat) (inRest : later ∈ rest)
    (completes : (completion n lits target p q later).isSome) :
    (rels.tails.findSome? (firstCompletion n lits target)).isSome := by
  rw [List.findSome?_isSome_iff]
  refine ⟨(p, q) :: rest, (List.mem_tails _ _).mpr suffix, ?_⟩
  rw [firstCompletion, List.findSome?_isSome_iff]
  exact ⟨later, inRest, completes⟩

end Outcomes

end Resynthesis

end MajorityGraph
