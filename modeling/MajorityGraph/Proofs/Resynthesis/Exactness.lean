import MajorityGraph.Proofs.Resynthesis.Search

/-!
The one-gate search of the resynthesis engine finds a gate whenever some majority of constants
and candidate literals is the target.
-/

namespace MajorityGraph

namespace Resynthesis

open TruthTable

-----------------------------------------------------------------------------------------
-- Order in a list
-----------------------------------------------------------------------------------------

section Order

variable {α β : Type} {x y : α}

/-- `x` comes before `y` in `l`. -/
def Precedes (x y : α) (l : List α) : Prop := ∃ pre rest, l = pre ++ x :: rest ∧ y ∈ rest

theorem precedes_append {A B : List α} (hx : x ∈ A) (hy : y ∈ B) : Precedes x y (A ++ B) := by
  obtain ⟨pre, rest, rfl⟩ := List.append_of_mem hx
  exact ⟨pre, rest ++ B, by simp, List.mem_append_right _ hy⟩

theorem Precedes.append_left {A B : List α} (h : Precedes x y B) : Precedes x y (A ++ B) := by
  obtain ⟨pre, rest, rfl, hy⟩ := h
  exact ⟨A ++ pre, rest, by simp, hy⟩

theorem Precedes.append_right {A B : List α} (h : Precedes x y A) : Precedes x y (A ++ B) := by
  obtain ⟨pre, rest, rfl, hy⟩ := h
  exact ⟨pre, rest ++ B, by simp, List.mem_append_left _ hy⟩

/-- An element of an earlier block comes before an element of a later block. -/
theorem Precedes.flatMap {l : List β} {f : β → List α} {i j : β} (h : Precedes i j l)
    (hx : x ∈ f i) (hy : y ∈ f j) : Precedes x y (l.flatMap f) := by
  obtain ⟨pre, rest, rfl, hj⟩ := h
  rw [List.flatMap_append, List.flatMap_cons]
  exact (precedes_append hx (List.mem_flatMap.mpr ⟨j, hj, hy⟩)).append_left

/-- The order inside one block is kept in the whole. -/
theorem Precedes.flatMap_of_mem {l : List β} {f : β → List α} {i : β} (member : i ∈ l)
    (h : Precedes x y (f i)) : Precedes x y (l.flatMap f) := by
  obtain ⟨pre, rest, rfl⟩ := List.append_of_mem member
  rw [List.flatMap_append, List.flatMap_cons]
  exact h.append_right.append_left

theorem Precedes.filter {l : List α} (p : α → Bool) (h : Precedes x y l) (px : p x = true)
    (py : p y = true) : Precedes x y (l.filter p) := by
  obtain ⟨pre, rest, rfl, hy⟩ := h
  exact ⟨pre.filter p, rest.filter p, by simp [List.filter_append, px],
    List.mem_filter.mpr ⟨hy, py⟩⟩

theorem Precedes.suffix {l : List α} (h : Precedes x y l) :
    ∃ rest, x :: rest <:+ l ∧ y ∈ rest := by
  obtain ⟨pre, rest, rfl, hy⟩ := h
  exact ⟨rest, List.suffix_append pre _, hy⟩

theorem precedes_range' {s m i j : Nat} (si : s ≤ i) (ij : i < j) (js : j < s + m) :
    Precedes i j (List.range' s m) := by
  refine ⟨List.range' s (i - s), List.range' (i + 1) (m - (i - s) - 1), ?_, ?_⟩
  · rw [List.range'_eq_append_iff]
    refine ⟨i - s, by omega, rfl, ?_⟩
    obtain ⟨r, count⟩ : ∃ r, m - (i - s) = r + 1 := ⟨m - (i - s) - 1, by omega⟩
    rw [show s + (i - s) * 1 = i by omega, count, List.range'_succ, Nat.add_sub_cancel]
  · rw [List.mem_range']
    exact ⟨j - (i + 1), by omega, by omega⟩

end Order

-----------------------------------------------------------------------------------------
-- Literals over candidate tables
-----------------------------------------------------------------------------------------

/-- The tables a gate of an answer may read: the constants over `n` variables, the candidate
tables and their complements. -/
def IsOperand (n : Nat) (tables : List TruthTable) (x : TruthTable) : Prop :=
  x = zeros n ∨ x = (zeros n).not ∨ ∃ t ∈ tables, x = t ∨ x = t.not

section Literals

variable {n : Nat} {tables : List TruthTable}

/-- A literal of the answer's space is a constant or a candidate literal. -/
theorem lit_cases {lit : Nat} (lt : lit < 2 * (tables.length + 1))
    (small : tables.length < 2 ^ 31) :
    lit < 2 ∨ ∃ i < tables.length, ∃ c, lit = candidateLit i c := by
  by_cases two : lit < 2
  · exact .inl two
  refine .inr ⟨lit / 2 - 1, by omega, lit % 2 == 1, ?_⟩
  rw [candidateLit_eq (by omega)]
  rcases Nat.mod_two_eq_zero_or_one lit with parity | parity <;> simp [parity] <;> omega

theorem operand_candidateLit {i : Nat} (lt : i < tables.length)
    (small : tables.length < 2 ^ 31) (c : Bool) :
    operand n (literalTablesOf tables) (candidateLit i c) =
      if c then (tables.getD i default).not else tables.getD i default := by
  rw [operand_of_two_le (two_le_candidateLit (by omega) c), litTable_candidateLit lt small c]

theorem valid_literalTablesOf (vtables : ∀ t ∈ tables, Valid n t) :
    ∀ t ∈ literalTablesOf tables, Valid n t := by
  intro t member
  simp only [literalTablesOf, List.mem_toArray, List.mem_flatMap, List.mem_cons,
    List.not_mem_nil, or_false] at member
  obtain ⟨u, inTables, same | same⟩ := member
  · rw [same]
    exact vtables u inTables
  · rw [same]
    exact (vtables u inTables).not

/-- Every literal of the answer's space reads one of the operand tables. -/
theorem operand_isOperand {lit : Nat} (lt : lit < 2 * (tables.length + 1))
    (small : tables.length < 2 ^ 31) :
    IsOperand n tables (operand n (literalTablesOf tables) lit) := by
  rcases lit_cases lt small with constant | ⟨i, li, c, rfl⟩
  · rcases (by omega : lit = 0 ∨ lit = 1) with rfl | rfl
    · exact .inl rfl
    · exact .inr (.inl rfl)
  refine .inr (.inr ⟨tables.getD i default, ?_, ?_⟩)
  · simp [List.getD_eq_getElem?_getD, li]
  · rw [operand_candidateLit li small]
    cases c <;> simp

/-- Every operand table is read by some literal of the answer's space. -/
theorem exists_lit_of_isOperand {x : TruthTable} (operand_x : IsOperand n tables x)
    (small : tables.length < 2 ^ 31) :
    ∃ lit < 2 * (tables.length + 1), operand n (literalTablesOf tables) lit = x := by
  rcases operand_x with rfl | rfl | ⟨t, member, same⟩
  · exact ⟨0, by omega, rfl⟩
  · exact ⟨1, by omega, rfl⟩
  obtain ⟨i, li, rfl⟩ := List.getElem_of_mem member
  have entry : tables.getD i default = tables[i] := by simp [List.getD_eq_getElem?_getD, li]
  rcases same with rfl | rfl
  · exact ⟨candidateLit i false, candidateLit_lt li small false, by
      rw [operand_candidateLit li small, entry]; rfl⟩
  · exact ⟨candidateLit i true, candidateLit_lt li small true, by
      rw [operand_candidateLit li small, entry]; rfl⟩

end Literals

-----------------------------------------------------------------------------------------
-- Gates without a shortcut
-----------------------------------------------------------------------------------------

section Exact

variable {n : Nat} {tables : List TruthTable} {target : TruthTable}
variable (vt : Valid n target) (vtables : ∀ t ∈ tables, Valid n t)
  (small : tables.length < 2 ^ 31)

/-- No single literal reads the target: the target is no constant, and no candidate table is
the target or its complement. -/
def NoLiteralIs (n : Nat) (tables : List TruthTable) (target : TruthTable) : Prop :=
  ∀ lit < 2 * (tables.length + 1), operand n (literalTablesOf tables) lit ≠ target

/-- The relations the engine records over the candidate tables. -/
def recorded (n : Nat) (tables : List TruthTable) (target : TruthTable) : List (Nat × Nat) :=
  (triedPairs tables.length).filter fun pair =>
    decide (Related n (literalTablesOf tables) target pair)

include vtables

theorem valid_lit {lit : Nat} (lt : lit < 2 * (tables.length + 1)) :
    Valid n (operand n (literalTablesOf tables) lit) :=
  valid_operand (valid_literalTablesOf vtables) (size_literalTablesOf tables) lt

/-- The gate with two fan-ins swapped makes the same table. -/
theorem Makes.swap_left {a b c : Nat} (la : a < 2 * (tables.length + 1))
    (lb : b < 2 * (tables.length + 1)) (lc : c < 2 * (tables.length + 1))
    (makes : Makes n (literalTablesOf tables) target a b c) :
    Makes n (literalTablesOf tables) target b a c := by
  rw [Makes, ← maj_swap_left (valid_lit vtables la).fits (valid_lit vtables lb).fits
    (valid_lit vtables lc).fits]
  exact makes

theorem Makes.swap_right {a b c : Nat} (la : a < 2 * (tables.length + 1))
    (lb : b < 2 * (tables.length + 1)) (lc : c < 2 * (tables.length + 1))
    (makes : Makes n (literalTablesOf tables) target a b c) :
    Makes n (literalTablesOf tables) target a c b := by
  rw [Makes, ← maj_swap_right (valid_lit vtables la).fits (valid_lit vtables lb).fits
    (valid_lit vtables lc).fits]
  exact makes

/-- A gate that makes the target is a relation with each of its first two fan-ins. -/
theorem Makes.related {a b c : Nat} (la : a < 2 * (tables.length + 1))
    (lb : b < 2 * (tables.length + 1)) (lc : c < 2 * (tables.length + 1))
    (makes : Makes n (literalTablesOf tables) target a b c) :
    Related n (literalTablesOf tables) target (a, b) :=
  maj_absorb (valid_lit vtables la) (valid_lit vtables lb) (valid_lit vtables lc) makes

/-- When no literal reads the target, the first two fan-ins of a gate that makes it are
neither equal nor complementary. -/
theorem Makes.apart (noLit : NoLiteralIs n tables target) {a b c : Nat}
    (la : a < 2 * (tables.length + 1)) (lc : c < 2 * (tables.length + 1))
    (makes : Makes n (literalTablesOf tables) target a b c) :
    operand n (literalTablesOf tables) b ≠ operand n (literalTablesOf tables) a ∧
      operand n (literalTablesOf tables) b ≠ (operand n (literalTablesOf tables) a).not := by
  have va := valid_lit vtables la
  have vc := valid_lit vtables lc
  constructor
  · intro same
    rw [Makes, same, maj_same va vc] at makes
    exact noLit a la (Except.ok.inj makes)
  · intro opposite
    rw [Makes, opposite, maj_opposite va vc] at makes
    exact noLit c lc (Except.ok.inj makes)

omit vtables in
/-- Two constant literals are equal or complementary. -/
theorem not_apart_of_constants {a b : Nat} (ha : a < 2) (hb : b < 2)
    (apart : operand n (literalTablesOf tables) b ≠ operand n (literalTablesOf tables) a ∧
      operand n (literalTablesOf tables) b ≠ (operand n (literalTablesOf tables) a).not) :
    False := by
  rcases (by omega : a = 0 ∨ a = 1) with rfl | rfl <;>
    rcases (by omega : b = 0 ∨ b = 1) with rfl | rfl
  · exact apart.1 rfl
  · exact apart.2 rfl
  · exact apart.2 (zeros_valid n).not_not.symm
  · exact apart.1 rfl

include small

/-- Two literals of one candidate are equal or complementary. -/
theorem ne_of_apart {i j : Nat} (li : i < tables.length) (lj : j < tables.length) (ci cj : Bool)
    (apart : operand n (literalTablesOf tables) (candidateLit j cj) ≠
        operand n (literalTablesOf tables) (candidateLit i ci) ∧
      operand n (literalTablesOf tables) (candidateLit j cj) ≠
        (operand n (literalTablesOf tables) (candidateLit i ci)).not) :
    i ≠ j := by
  rintro rfl
  have vi : Valid n (tables.getD i default) := by
    simpa [List.getD_eq_getElem?_getD, li] using vtables _ (List.getElem_mem li)
  rw [operand_candidateLit li small, operand_candidateLit li small] at apart
  cases ci <;> cases cj
  · exact apart.1 rfl
  · exact apart.2 rfl
  · exact apart.2 vi.not_not.symm
  · exact apart.1 rfl

include vt

omit vt in
/-- A gate of a constant and two candidates, the earlier candidate first: the relation of the
earlier candidate with the constant is completed by that of the later one. -/
theorem exists_completion_of_constant {i j q : Nat} (ij : i < j) (lj : j < tables.length)
    (constant : q < 2) (ci cj : Bool)
    (makes : Makes n (literalTablesOf tables) target (candidateLit i ci) q (candidateLit j cj)) :
    ∃ p q' later, Precedes (p, q') later (recorded n tables target) ∧
      (completion n (literalTablesOf tables) target p q' later).isSome := by
  have la := candidateLit_lt (by omega : i < tables.length) small ci
  have lb := candidateLit_lt lj small cj
  have lq : q < 2 * (tables.length + 1) := by omega
  have first := makes.related vtables la lq lb
  have second := ((makes.swap_left vtables la lq lb).swap_right vtables lq la lb).swap_left
    vtables lq lb la |>.related vtables lb lq la
  have tried : ∀ m c, (candidateLit m c, q) ∈ pairsOf tables.length m := by
    intro m c
    rcases (by omega : q = 0 ∨ q = 1) with rfl | rfl <;> cases c <;> simp [pairsOf]
  refine ⟨candidateLit i ci, q, (candidateLit j cj, q), ?_, ?_⟩
  · refine Precedes.filter _ ?_ (by simpa using first) (by simpa using second)
    rw [triedPairs, List.range_eq_range']
    exact (precedes_range' (Nat.zero_le i) ij (by omega)).flatMap (tried i ci) (tried j cj)
  · simp [completion, makes]

omit vt in
/-- A gate of three candidates in order: the relation of the first with the second is
completed by that of the first with the third. -/
theorem exists_completion_of_candidates {i j l : Nat} (ij : i < j) (jl : j < l)
    (ll : l < tables.length) (ci cj cl : Bool)
    (makes : Makes n (literalTablesOf tables) target (candidateLit i ci) (candidateLit j cj)
      (candidateLit l cl)) :
    ∃ p q later, Precedes (p, q) later (recorded n tables target) ∧
      (completion n (literalTablesOf tables) target p q later).isSome := by
  have la := candidateLit_lt (by omega : i < tables.length) small ci
  have lb := candidateLit_lt (by omega : j < tables.length) small cj
  have lc := candidateLit_lt ll small cl
  have first := makes.related vtables la lb lc
  have second := (makes.swap_right vtables la lb lc).related vtables la lc lb
  have signed : ∀ m c c', (candidateLit i c, candidateLit m c') ∈ signedPairs i m := by
    intro m c c'
    cases c <;> cases c' <;> simp [signedPairs, signs]
  refine ⟨candidateLit i ci, candidateLit j cj, (candidateLit i ci, candidateLit l cl), ?_, ?_⟩
  · refine Precedes.filter _ ?_ (by simpa using first) (by simpa using second)
    refine Precedes.flatMap_of_mem (i := i) (List.mem_range.mpr (by omega)) ?_
    exact ((precedes_range' (s := i + 1) (m := tables.length - (i + 1)) (by omega) jl
      (by omega)).flatMap (signed j ci cj)
      (signed l ci cl)).append_right
  · have notConstant : isConstantLit (candidateLit j cj) = false :=
      isConstantLit_eq_false.mpr (two_le_candidateLit (by omega : j + 1 < 2 ^ 31) cj)
    by_cases firstMakes :
        Makes n (literalTablesOf tables) target (candidateLit i ci) (candidateLit j cj)
          (candidateLit i ci)
    · simp [completion, firstMakes]
    · simp [completion, firstMakes, notConstant, makes]

omit vt in
/-- When no literal reads the target, every gate over the literals that makes it gives a
relation that the search completes with a later one. -/
theorem exists_completion (noLit : NoLiteralIs n tables target) {a b c : Nat}
    (la : a < 2 * (tables.length + 1)) (lb : b < 2 * (tables.length + 1))
    (lc : c < 2 * (tables.length + 1)) (makes : Makes n (literalTablesOf tables) target a b c) :
    ∃ p q later, Precedes (p, q) later (recorded n tables target) ∧
      (completion n (literalTablesOf tables) target p q later).isSome := by
  -- the gate in every order of its fan-ins, and every two fan-ins apart
  have makesBAC := makes.swap_left vtables la lb lc
  have makesACB := makes.swap_right vtables la lb lc
  have makesBCA := makesBAC.swap_right vtables lb la lc
  have makesCAB := makesACB.swap_left vtables la lc lb
  have makesCBA := makesBCA.swap_left vtables lb lc la
  have apartAB := makes.apart vtables noLit la lc
  have apartAC := makesACB.apart vtables noLit la lb
  have apartBC := makesBCA.apart vtables noLit lb la
  rcases lit_cases la small with ca | ⟨i, li, ci, rfl⟩ <;>
    rcases lit_cases lb small with cb | ⟨j, lj, cj, rfl⟩ <;>
    rcases lit_cases lc small with cc | ⟨l, ll, cl, rfl⟩
  · exact (not_apart_of_constants ca cb apartAB).elim
  · exact (not_apart_of_constants ca cb apartAB).elim
  · exact (not_apart_of_constants ca cc apartAC).elim
  · -- one constant, first
    rcases Nat.lt_or_gt_of_ne (ne_of_apart vtables small lj ll cj cl apartBC) with jl | lj'
    · exact exists_completion_of_constant vtables small jl ll ca cj cl makesBAC
    · exact exists_completion_of_constant vtables small lj' lj ca cl cj makesCAB
  · exact (not_apart_of_constants cb cc apartBC).elim
  · -- one constant, second
    rcases Nat.lt_or_gt_of_ne (ne_of_apart vtables small li ll ci cl apartAC) with il | li'
    · exact exists_completion_of_constant vtables small il ll cb ci cl makes
    · exact exists_completion_of_constant vtables small li' li cb cl ci makesCBA
  · -- one constant, last
    rcases Nat.lt_or_gt_of_ne (ne_of_apart vtables small li lj ci cj apartAB) with ij | ji
    · exact exists_completion_of_constant vtables small ij lj cc ci cj makesACB
    · exact exists_completion_of_constant vtables small ji li cc cj ci makesBCA
  · -- three candidates, in the order of their indices
    have ij := ne_of_apart vtables small li lj ci cj apartAB
    have il := ne_of_apart vtables small li ll ci cl apartAC
    have jl := ne_of_apart vtables small lj ll cj cl apartBC
    rcases Nat.lt_or_gt_of_ne ij with ij | ji <;> rcases Nat.lt_or_gt_of_ne il with il | li' <;>
      rcases Nat.lt_or_gt_of_ne jl with jl | lj'
    · exact exists_completion_of_candidates vtables small ij jl ll ci cj cl makes
    · exact exists_completion_of_candidates vtables small il lj' lj ci cl cj makesACB
    · omega
    · exact exists_completion_of_candidates vtables small li' ij lj cl ci cj makesCAB
    · exact exists_completion_of_candidates vtables small ji il ll cj ci cl makesBAC
    · omega
    · exact exists_completion_of_candidates vtables small jl li' li cj cl ci makesBCA
    · exact exists_completion_of_candidates vtables small lj' ji li cl cj ci makesCBA

omit vt vtables in
/-- The tried pairs hold a candidate literal, then a literal of the answer's space. -/
theorem inRange_of_mem_triedPairs {pair : Nat × Nat} (member : pair ∈ triedPairs tables.length) :
    InRange tables.length pair := by
  simp only [triedPairs, pairsOf, List.mem_flatMap, List.mem_range, List.mem_append,
    List.mem_range', signedPairs, List.mem_map] at member
  obtain ⟨i, li, ⟨j, ⟨m, lm, rfl⟩, ⟨ci, cj⟩, -, rfl⟩ | constants⟩ := member
  · exact ⟨two_le_candidateLit (by omega) ci, candidateLit_lt li small ci,
      candidateLit_lt (by omega) small cj⟩
  · have bounds : ∀ c, 2 ≤ candidateLit i c ∧ candidateLit i c < 2 * (tables.length + 1) :=
      fun c => ⟨two_le_candidateLit (by omega) c, candidateLit_lt li small c⟩
    simp only [List.mem_cons, List.not_mem_nil, or_false] at constants
    rcases constants with rfl | rfl | rfl | rfl <;>
      exact ⟨(bounds _).1, (bounds _).2, by omega⟩

omit vt vtables in
theorem inRange_of_mem_recorded {pair : Nat × Nat} (member : pair ∈ recorded n tables target) :
    InRange tables.length pair :=
  inRange_of_mem_triedPairs small (List.mem_filter.mp member).1

/-- The search over the recorded relations never fails: it finds the first completion. -/
theorem oneGate_recorded_eq :
    oneGate target (literalTablesOf tables) (recorded n tables target) =
      .ok ((recorded n tables target).tails.findSome?
        (firstCompletion n (literalTablesOf tables) target)) :=
  oneGate_eq vt (valid_literalTablesOf vtables) (size_literalTablesOf tables)
    fun _ member => inRange_of_mem_recorded small member

/-- The search over the recorded relations never fails, and what it finds is a gate over the
literals of the answer's space that makes the target. -/
theorem oneGate_recorded :
    ∃ found, oneGate target (literalTablesOf tables) (recorded n tables target) = .ok found ∧
      ∀ a b c, found = some (a, b, c) →
        a < 2 * (tables.length + 1) ∧ b < 2 * (tables.length + 1) ∧
          c < 2 * (tables.length + 1) ∧ Makes n (literalTablesOf tables) target a b c := by
  refine ⟨_, oneGate_recorded_eq vt vtables small, ?_⟩
  intro a b c found
  obtain ⟨p, q, later, c', relation, laterMember, side, same, makes⟩ :=
    firstCompletion_sound found
  cases same
  obtain ⟨-, lp, lq⟩ := inRange_of_mem_recorded small relation
  obtain ⟨-, lr, ls⟩ := inRange_of_mem_recorded small laterMember
  refine ⟨lp, lq, ?_, makes⟩
  rcases side with rfl | rfl
  · exact lr
  · exact ls

/-- When no literal reads the target and some gate over the literals makes it, the search over
the recorded relations finds a gate. -/
theorem oneGate_recorded_isSome (noLit : NoLiteralIs n tables target) {a b c : Nat}
    (la : a < 2 * (tables.length + 1)) (lb : b < 2 * (tables.length + 1))
    (lc : c < 2 * (tables.length + 1)) (makes : Makes n (literalTablesOf tables) target a b c) :
    ∃ g, oneGate target (literalTablesOf tables) (recorded n tables target) = .ok (some g) := by
  obtain ⟨p, q, later, precedes, completes⟩ :=
    exists_completion vtables small noLit la lb lc makes
  obtain ⟨rest, suffix, inRest⟩ := precedes.suffix
  obtain ⟨g, found⟩ := Option.isSome_iff_exists.mp
    (firstCompletion_isSome suffix later inRest completes)
  refine ⟨g, ?_⟩
  rw [oneGate_recorded_eq vt vtables small, found]

end Exact

end Resynthesis

end MajorityGraph
