import MajorityGraph.Proofs.Resynthesis.Engine

/-!
When the resynthesis engine answers: exactly for the circuits of at most one gate, and with no
gate whenever none is needed (`resynthesize_exact`).
-/

namespace MajorityGraph

namespace Resynthesis

open TruthTable

/-- The target is one of the two constants over its variables. -/
def IsConstantTarget (n : Nat) (target : TruthTable) : Prop :=
  target = zeros n ∨ target = (zeros n).not

/-- Some candidate table is the target or its complement. -/
def HasDirect (tables : List TruthTable) (target : TruthTable) : Prop :=
  ∃ t ∈ tables, t = target ∨ t = target.not

/-- Some majority of three constants, candidate tables or their complements is the target. -/
def HasOneGate (n : Nat) (tables : List TruthTable) (target : TruthTable) : Prop :=
  ∃ x y z, IsOperand n tables x ∧ IsOperand n tables y ∧ IsOperand n tables z ∧
    maj x y z = .ok target

/-- The answer of the engine when no step fails: a constant literal, then a candidate or its
complement, then the first gate that the search over the recorded relations finds. -/
def answerOf (n : Nat) (target : TruthTable) (candidates : Array Nat) (tts : Array TruthTable)
    (maxSize : Nat) : Option IndexList :=
  if target.isConst0 then some ⟨candidates.size, #[], #[0]⟩
  else if target.isConst1 then some ⟨candidates.size, #[], #[1]⟩
  else match (List.range candidates.size).findSome?
      (directMatch target (candidateTables candidates tts)) with
    | some (i, c) => some ⟨candidates.size, #[], #[candidateLit i c]⟩
    | none =>
      if maxSize = 0 then none
      else ((recorded n (candidateTables candidates tts) target).tails.findSome?
          (firstCompletion n (literalTablesOf (candidateTables candidates tts)) target)).map
        fun g => ⟨candidates.size, #[⟨g.1, g.2.1, g.2.2⟩], #[2 * (1 + candidates.size)]⟩

-----------------------------------------------------------------------------------------
-- The engine does not fail
-----------------------------------------------------------------------------------------

section Builders

variable {k : Nat}

theorem new_of_room (room : 1 + k ≤ IndexList.maxEntries) :
    IndexList.new k = .ok ⟨k, #[], #[]⟩ :=
  if_pos room

theorem addOutput_empty {lit : Nat} (defined : Literal.index lit < 1 + k) :
    (⟨k, #[], #[]⟩ : IndexList).addOutput lit = .ok ⟨k, #[], #[lit]⟩ := by
  unfold IndexList.addOutput
  rw [if_pos (by simpa [IndexList.numEntries] using defined)]
  rfl

/-- After one gate, the output may read it. -/
theorem addOutput_gate (g : LitGate) :
    (⟨k, #[g], #[]⟩ : IndexList).addOutput (2 * (1 + k)) =
      .ok ⟨k, #[g], #[2 * (1 + k)]⟩ := by
  unfold IndexList.addOutput
  rw [if_pos (by simp [IndexList.numEntries, Literal.index])]
  rfl

theorem addMaj_of_defined {a b c : Nat} (defined : ∀ x ∈ [a, b, c], Literal.index x < 1 + k)
    (room : 1 + k < IndexList.maxEntries) :
    (⟨k, #[], #[]⟩ : IndexList).addMaj a b c =
      .ok (2 * (1 + k), ⟨k, #[⟨a, b, c⟩], #[]⟩) := by
  refine (IndexList.addMaj_eq_ok_iff _ a b c _ _).mpr
    ⟨by simpa [IndexList.numEntries] using defined, by simpa [IndexList.numEntries] using room,
      ?_, rfl⟩
  rw [IndexList.gateLiteral, Literal.make_eq (by simpa [IndexList.maxEntries] using room)]
  rfl

theorem index_lt_of_lt {lit : Nat} (lt : lit < 2 * (k + 1)) : Literal.index lit < 1 + k := by
  rw [Literal.index]
  omega

end Builders

section Engine

variable {n : Nat} {target : TruthTable} {candidates : Array Nat} {tts : Array TruthTable}
  {maxSize : Nat}

/-- Every fan-in of the gate the search finds names an entry before the gate: the constant or
a candidate. -/
theorem defined_of_search (meant : Meant n target candidates tts)
    (small : candidates.size < 2 ^ 31) {a b c : Nat}
    (found : (recorded n (candidateTables candidates tts) target).tails.findSome?
      (firstCompletion n (literalTablesOf (candidateTables candidates tts)) target) =
        some (a, b, c)) :
    ∀ x ∈ [a, b, c], Literal.index x < 1 + candidates.size := by
  have small' : (candidateTables candidates tts).length < 2 ^ 31 := by simpa using small
  obtain ⟨_, run, sound⟩ := oneGate_recorded meant.valid_target meant.valid_tables small'
  rw [oneGate_recorded_eq meant.valid_target meant.valid_tables small', found] at run
  obtain ⟨la, lb, lc, -⟩ := sound a b c (Except.ok.inj run).symm
  simp only [length_candidateTables] at la lb lc
  intro x member
  simp only [List.mem_cons, List.not_mem_nil, or_false] at member
  rcases member with rfl | rfl | rfl <;> exact index_lt_of_lt ‹_›

/-- Over candidate tables as the library builds them, with room for one gate, the engine
does not fail, and answers with `answerOf`. -/
theorem answer_eq_answerOf (meant : Meant n target candidates tts)
    (room : 1 + candidates.size < IndexList.maxEntries) :
    answer target candidates tts maxSize = .ok (answerOf n target candidates tts maxSize) := by
  have small : candidates.size < 2 ^ 31 := by
    simp only [IndexList.maxEntries] at room
    omega
  have small' : (candidateTables candidates tts).length < 2 ^ 31 := by simpa using small
  unfold answer answerOf
  rw [new_of_room room.le, except_ok_bind]
  by_cases zero : target.isConst0 = true
  · rw [if_pos zero, if_pos zero, addOutput_empty (by rw [Literal.index]; omega)]
    rfl
  rw [if_neg zero, if_neg zero]
  by_cases one : target.isConst1 = true
  · rw [if_pos one, if_pos one, addOutput_empty (by rw [Literal.index]; omega)]
    rfl
  rw [if_neg one, if_neg one, findDirect_eq meant.inRange fun i member => List.mem_range.mp member,
    except_ok_bind]
  rcases direct : (List.range candidates.size).findSome?
      (directMatch target (candidateTables candidates tts)) with _ | ⟨i, c⟩
  · by_cases empty : maxSize = 0
    · simp only [if_pos empty]
      rfl
    simp only [if_neg empty]
    have search := oneGate_recorded_eq meant.valid_target meant.valid_tables small'
    rw [literalTables_candidates meant, except_ok_bind, relations_candidates meant small,
      except_ok_bind, List.toList_toArray, search, except_ok_bind]
    rcases found : (recorded n (candidateTables candidates tts) target).tails.findSome?
        (firstCompletion n (literalTablesOf (candidateTables candidates tts)) target) with
      _ | ⟨a, b, c⟩
    · rfl
    dsimp only
    rw [addMaj_of_defined (defined_of_search meant small found) room, except_ok_bind]
    dsimp only
    rw [addOutput_gate]
    rfl
  · obtain ⟨j, member, matched⟩ := List.exists_of_findSome?_eq_some direct
    obtain ⟨rfl, -⟩ := directMatch_eq_some meant.valid_target matched
    have lj : j < candidates.size := List.mem_range.mp member
    dsimp only
    rw [addOutput_empty (index_lt_of_lt (candidateLit_lt lj small c))]
    rfl

end Engine

-----------------------------------------------------------------------------------------
-- When the engine answers, and with how many gates
-----------------------------------------------------------------------------------------

section Conditions

variable {n : Nat} {tables : List TruthTable} {target : TruthTable}

theorem isConstantTarget_iff (vt : Valid n target) :
    IsConstantTarget n target ↔ target.isConst0 = true ∨ target.isConst1 = true := by
  rw [isConst0_iff vt, isConst1_iff vt, IsConstantTarget]

theorem directMatch_isSome_iff {j : Nat} :
    (directMatch target tables j).isSome ↔
      tables.getD j default = target ∨ tables.getD j default = target.not := by
  unfold directMatch
  by_cases same : tables.getD j default = target
  · rw [if_pos same]
    exact iff_of_true rfl (.inl same)
  by_cases opposite : tables.getD j default = target.not
  · rw [if_neg same, if_pos opposite]
    exact iff_of_true rfl (.inr opposite)
  · rw [if_neg same, if_neg opposite]
    exact iff_of_false Bool.false_ne_true (by rintro (h | h) <;> contradiction)

/-- The walk over the candidates finds a match exactly when a candidate table is the target or
its complement. -/
theorem findSome_directMatch_isSome_iff {k : Nat} (length : tables.length = k) :
    ((List.range k).findSome? (directMatch target tables)).isSome ↔ HasDirect tables target := by
  subst length
  rw [List.findSome?_isSome_iff]
  constructor
  · rintro ⟨j, member, matched⟩
    have lj := List.mem_range.mp member
    have entry : tables.getD j default = tables[j] := by
      simp [List.getD_eq_getElem?_getD, lj]
    rw [directMatch_isSome_iff, entry] at matched
    exact ⟨tables[j], List.getElem_mem lj, matched⟩
  · rintro ⟨t, member, same⟩
    obtain ⟨j, lj, rfl⟩ := List.getElem_of_mem member
    have entry : tables.getD j default = tables[j] := by
      simp [List.getD_eq_getElem?_getD, lj]
    exact ⟨j, List.mem_range.mpr lj, by rw [directMatch_isSome_iff, entry]; exact same⟩

variable (vtables : ∀ t ∈ tables, Valid n t) (small : tables.length < 2 ^ 31)
include vtables small

/-- A target that is no constant, no candidate table and no complement of one is read by no
single literal. -/
theorem noLiteralIs_of (noConstant : ¬IsConstantTarget n target)
    (noDirect : ¬HasDirect tables target) : NoLiteralIs n tables target := by
  intro lit lt same
  rcases lit_cases lt small with constant | ⟨i, li, c, rfl⟩
  · rcases (by omega : lit = 0 ∨ lit = 1) with rfl | rfl
    · exact noConstant (.inl same.symm)
    · exact noConstant (.inr same.symm)
  have member : tables.getD i default ∈ tables := by
    simp [List.getD_eq_getElem?_getD, li, List.getElem_mem]
  rw [operand_candidateLit li small] at same
  cases c with
  | false =>
    rw [if_neg Bool.false_ne_true] at same
    exact noDirect ⟨_, member, .inl same⟩
  | true =>
    rw [if_pos rfl] at same
    have opposite : tables.getD i default = target.not := by
      rw [← same, (vtables _ member).not_not]
    exact noDirect ⟨_, member, .inr opposite⟩

/-- Past the constants and the candidates, the search over the recorded relations finds a gate
exactly when a majority of three constants, candidate tables or their complements is the
target. -/
theorem search_isSome_iff (vt : Valid n target) (noConstant : ¬IsConstantTarget n target)
    (noDirect : ¬HasDirect tables target) :
    ((recorded n tables target).tails.findSome?
        (firstCompletion n (literalTablesOf tables) target)).isSome ↔
      HasOneGate n tables target := by
  have search := oneGate_recorded_eq vt vtables small
  constructor
  · intro found
    obtain ⟨⟨a, b, c⟩, first⟩ := Option.isSome_iff_exists.mp found
    obtain ⟨_, run, sound⟩ := oneGate_recorded vt vtables small
    rw [search, first] at run
    obtain ⟨la, lb, lc, makes⟩ := sound a b c (Except.ok.inj run).symm
    exact ⟨_, _, _, operand_isOperand la small, operand_isOperand lb small,
      operand_isOperand lc small, makes⟩
  · rintro ⟨x, y, z, ox, oy, oz, makes⟩
    obtain ⟨a, la, rfl⟩ := exists_lit_of_isOperand ox small
    obtain ⟨b, lb, rfl⟩ := exists_lit_of_isOperand oy small
    obtain ⟨c, lc, rfl⟩ := exists_lit_of_isOperand oz small
    obtain ⟨g, run⟩ := oneGate_recorded_isSome vt vtables small
      (noLiteralIs_of vtables small noConstant noDirect) la lb lc makes
    rw [search] at run
    rw [Except.ok.inj run]
    rfl

end Conditions

section Exact

variable {n : Nat} {target : TruthTable} {candidates : Array Nat} {tts : Array TruthTable}
  {maxSize : Nat}

/-- The three outcomes of the answer without faults: a list of no gate when the target is a
constant, a candidate table or its complement; else a list of one gate when a gate is allowed
and a majority of three operands is the target; else none. -/
theorem answerOf_cases (meant : Meant n target candidates tts) (small : candidates.size < 2 ^ 31) :
    ((IsConstantTarget n target ∨ HasDirect (candidateTables candidates tts) target) ∧
        ∃ lit, answerOf n target candidates tts maxSize =
          some ⟨candidates.size, #[], #[lit]⟩) ∨
      (¬(IsConstantTarget n target ∨ HasDirect (candidateTables candidates tts) target) ∧
        1 ≤ maxSize ∧ HasOneGate n (candidateTables candidates tts) target ∧
        ∃ g, answerOf n target candidates tts maxSize =
          some ⟨candidates.size, #[g], #[2 * (1 + candidates.size)]⟩) ∨
      (¬(IsConstantTarget n target ∨ HasDirect (candidateTables candidates tts) target) ∧
        ¬(1 ≤ maxSize ∧ HasOneGate n (candidateTables candidates tts) target) ∧
        answerOf n target candidates tts maxSize = none) := by
  have small' : (candidateTables candidates tts).length < 2 ^ 31 := by simpa using small
  have constant := isConstantTarget_iff meant.valid_target
  unfold answerOf
  by_cases zero : target.isConst0 = true
  · rw [if_pos zero]
    exact .inl ⟨.inl (constant.mpr (.inl zero)), 0, rfl⟩
  rw [if_neg zero]
  by_cases one : target.isConst1 = true
  · rw [if_pos one]
    exact .inl ⟨.inl (constant.mpr (.inr one)), 1, rfl⟩
  rw [if_neg one]
  have noConstant : ¬IsConstantTarget n target := by
    rw [constant]
    rintro (h | h) <;> contradiction
  have direct : ((List.range candidates.size).findSome?
      (directMatch target (candidateTables candidates tts))).isSome ↔
        HasDirect (candidateTables candidates tts) target :=
    findSome_directMatch_isSome_iff length_candidateTables
  rcases found : (List.range candidates.size).findSome?
      (directMatch target (candidateTables candidates tts)) with _ | ⟨i, c⟩
  · have noDirect : ¬HasDirect (candidateTables candidates tts) target := by
      rw [← direct, found]
      exact Bool.false_ne_true
    have noZeroGate : ¬(IsConstantTarget n target ∨
        HasDirect (candidateTables candidates tts) target) := by
      rintro (isConstant | hasDirect)
      exacts [noConstant isConstant, noDirect hasDirect]
    dsimp only
    by_cases empty : maxSize = 0
    · rw [if_pos empty]
      exact .inr (.inr ⟨noZeroGate, fun ⟨sized, _⟩ => by omega, rfl⟩)
    rw [if_neg empty]
    -- the search decides whether one gate is enough
    have search :=
      search_isSome_iff meant.valid_tables small' meant.valid_target noConstant noDirect
    rcases gate : (recorded n (candidateTables candidates tts) target).tails.findSome?
        (firstCompletion n (literalTablesOf (candidateTables candidates tts)) target) with _ | g
    · have noGate : ¬HasOneGate n (candidateTables candidates tts) target := by
        rw [← search, gate]
        exact Bool.false_ne_true
      exact .inr (.inr ⟨noZeroGate, fun ⟨_, hasGate⟩ => noGate hasGate, rfl⟩)
    · have hasGate : HasOneGate n (candidateTables candidates tts) target := by
        rw [← search, gate]
        rfl
      exact .inr (.inl ⟨noZeroGate, by omega, hasGate, _, rfl⟩)
  · have hasDirect : HasDirect (candidateTables candidates tts) target := by
      rw [← direct, found]
      rfl
    exact .inl ⟨.inr hasDirect, _, rfl⟩

/-- The answer without faults exists exactly when the target is a constant, a candidate table
or its complement, or, when a gate is allowed, a majority of three of these and their
complements; and it has no gate exactly when one of the first two holds. -/
theorem answerOf_exact (meant : Meant n target candidates tts) (small : candidates.size < 2 ^ 31) :
    ((answerOf n target candidates tts maxSize).isSome ↔
        IsConstantTarget n target ∨ HasDirect (candidateTables candidates tts) target ∨
          (1 ≤ maxSize ∧ HasOneGate n (candidateTables candidates tts) target)) ∧
      ∀ l, answerOf n target candidates tts maxSize = some l →
        (l.numGates = 0 ↔
          IsConstantTarget n target ∨ HasDirect (candidateTables candidates tts) target) := by
  rcases answerOf_cases meant small with ⟨zeroGate, lit, answered⟩ |
    ⟨noZeroGate, sized, hasGate, g, answered⟩ | ⟨noZeroGate, noGate, answered⟩ <;>
    rw [answered]
  · refine ⟨iff_of_true rfl (or_assoc.mp (.inl zeroGate)), ?_⟩
    rintro l ⟨⟩
    exact iff_of_true rfl zeroGate
  · refine ⟨iff_of_true rfl (.inr (.inr ⟨sized, hasGate⟩)), ?_⟩
    rintro l ⟨⟩
    exact iff_of_false (by simp [IndexList.numGates]) noZeroGate
  · refine ⟨iff_of_false Bool.false_ne_true ?_, by rintro l ⟨⟩⟩
    rw [← or_assoc]
    rintro (zeroGate | oneGate)
    exacts [noZeroGate zeroGate, noGate oneGate]

/-- Over candidate tables as the library builds them, with room for one gate (the constant,
the candidates and a gate each take an index of the list, and without that room the engine stops
with a fault: `resynthesize_faults_without_room`), the engine returns from any counters and
journal. It answers exactly when the target is a constant, a
candidate table or its complement, or, when a gate is allowed, a majority of three of these and
their complements; and its answer has no gate exactly when one of the first two holds. -/
theorem resynthesize_exact {care : TruthTable} (meant : Meant n target candidates tts)
    (careOk : care.isConst1 = true) (room : 1 + candidates.size < IndexList.maxEntries)
    (stats : ResynStats) (journal : Journal) :
    ∃ r stats' journal',
      ((resynthesize target care candidates tts maxSize).run stats).runFrom journal =
          (.ok (r, stats'), journal') ∧
        (r.isSome ↔
          IsConstantTarget n target ∨ HasDirect (candidateTables candidates tts) target ∨
            (1 ≤ maxSize ∧ HasOneGate n (candidateTables candidates tts) target)) ∧
        ∀ l, r = some l → (l.numGates = 0 ↔
          IsConstantTarget n target ∨ HasDirect (candidateTables candidates tts) target) := by
  have small : candidates.size < 2 ^ 31 := by
    simp only [IndexList.maxEntries] at room
    omega
  obtain ⟨stats', journal', run⟩ :=
    run_of_answer careOk (answer_eq_answerOf meant room) stats journal
  exact ⟨_, stats', journal', run, answerOf_exact meant small⟩

/-- The conjunction of two variables is no constant, no variable and no complement of one, and
it is a single majority of the variables and the constants. -/
theorem conjunction_is_one_gate :
    ¬(IsConstantTarget 2 ⟨2, #[8]⟩ ∨
        HasDirect (candidateTables #[0, 1] #[⟨2, #[0xA]⟩, ⟨2, #[0xC]⟩]) ⟨2, #[8]⟩) ∧
      HasOneGate 2 (candidateTables #[0, 1] #[⟨2, #[0xA]⟩, ⟨2, #[0xC]⟩]) ⟨2, #[8]⟩ := by
  have careOk : (⟨2, #[0xF]⟩ : TruthTable).isConst1 = true := by decide +kernel
  have answered : answer ⟨2, #[8]⟩ #[0, 1] #[⟨2, #[0xA]⟩, ⟨2, #[0xC]⟩] 1 =
      .ok (some ⟨2, #[⟨2, 4, 0⟩], #[6]⟩) := by decide +kernel
  obtain ⟨stats, journal, known⟩ := run_of_answer careOk answered {} (Journal.start none)
  obtain ⟨r, stats', journal', run, answers, gates⟩ :=
    @resynthesize_exact 2 _ _ _ 1 _ meant_conjunction careOk (by decide) {} (Journal.start none)
  rw [known] at run
  cases run
  have noZeroGate : ¬(IsConstantTarget 2 ⟨2, #[8]⟩ ∨
      HasDirect (candidateTables #[0, 1] #[⟨2, #[0xA]⟩, ⟨2, #[0xC]⟩]) ⟨2, #[8]⟩) :=
    fun holds => absurd ((gates _ rfl).mpr holds) (by decide)
  refine ⟨noZeroGate, ?_⟩
  rcases answers.mp rfl with holds | holds | ⟨-, hasGate⟩
  · exact absurd (.inl holds) noZeroGate
  · exact absurd (.inr holds) noZeroGate
  · exact hasGate

/-- The room that `resynthesize_exact` asks for is needed: with more candidates than an index
list numbers after its constant, every run stops with the fault of unaddressable inputs before
the target is read. -/
theorem resynthesize_faults_without_room {care : TruthTable} (careOk : care.isConst1 = true)
    (full : IndexList.maxEntries < 1 + candidates.size) (stats : ResynStats) (journal : Journal) :
    ∃ journal', ((resynthesize target care candidates tts maxSize).run stats).runFrom journal =
      (.error (.inputsUnaddressable candidates.size), journal') := by
  have refused : answer target candidates tts maxSize =
      .error (.inputsUnaddressable candidates.size) := by
    simp only [answer, IndexList.new, if_neg (Nat.not_le.mpr full)]
    rfl
  have agrees := resynthesize_agrees target care candidates tts maxSize stats journal
  rw [if_pos careOk, refused] at agrees
  rcases run : ((resynthesize target care candidates tts maxSize).run stats).runFrom journal with
    ⟨_ | ⟨r, stats'⟩, journal'⟩
  · rw [run] at agrees
    cases agrees
    exact ⟨journal', rfl⟩
  · rw [run] at agrees
    cases agrees

end Exact

end Resynthesis

end MajorityGraph
