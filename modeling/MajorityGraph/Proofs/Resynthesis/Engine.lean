import MajorityGraph.Proofs.Resynthesis.Exactness
import MajorityGraph.Proofs.IndexList.Replay

/-!
What the resynthesis engine returns: a well-formed one-output list over the candidates that
computes the target (`resynthesize_correct`).
-/

namespace MajorityGraph

namespace Logged

variable {α β : Type}

theorem runFrom_bind (x : Logged α) (f : α → Logged β) (j : Journal) :
    (x >>= f).runFrom j = match x.runFrom j with
      | (.ok a, j') => (f a).runFrom j'
      | (.error e, j') => (.error e, j') := by
  simp only [runFrom, ExceptT.run_bind, StateT.run_bind]
  rcases x.run.run j with ⟨_ | a, j'⟩ <;> rfl

end Logged

namespace Resynthesis

open TruthTable

-----------------------------------------------------------------------------------------
-- The answer, apart from the counters and the log
-----------------------------------------------------------------------------------------

section Agreement

variable {α β : Type}

/-- From any counters and journal, a run of `x` ends as `e` does, up to the counters. -/
def Agrees (x : StateT ResynStats Logged α) (e : Except Fault α) : Prop :=
  ∀ s j, (((x.run s).runFrom j).1.map Prod.fst) = e

theorem agrees_pure (a : α) : Agrees (pure a) (.ok a) := fun _ _ => rfl

theorem agrees_orFail (e : Except Fault α) : Agrees (orFail e) e := by
  intro s j
  cases e <;> rfl

theorem agrees_modify (f : ResynStats → ResynStats) : Agrees (modify f) (.ok ()) :=
  fun _ _ => rfl

theorem agrees_log (l : Level) (msg : String) :
    Agrees (StateT.lift (logAt l msg) : StateT ResynStats Logged Unit) (.ok ()) :=
  fun _ _ => rfl

theorem Agrees.bind {x : StateT ResynStats Logged α} {f : α → StateT ResynStats Logged β}
    {e : Except Fault α} {g : α → Except Fault β} (first : Agrees x e)
    (rest : ∀ a, e = .ok a → Agrees (f a) (g a)) : Agrees (x >>= f) (e >>= g) := by
  intro s j
  have run := first s j
  rw [StateT.run_bind, Logged.runFrom_bind]
  rcases h : (x.run s).runFrom j with ⟨_ | ⟨a, s'⟩, j'⟩
  · rw [h] at run
    cases run
    rfl
  · rw [h] at run
    cases run
    exact rest a rfl s' j'

/-- A step that returns `a` whatever it keeps, then the rest. -/
theorem Agrees.then {x : StateT ResynStats Logged α} {f : α → StateT ResynStats Logged β}
    {a : α} {e : Except Fault β} (first : Agrees x (.ok a)) (rest : Agrees (f a) e) :
    Agrees (x >>= f) e :=
  first.bind (g := fun _ => e) fun _ ok => by cases ok; exact rest

end Agreement

/-- The answer of the engine, without its counters and its log. -/
def answer (target : TruthTable) (candidates : Array Nat) (tts : Array TruthTable)
    (maxSize : Nat) : Except Fault (Option IndexList) := do
  let list ← IndexList.new candidates.size
  if target.isConst0 then return some (← list.addOutput 0)
  if target.isConst1 then return some (← list.addOutput 1)
  match ← findDirect target target.not candidates tts (List.range candidates.size) with
  | some (i, c) => return some (← list.addOutput (candidateLit i c))
  | none =>
    if maxSize = 0 then return none
    let lits ← literalTables candidates tts
    let rels ← relations target lits candidates.size
    match ← oneGate target lits rels.toList with
    | some (a, b, c) =>
      let (f, list) ← list.addMaj a b c
      return some (← list.addOutput f)
    | none => return none

/-- The counters and the log leave the answer alone: a run of the engine ends as `answer`
does, or with the fault of a care set that is not the whole space. -/
theorem resynthesize_agrees (target care : TruthTable) (candidates : Array Nat)
    (tts : Array TruthTable) (maxSize : Nat) :
    Agrees (resynthesize target care candidates tts maxSize)
      (if care.isConst1 then answer target candidates tts maxSize else .error .dontCares) := by
  unfold resynthesize
  by_cases careOk : care.isConst1 = true
  · rw [if_neg (by simp [careOk]), if_pos careOk]
    refine Agrees.then (agrees_modify _) ?_
    refine Agrees.bind (agrees_orFail _) fun list _ => ?_
    by_cases zero : target.isConst0 = true
    · rw [if_pos zero, if_pos zero]
      refine Agrees.then (agrees_log _ _) (Agrees.then (agrees_modify _) ?_)
      exact Agrees.bind (agrees_orFail _) fun l _ => agrees_pure _
    rw [if_neg zero, if_neg zero]
    by_cases one : target.isConst1 = true
    · rw [if_pos one, if_pos one]
      refine Agrees.then (agrees_log _ _) (Agrees.then (agrees_modify _) ?_)
      exact Agrees.bind (agrees_orFail _) fun l _ => agrees_pure _
    rw [if_neg one, if_neg one]
    refine Agrees.bind (agrees_orFail _) fun found _ => ?_
    rcases found with _ | ⟨i, _ | _⟩
    · by_cases empty : maxSize = 0
      · rw [if_pos (by simp [empty]), if_pos empty]
        exact Agrees.then (agrees_modify _) (agrees_pure _)
      rw [if_neg (by simp [empty]), if_neg empty]
      refine Agrees.bind (agrees_orFail _) fun lits _ => ?_
      refine Agrees.bind (agrees_orFail _) fun rels _ => ?_
      refine Agrees.then (agrees_modify _) (Agrees.then (agrees_log _ _) ?_)
      refine Agrees.bind (agrees_orFail _) fun gate _ => ?_
      rcases gate with _ | ⟨a, b, c⟩
      · exact Agrees.then (agrees_modify _) (agrees_pure _)
      refine Agrees.then (agrees_log _ _) (Agrees.then (agrees_modify _) ?_)
      refine Agrees.bind (agrees_orFail _) fun ⟨f, l⟩ _ => ?_
      exact Agrees.bind (agrees_orFail _) fun l _ => agrees_pure _
    all_goals
      refine Agrees.then (agrees_log _ _) (Agrees.then (agrees_modify _) ?_)
      exact Agrees.bind (agrees_orFail _) fun l _ => agrees_pure _
  · rw [if_pos (by simp [careOk]), if_neg careOk]
    exact Agrees.bind (g := fun _ => .error .dontCares) (agrees_orFail _) fun _ h => by cases h

section Runs

variable {target care : TruthTable} {candidates : Array Nat} {tts : Array TruthTable}
  {maxSize : Nat}

/-- With a care set of the whole space, every run returns the answer when there is one. -/
theorem run_of_answer {r : Option IndexList} (careOk : care.isConst1 = true)
    (answered : answer target candidates tts maxSize = .ok r) (stats : ResynStats)
    (journal : Journal) :
    ∃ stats' journal', ((resynthesize target care candidates tts maxSize).run stats).runFrom
      journal = (.ok (r, stats'), journal') := by
  have agrees := resynthesize_agrees target care candidates tts maxSize stats journal
  rw [if_pos careOk, answered] at agrees
  rcases h : ((resynthesize target care candidates tts maxSize).run stats).runFrom journal with
    ⟨_ | ⟨r', s'⟩, j'⟩
  · rw [h] at agrees
    cases agrees
  · rw [h] at agrees
    cases agrees
    exact ⟨s', j', rfl⟩

end Runs

-----------------------------------------------------------------------------------------
-- The candidate matching the target
-----------------------------------------------------------------------------------------

/-- The candidate tables, in the order of the candidates. -/
def candidateTables (candidates : Array Nat) (tts : Array TruthTable) : List TruthTable :=
  candidates.toList.map fun c => tts.getD c default

/-- Candidate `i` when its table is the target, or its complement when that is. -/
def directMatch (target : TruthTable) (tables : List TruthTable) (i : Nat) :
    Option (Nat × Bool) :=
  if tables.getD i default = target then some (i, false)
  else if tables.getD i default = target.not then some (i, true)
  else none

section Direct

variable {target : TruthTable} {candidates : Array Nat} {tts : Array TruthTable}

@[simp] theorem length_candidateTables :
    (candidateTables candidates tts).length = candidates.size := by
  simp [candidateTables]

theorem getD_candidateTables {i : Nat} (lt : i < candidates.size) :
    (candidateTables candidates tts).getD i default = tts.getD candidates[i] default := by
  simp [candidateTables, List.getD_eq_getElem?_getD, lt]

/-- The search for a candidate that is the target, or its complement, over indices into the
tables. -/
theorem findDirect_eq (inRange : ∀ c ∈ candidates, c < tts.size) {positions : List Nat}
    (within : ∀ i ∈ positions, i < candidates.size) :
    findDirect target target.not candidates tts positions =
      .ok (positions.findSome? (directMatch target (candidateTables candidates tts))) := by
  induction positions with
  | nil => rfl
  | cons i rest ih =>
    have li := within i List.mem_cons_self
    have lc : candidates[i] < tts.size := inRange _ (Array.getElem_mem li)
    have entry : tts[candidates.getD i 0]? = some (tts.getD candidates[i] default) := by
      simp [Array.getD_eq_getD_getElem?, li, lc]
    rw [findDirect, entry, List.findSome?_cons, directMatch, getD_candidateTables li]
    simp only [pure, Except.pure, bind, Except.bind, beq_iff_eq]
    by_cases first : tts.getD candidates[i] default = target
    · simp only [if_pos first]
    by_cases second : tts.getD candidates[i] default = target.not
    · simp only [if_neg first, if_pos second]
    · simp only [if_neg first, if_neg second]
      exact ih fun j member => within j (List.mem_cons_of_mem i member)

/-- A match is the candidate it was tried at, and that candidate, complemented as the match
says, is the target. -/
theorem directMatch_eq_some {n : Nat} {tables : List TruthTable} {j i : Nat} {c : Bool}
    (vt : Valid n target) (matched : directMatch target tables j = some (i, c)) :
    j = i ∧ (if c then (tables.getD i default).not else tables.getD i default) = target := by
  unfold directMatch at matched
  by_cases same : tables.getD j default = target
  · rw [if_pos same] at matched
    cases matched
    exact ⟨rfl, same⟩
  by_cases opposite : tables.getD j default = target.not
  · rw [if_neg same, if_pos opposite] at matched
    cases matched
    rw [if_pos rfl, opposite, vt.not_not]
    exact ⟨rfl, rfl⟩
  · rw [if_neg same, if_neg opposite] at matched
    cases matched

end Direct

-----------------------------------------------------------------------------------------
-- The circuits of the answers
-----------------------------------------------------------------------------------------

section Builders

variable {k : Nat} {l : IndexList}

theorem new_eq_ok {list : IndexList} (made : IndexList.new k = .ok list) :
    list = ⟨k, #[], #[]⟩ ∧ 1 + k ≤ IndexList.maxEntries := by
  unfold IndexList.new at made
  split at made
  next fits =>
    cases made
    exact ⟨rfl, fits⟩
  next => cases made

end Builders

/-- The circuits the engine answers with, with what each branch found: a constant target read
by its constant literal, a candidate or its complement that is the target, or one gate found by
the search, read by the output. -/
inductive Answered (target : TruthTable) (candidates : Array Nat) (tts : Array TruthTable)
    (maxSize : Nat) : IndexList → Prop
  | constant0 (zero : target.isConst0 = true)
      (entries : 1 + candidates.size ≤ IndexList.maxEntries) :
      Answered target candidates tts maxSize ⟨candidates.size, #[], #[0]⟩
  | constant1 (one : target.isConst1 = true)
      (entries : 1 + candidates.size ≤ IndexList.maxEntries) :
      Answered target candidates tts maxSize ⟨candidates.size, #[], #[1]⟩
  | direct (i : Nat) (c : Bool) (entries : 1 + candidates.size ≤ IndexList.maxEntries)
      (defined : Literal.index (candidateLit i c) < 1 + candidates.size)
      (found : findDirect target target.not candidates tts (List.range candidates.size) =
        .ok (some (i, c))) :
      Answered target candidates tts maxSize ⟨candidates.size, #[], #[candidateLit i c]⟩
  | gate (lits : Array TruthTable) (rels : Array (Nat × Nat)) (a b c : Nat) (sized : maxSize ≠ 0)
      (entries : 1 + candidates.size < IndexList.maxEntries)
      (defined : ∀ x ∈ [a, b, c], Literal.index x < 1 + candidates.size)
      (tables : literalTables candidates tts = .ok lits)
      (recorded : relations target lits candidates.size = .ok rels)
      (found : oneGate target lits rels.toList = .ok (some (a, b, c))) :
      Answered target candidates tts maxSize
        ⟨candidates.size, #[⟨a, b, c⟩], #[2 * (1 + candidates.size)]⟩

section Answers

variable {target : TruthTable} {candidates : Array Nat} {tts : Array TruthTable} {maxSize : Nat}
  {l : IndexList}

theorem wellFormed_output {k lit : Nat} (defined : Literal.index lit < 1 + k) :
    (⟨k, #[], #[lit]⟩ : IndexList).isWellFormed = true := by
  rw [IndexList.isWellFormed_iff]
  simpa [IndexList.numEntries] using defined

theorem wellFormed_gate {k a b c : Nat} (defined : ∀ x ∈ [a, b, c], Literal.index x < 1 + k) :
    (⟨k, #[⟨a, b, c⟩], #[2 * (1 + k)]⟩ : IndexList).isWellFormed = true := by
  rw [IndexList.isWellFormed_iff]
  refine ⟨fun g lt lit member => ?_, fun lit member => ?_⟩
  · have first : g = 0 := by simpa using lt
    subst first
    simpa using defined lit member
  · simp only [List.mem_toArray, List.mem_singleton] at member
    subst member
    simp [Literal.index, IndexList.numEntries]

/-- Every circuit the engine answers with reads the candidates as its inputs, has one output,
is well formed and has at most `min 1 maxSize` gates. -/
theorem Answered.shape (answered : Answered target candidates tts maxSize l) :
    l.numInputs = candidates.size ∧ l.numOutputs = 1 ∧ l.isWellFormed = true ∧
      l.numGates ≤ min 1 maxSize := by
  cases answered with
  | constant0 zero entries =>
    exact ⟨rfl, rfl, wellFormed_output (by rw [Literal.index]; omega),
      by simp [IndexList.numGates]⟩
  | constant1 one entries =>
    exact ⟨rfl, rfl, wellFormed_output (by rw [Literal.index]; omega),
      by simp [IndexList.numGates]⟩
  | direct i c entries defined found =>
    exact ⟨rfl, rfl, wellFormed_output defined, by simp [IndexList.numGates]⟩
  | gate lits rels a b c sized entries defined tables recorded found =>
    exact ⟨rfl, rfl, wellFormed_gate defined, by simp [IndexList.numGates]; omega⟩

end Answers

-----------------------------------------------------------------------------------------
-- What the answers compute
-----------------------------------------------------------------------------------------

/-- The inputs the engine is meant for: indices into the tables, and the target and every
candidate table over the same `n` variables, as the library builds tables. -/
structure Meant (n : Nat) (target : TruthTable) (candidates : Array Nat) (tts : Array TruthTable) :
    Prop where
  narrow : n ≤ maxVars
  valid_target : Valid n target
  inRange : ∀ c ∈ candidates, c < tts.size
  valid_candidate : ∀ c ∈ candidates, Valid n (tts.getD c default)

section Simulation

variable {n : Nat} {target : TruthTable} {candidates : Array Nat} {tts : Array TruthTable}
  {maxSize : Nat} {l : IndexList}

theorem Meant.valid_tables (meant : Meant n target candidates tts) :
    ∀ t ∈ candidateTables candidates tts, Valid n t := by
  intro t member
  simp only [candidateTables, List.mem_map, Array.mem_toList_iff] at member
  obtain ⟨c, inCandidates, rfl⟩ := member
  exact meant.valid_candidate c inCandidates

theorem literalTables_candidates (meant : Meant n target candidates tts) :
    literalTables candidates tts = .ok (literalTablesOf (candidateTables candidates tts)) :=
  literalTables_eq meant.inRange

/-- The relations over the candidate tables are the recorded ones. -/
theorem relations_candidates (meant : Meant n target candidates tts)
    (small : candidates.size < 2 ^ 31) :
    relations target (literalTablesOf (candidateTables candidates tts)) candidates.size =
      .ok (recorded n (candidateTables candidates tts) target).toArray := by
  have length : (candidateTables candidates tts).length = candidates.size :=
    length_candidateTables
  rw [← length]
  exact relations_eq meant.valid_target (valid_literalTablesOf meant.valid_tables)
    (size_literalTablesOf _) (by omega)

/-- Before the gates, a literal reads the operand it stands for: the constant over `n`
variables, or a candidate table, complemented as the literal says. -/
theorem literalValue_inputs (small : candidates.size < 2 ^ 31) {lit : Nat}
    (lt : lit < 2 * (candidates.size + 1)) :
    IndexList.literalValue (#[zeros n] ++ candidates.map fun c => tts.getD c default) lit =
      .ok (operand n (literalTablesOf (candidateTables candidates tts)) lit) := by
  have small' : (candidateTables candidates tts).length < 2 ^ 31 := by simpa using small
  have lt' : lit < 2 * ((candidateTables candidates tts).length + 1) := by simpa using lt
  rcases lit_cases lt' small' with constant | ⟨i, li, c, rfl⟩
  · rcases (by omega : lit = 0 ∨ lit = 1) with rfl | rfl <;>
      rw [IndexList.literalValue, Array.getElem?_append_left] <;>
      simp [Literal.index, Literal.isComplemented]
  · have li' : i < candidates.size := by simpa using li
    have index := index_candidateLit (show i + 1 < 2 ^ 31 by omega) c
    have inside : Literal.index (candidateLit i c) <
        (#[zeros n] ++ candidates.map fun c => tts.getD c default).size := by
      simp only [index, Array.size_append, Array.size_map, List.size_toArray,
        List.length_singleton]
      omega
    rw [Network.literalValue_eq inside, operand_candidateLit li small', getD_candidateTables li',
      index, isComplemented_candidateLit (show i + 1 < 2 ^ 31 by omega)]
    simp [Array.getD_eq_getD_getElem?, Array.getElem?_append, li']

/-- The simulation over the candidate tables starts from the constant over their width. -/
theorem simulate_inputs (meant : Meant n target candidates tts)
    (width : 0 < candidates.size ∨ n = 0) (gates : Array LitGate) (outputs : Array Nat) :
    (⟨candidates.size, gates, outputs⟩ : IndexList).simulate
        (candidates.map fun c => tts.getD c default) =
      gates.foldlM IndexList.simulateGate (#[zeros n] ++ candidates.map fun c => tts.getD c default)
        >>= fun values => outputs.mapM (IndexList.literalValue values) := by
  have numVars :
      (((candidates.map fun c => tts.getD c default)[0]?).map (·.numVars)).getD 0 = n := by
    by_cases nonempty : 0 < candidates.size
    · have first := (meant.valid_candidate _ (Array.getElem_mem nonempty)).fits.1
      simpa [Array.getElem?_eq_getElem nonempty, Array.getD_eq_getD_getElem?] using first
    · have empty : candidates.size = 0 := by omega
      simp [empty, width.resolve_left nonempty]
  unfold IndexList.simulate
  rw [if_neg (by simp), numVars]
  beta_reduce
  simp only [constant_false_of_le meant.narrow, except_ok_bind]

/-- A list with no gate computes the operand its one output reads. -/
theorem simulate_output (meant : Meant n target candidates tts)
    (width : 0 < candidates.size ∨ n = 0) (small : candidates.size < 2 ^ 31) {lit : Nat}
    (lt : lit < 2 * (candidates.size + 1)) :
    (⟨candidates.size, #[], #[lit]⟩ : IndexList).simulate
        (candidates.map fun c => tts.getD c default) =
      .ok #[operand n (literalTablesOf (candidateTables candidates tts)) lit] := by
  rw [simulate_inputs meant width]
  simp only [Array.foldlM_empty, pure_bind, List.mapM_toArray, List.mapM_cons, List.mapM_nil,
    literalValue_inputs small lt, except_ok_bind]
  rfl

/-- A list of one gate, read by its output, computes what the gate makes. -/
theorem simulate_gate (meant : Meant n target candidates tts)
    (width : 0 < candidates.size ∨ n = 0) (small : candidates.size < 2 ^ 31) {a b c : Nat}
    (la : a < 2 * (candidates.size + 1)) (lb : b < 2 * (candidates.size + 1))
    (lc : c < 2 * (candidates.size + 1))
    (makes : Makes n (literalTablesOf (candidateTables candidates tts)) target a b c) :
    (⟨candidates.size, #[⟨a, b, c⟩], #[2 * (1 + candidates.size)]⟩ : IndexList).simulate
        (candidates.map fun c => tts.getD c default) = .ok #[target] := by
  rw [Makes] at makes
  -- the gate's table is the one entry after the inputs, read uncomplemented by the output
  have last : IndexList.literalValue
      ((#[zeros n] ++ candidates.map fun c => tts.getD c default).push target)
      (2 * (1 + candidates.size)) = .ok target := by
    simp [IndexList.literalValue, Literal.index, Literal.isComplemented, Array.getElem_push]
  rw [simulate_inputs meant width]
  simp only [List.foldlM_toArray', List.foldlM_cons, List.foldlM_nil, IndexList.simulateGate,
    literalValue_inputs small la, literalValue_inputs small lb, literalValue_inputs small lc,
    makes, except_ok_bind, List.mapM_toArray, List.mapM_cons, List.mapM_nil, pure_bind, last]
  rfl

theorem Answered.small (answered : Answered target candidates tts maxSize l) :
    candidates.size < 2 ^ 31 := by
  cases answered <;> simp only [IndexList.maxEntries] at * <;> omega

/-- Over candidate tables of one width, as the library builds them, every circuit the engine
answers with computes the target, as long as it has an input to take that width from or the
width is zero. -/
theorem Answered.simulate (answered : Answered target candidates tts maxSize l)
    (meant : Meant n target candidates tts) (width : 0 < candidates.size ∨ n = 0) :
    l.simulate (candidates.map fun c => tts.getD c default) = .ok #[target] := by
  have small := answered.small
  have small' : (candidateTables candidates tts).length < 2 ^ 31 := by simpa using small
  cases answered with
  | constant0 zero entries =>
    rw [simulate_output meant width small (by omega), operand_zero,
      (isConst0_iff meant.valid_target).mp zero]
  | constant1 one entries =>
    rw [simulate_output meant width small (by omega), operand_one,
      (isConst1_iff meant.valid_target).mp one]
  | direct i c entries defined found =>
    rw [findDirect_eq meant.inRange fun j member => List.mem_range.mp member] at found
    obtain ⟨j, member, matched⟩ := List.exists_of_findSome?_eq_some (Except.ok.inj found)
    obtain ⟨rfl, same⟩ := directMatch_eq_some meant.valid_target matched
    have lj : j < (candidateTables candidates tts).length := by
      simpa using List.mem_range.mp member
    rw [simulate_output meant width small (candidateLit_lt (by simpa using lj) small c),
      operand_candidateLit lj small', same]
  | gate lits rels a b c sized entries defined tables recorded found =>
    -- the search ran over the literal tables and the recorded relations of the candidates
    obtain rfl := Except.ok.inj ((literalTables_candidates meant).symm.trans tables)
    obtain rfl := Except.ok.inj ((relations_candidates meant small).symm.trans recorded)
    obtain ⟨_, search, sound⟩ := oneGate_recorded meant.valid_target meant.valid_tables small'
    rw [List.toList_toArray, search] at found
    obtain ⟨la, lb, lc, makes⟩ := sound a b c (Except.ok.inj found)
    simp only [length_candidateTables] at la lb lc
    exact simulate_gate meant width small la lb lc makes

end Simulation

-----------------------------------------------------------------------------------------
-- Every circuit the engine returns
-----------------------------------------------------------------------------------------

/-- The two variables and their conjunction, as the library builds their tables. -/
theorem meant_conjunction : Meant 2 ⟨2, #[8]⟩ #[0, 1] #[⟨2, #[0xA]⟩, ⟨2, #[0xC]⟩] := by
  refine ⟨by decide, valid_of_masked ⟨rfl, rfl⟩ (by decide +kernel), by decide, ?_⟩
  intro c member
  simp only [List.mem_toArray, List.mem_cons, List.not_mem_nil, or_false] at member
  rcases member with rfl | rfl
  · exact valid_of_masked ⟨rfl, rfl⟩ (by decide +kernel)
  · exact valid_of_masked ⟨rfl, rfl⟩ (by decide +kernel)

end Resynthesis

end MajorityGraph
