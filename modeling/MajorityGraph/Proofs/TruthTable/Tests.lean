import MajorityGraph.Proofs.TruthTable.Words

/-!
Tests of equations between tables answer without a fault, and what they answer is the equation
they test.
-/

namespace MajorityGraph

namespace TruthTable

-----------------------------------------------------------------------------------------
-- Words
-----------------------------------------------------------------------------------------

section Words

variable {x y z m : UInt64}

theorem majWord_zero_left : majWord 0 x y = x &&& y := by
  apply word_ext
  intro i lt
  simp only [majWord, UInt64.toBitVec_and, UInt64.toBitVec_or, UInt64.toBitVec_zero,
    BitVec.getElem_and, BitVec.getElem_or, BitVec.getElem_zero]
  cases x.toBitVec[i] <;> cases y.toBitVec[i] <;> rfl

theorem majWord_zero_mid : majWord x 0 y = x &&& y := by
  rw [majWord_swap_left, majWord_zero_left]

/-- Within the mask, a full operand makes the majority a disjunction. -/
theorem majWord_mask_left (inX : x &&& m = x) (inY : y &&& m = y) : majWord m x y = x ||| y := by
  apply word_ext
  intro i lt
  have bx := bit_of_masked inX i lt
  have b_y := bit_of_masked inY i lt
  simp only [majWord, UInt64.toBitVec_and, UInt64.toBitVec_or, BitVec.getElem_and,
    BitVec.getElem_or]
  revert bx b_y
  cases x.toBitVec[i] <;> cases y.toBitVec[i] <;> cases m.toBitVec[i] <;> decide

theorem majWord_mask_mid (inX : x &&& m = x) (inY : y &&& m = y) : majWord x m y = x ||| y := by
  rw [majWord_swap_left, majWord_mask_left inX inY]

theorem not_zero_and (m : UInt64) : ~~~(0 : UInt64) &&& m = m := by
  apply word_ext
  intro i lt
  simp

/-- The majority of two words and their majority with a third is that majority. -/
theorem majWord_absorb : majWord x y (majWord x y z) = majWord x y z := by
  apply word_ext
  intro i lt
  simp only [majWord, UInt64.toBitVec_and, UInt64.toBitVec_or, BitVec.getElem_and,
    BitVec.getElem_or]
  cases x.toBitVec[i] <;> cases y.toBitVec[i] <;> cases z.toBitVec[i] <;> rfl

/-- `x` lies within `y` when it has no bit outside `y`. -/
theorem or_eq_right_iff : x ||| y = y ↔ x &&& ~~~y = 0 := by
  constructor
  · intro covered
    apply word_ext
    intro i lt
    have bit := congrArg (fun w : UInt64 => w.toBitVec[i]) covered
    simp only [UInt64.toBitVec_or, BitVec.getElem_or] at bit
    simp only [UInt64.toBitVec_and, UInt64.toBitVec_not, UInt64.toBitVec_zero, BitVec.getElem_and,
      BitVec.getElem_not, BitVec.getElem_zero]
    revert bit
    cases x.toBitVec[i] <;> cases y.toBitVec[i] <;> decide
  · intro outside
    apply word_ext
    intro i lt
    have bit := congrArg (fun w : UInt64 => w.toBitVec[i]) outside
    simp only [UInt64.toBitVec_and, UInt64.toBitVec_not, UInt64.toBitVec_zero, BitVec.getElem_and,
      BitVec.getElem_not, BitVec.getElem_zero] at bit
    simp only [UInt64.toBitVec_or, BitVec.getElem_or]
    revert bit
    cases x.toBitVec[i] <;> cases y.toBitVec[i] <;> decide

theorem and_eq_right_iff : x &&& y = y ↔ y &&& ~~~x = 0 := by
  constructor
  · intro covered
    apply word_ext
    intro i lt
    have bit := congrArg (fun w : UInt64 => w.toBitVec[i]) covered
    simp only [UInt64.toBitVec_and, BitVec.getElem_and] at bit
    simp only [UInt64.toBitVec_and, UInt64.toBitVec_not, UInt64.toBitVec_zero, BitVec.getElem_and,
      BitVec.getElem_not, BitVec.getElem_zero]
    revert bit
    cases x.toBitVec[i] <;> cases y.toBitVec[i] <;> decide
  · intro outside
    apply word_ext
    intro i lt
    have bit := congrArg (fun w : UInt64 => w.toBitVec[i]) outside
    simp only [UInt64.toBitVec_and, UInt64.toBitVec_not, UInt64.toBitVec_zero, BitVec.getElem_and,
      BitVec.getElem_not, BitVec.getElem_zero] at bit
    simp only [UInt64.toBitVec_and, BitVec.getElem_and]
    revert bit
    cases x.toBitVec[i] <;> cases y.toBitVec[i] <;> decide

end Words

-----------------------------------------------------------------------------------------
-- Tests on tables as the library builds them
-----------------------------------------------------------------------------------------

section Tests

variable {n : Nat} {a b c t : TruthTable}

theorem nat_all_eq_true_iff {k : Nat} {f : (i : Nat) → i < k → Bool} :
    Nat.all k f = true ↔ ∀ i (lt : i < k), f i lt = true := by
  simp only [Nat.all_eq_finRange_all, List.all_eq_true, List.mem_finRange, true_implies]
  exact ⟨fun all i lt => all ⟨i, lt⟩, fun all i => all i.1 i.2⟩

/-- Comparing words one by one over a table's words is equality of the words. -/
theorem wordsAre_iff (vt : Valid n t) (f : Nat → UInt64) :
    wordsAre n (wordCount n) f t = true ↔ ∀ i < wordCount n, f i = t.word i := by
  simp [wordsAre, vt.fits.1, vt.fits.2, nat_all_eq_true_iff]

/-- Whether a computation returns a given value, such as whether three tables have a given
majority, is decided by running it. -/
instance decidableEqOk {ε α : Type} [DecidableEq α] (e : Except ε α) (a : α) :
    Decidable (e = .ok a) :=
  decidable_of_iff (e.toOption = some a) (by cases e <;> simp [Except.toOption])

/-- A Boolean answers a proposition when it is true exactly when the proposition holds. -/
theorem eq_decide_of_iff {r : Bool} {P : Prop} [Decidable P] (answers : r = true ↔ P) :
    r = decide P := by
  cases r <;> simp_all

theorem majIs_eq (va : Valid n a) (vb : Valid n b) (vc : Valid n c) (vt : Valid n t) :
    majIs a b c t = .ok (decide (maj a b c = .ok t)) := by
  simp only [majIs, majWidths_of_fits va.fits vb.fits vc.fits, bind, Except.bind, pure,
    Except.pure, va.fits.1, va.fits.2]
  congr 1
  refine eq_decide_of_iff ((wordsAre_iff vt _).trans ?_)
  rw [maj_eq_ok_iff va vb vc vt]
  exact ⟨fun words i lt => (words i lt).symm, fun words i lt => (words i lt).symm⟩

/-- The conjunction test is the majority with constant 0. -/
theorem andIs_eq (va : Valid n a) (vb : Valid n b) (vt : Valid n t) :
    andIs a b t = .ok (decide (maj (zeros n) a b = .ok t)) := by
  simp only [andIs, va.fits.1, vb.fits.1, va.fits.2, vb.fits.2, Nat.min_self, ↓reduceIte]
  congr 1
  refine eq_decide_of_iff ((wordsAre_iff vt _).trans ?_)
  rw [maj_eq_ok_iff (zeros_valid n) va vb vt]
  simp only [word_zeros, majWord_zero_left]
  exact ⟨fun words i lt => (words i lt).symm, fun words i lt => (words i lt).symm⟩

/-- The disjunction test is the majority with constant 1. -/
theorem orIs_eq (va : Valid n a) (vb : Valid n b) (vt : Valid n t) :
    orIs a b t = .ok (decide (maj (zeros n).not a b = .ok t)) := by
  simp only [orIs, va.fits.1, vb.fits.1, va.fits.2, vb.fits.2, Nat.min_self, ↓reduceIte]
  congr 1
  refine eq_decide_of_iff ((wordsAre_iff vt _).trans ?_)
  rw [maj_eq_ok_iff (zeros_valid n).not va vb vt]
  constructor
  · intro words i lt
    rw [(zeros_valid n).word_not lt, word_zeros, not_zero_and,
      majWord_mask_left (va.masked i) (vb.masked i)]
    exact (words i lt).symm
  · intro words i lt
    rw [words i lt, (zeros_valid n).word_not lt, word_zeros, not_zero_and,
      majWord_mask_left (va.masked i) (vb.masked i)]

/-- `a` implies `t` exactly when `t` is the majority of `a`, constant 1 and `t`. -/
theorem implies_eq (va : Valid n a) (vt : Valid n t) :
    a.implies t = .ok (decide (maj a (zeros n).not t = .ok t)) := by
  simp only [implies, va.fits.1, vt.fits.1, ↓reduceIte]
  congr 1
  refine eq_decide_of_iff (nat_all_eq_true_iff.trans ?_)
  rw [maj_eq_ok_iff va (zeros_valid n).not vt vt, va.fits.2]
  constructor
  · intro outside i lt
    rw [(zeros_valid n).word_not lt, word_zeros, not_zero_and,
      majWord_mask_mid (va.masked i) (vt.masked i)]
    exact (or_eq_right_iff.mpr (by simpa using outside i lt)).symm
  · intro words i lt
    have covered := words i lt
    rw [(zeros_valid n).word_not lt, word_zeros, not_zero_and,
      majWord_mask_mid (va.masked i) (vt.masked i)] at covered
    simpa using or_eq_right_iff.mp covered.symm

/-- `t` implies `a` exactly when `t` is the majority of `a`, constant 0 and `t`. -/
theorem implied_eq (va : Valid n a) (vt : Valid n t) :
    t.implies a = .ok (decide (maj a (zeros n) t = .ok t)) := by
  simp only [implies, va.fits.1, vt.fits.1, ↓reduceIte]
  congr 1
  refine eq_decide_of_iff (nat_all_eq_true_iff.trans ?_)
  rw [maj_eq_ok_iff va (zeros_valid n) vt vt, vt.fits.2]
  simp only [word_zeros, majWord_zero_mid]
  constructor
  · intro outside i lt
    exact (and_eq_right_iff.mpr (by simpa using outside i lt)).symm
  · intro words i lt
    simpa using and_eq_right_iff.mp (words i lt).symm

/-- A table over `n` variables is constant 0 exactly when it is the constant 0 table. -/
theorem isConst0_iff (vt : Valid n t) : t.isConst0 = true ↔ t = zeros n := by
  constructor
  · intro zero
    refine Valid.ext vt (zeros_valid n) fun i lt => ?_
    have inside : i < t.words.size := vt.fits.2 ▸ lt
    have cleared := (Array.all_eq_true.mp zero) i inside
    rw [word_zeros]
    simpa [word, Array.getD_eq_getD_getElem?, inside] using cleared
  · rintro rfl
    exact Array.all_eq_true.mpr fun i inside => by simp [zeros]

/-- A table over `n` variables is constant 1 exactly when it is the complement of the constant 0
table. -/
theorem isConst1_iff (vt : Valid n t) : t.isConst1 = true ↔ t = (zeros n).not := by
  have ones : ∀ i < wordCount n, (zeros n).not.word i = liveMask n := fun i lt => by
    rw [(zeros_valid n).word_not lt, word_zeros, not_zero_and]
  constructor
  · intro one
    refine Valid.ext vt (zeros_valid n).not fun i lt => ?_
    have inside : i < t.words.size := vt.fits.2 ▸ lt
    have full := (Array.all_eq_true.mp one) i inside
    rw [ones i lt]
    simpa [word, Array.getD_eq_getD_getElem?, inside, vt.fits.1] using full
  · rintro rfl
    refine Array.all_eq_true.mpr fun i inside => ?_
    have lt : i < wordCount n := (zeros_valid n).not.fits.2 ▸ inside
    have full := ones i lt
    simp only [word, Array.getD_eq_getD_getElem?, Array.getElem?_eq_getElem inside,
      Option.getD_some] at full
    simp [full, (zeros_valid n).not.fits.1]

end Tests

-----------------------------------------------------------------------------------------
-- The majority absorbs its result
-----------------------------------------------------------------------------------------

/-- The majority of two tables and their majority with a third is that majority. -/
theorem maj_absorb {n : Nat} {x y z t : TruthTable} (vx : Valid n x) (vy : Valid n y)
    (vz : Valid n z) (run : maj x y z = .ok t) : maj x y t = .ok t := by
  obtain ⟨built, vt⟩ := vx.maj vy vz
  rw [built] at run
  cases run
  refine (maj_eq_ok_iff vx vy vt vt).mpr fun i lt => ?_
  simp only [word_ofFn, dif_pos lt, majWord_absorb]

end TruthTable

end MajorityGraph
