import MajorityGraph.Proofs.Simulation.Tables

/-! Truth tables as the library builds them, and their identities as identities of 64-bit words. -/

namespace MajorityGraph

namespace TruthTable

-----------------------------------------------------------------------------------------
-- Words
-----------------------------------------------------------------------------------------

section Words

variable {x y z m : UInt64}

/-- Two words are equal when they agree on every bit. -/
theorem word_ext (bits : ∀ i (lt : i < 64), x.toBitVec[i] = y.toBitVec[i]) : x = y := by
  apply UInt64.toBitVec_inj.mp
  ext i lt
  exact bits i lt

/-- A word within the mask, read bit by bit. -/
theorem bit_of_masked (within : x &&& m = x) (i : Nat) (lt : i < 64) :
    x.toBitVec[i] = (x.toBitVec[i] && m.toBitVec[i]) := by
  have := congrArg (fun w : UInt64 => w.toBitVec[i]) within
  simpa using this.symm

theorem masked_and_self : (x &&& m) &&& m = x &&& m := by
  apply word_ext
  intro i lt
  simp

theorem not_not_word (within : x &&& m = x) : ~~~(~~~x &&& m) &&& m = x := by
  apply word_ext
  intro i lt
  have bx := bit_of_masked within i lt
  simp only [UInt64.toBitVec_and, UInt64.toBitVec_not, BitVec.getElem_and, BitVec.getElem_not]
  revert bx
  cases x.toBitVec[i] <;> cases m.toBitVec[i] <;> decide

theorem majWord_masked (inX : x &&& m = x) (inY : y &&& m = y) (inZ : z &&& m = z) :
    majWord x y z &&& m = majWord x y z := by
  apply word_ext
  intro i lt
  have bx := bit_of_masked inX i lt
  have b_y := bit_of_masked inY i lt
  have bz := bit_of_masked inZ i lt
  simp only [majWord, UInt64.toBitVec_and, UInt64.toBitVec_or, BitVec.getElem_and,
    BitVec.getElem_or]
  revert bx b_y bz
  cases x.toBitVec[i] <;> cases y.toBitVec[i] <;> cases z.toBitVec[i] <;>
    cases m.toBitVec[i] <;> decide

theorem majWord_same : majWord x x y = x := by
  apply word_ext
  intro i lt
  simp only [majWord, UInt64.toBitVec_and, UInt64.toBitVec_or, BitVec.getElem_and,
    BitVec.getElem_or]
  cases x.toBitVec[i] <;> cases y.toBitVec[i] <;> rfl

theorem majWord_same_right : majWord x y y = y := by
  apply word_ext
  intro i lt
  simp only [majWord, UInt64.toBitVec_and, UInt64.toBitVec_or, BitVec.getElem_and,
    BitVec.getElem_or]
  cases x.toBitVec[i] <;> cases y.toBitVec[i] <;> rfl

theorem majWord_opposite (inX : x &&& m = x) (inY : y &&& m = y) :
    majWord x (~~~x &&& m) y = y := by
  apply word_ext
  intro i lt
  have bx := bit_of_masked inX i lt
  have b_y := bit_of_masked inY i lt
  simp only [majWord, UInt64.toBitVec_and, UInt64.toBitVec_or, UInt64.toBitVec_not,
    BitVec.getElem_and, BitVec.getElem_or, BitVec.getElem_not]
  revert bx b_y
  cases x.toBitVec[i] <;> cases y.toBitVec[i] <;> cases m.toBitVec[i] <;> decide

theorem majWord_opposite_right (inX : x &&& m = x) (inY : y &&& m = y) :
    majWord x y (~~~y &&& m) = x := by
  apply word_ext
  intro i lt
  have bx := bit_of_masked inX i lt
  have b_y := bit_of_masked inY i lt
  simp only [majWord, UInt64.toBitVec_and, UInt64.toBitVec_or, UInt64.toBitVec_not,
    BitVec.getElem_and, BitVec.getElem_or, BitVec.getElem_not]
  revert bx b_y
  cases x.toBitVec[i] <;> cases y.toBitVec[i] <;> cases m.toBitVec[i] <;> decide

/-- The majority is self-dual within the mask. -/
theorem majWord_dual (inX : x &&& m = x) (inY : y &&& m = y) (inZ : z &&& m = z) :
    majWord (~~~x &&& m) (~~~y &&& m) (~~~z &&& m) = ~~~(majWord x y z) &&& m := by
  apply word_ext
  intro i lt
  have bx := bit_of_masked inX i lt
  have b_y := bit_of_masked inY i lt
  have bz := bit_of_masked inZ i lt
  simp only [majWord, UInt64.toBitVec_and, UInt64.toBitVec_or, UInt64.toBitVec_not,
    BitVec.getElem_and, BitVec.getElem_or, BitVec.getElem_not]
  revert bx b_y bz
  cases x.toBitVec[i] <;> cases y.toBitVec[i] <;> cases z.toBitVec[i] <;>
    cases m.toBitVec[i] <;> decide

end Words

-----------------------------------------------------------------------------------------
-- Tables as the library builds them
-----------------------------------------------------------------------------------------

section Valid

variable {n i : Nat} {t a b c : TruthTable}

theorem and_allOnes (x : UInt64) : x &&& allOnes = x := by
  rw [show allOnes = -1 from rfl]
  exact UInt64.and_neg_one

theorem liveMask_of_ge (ge : 6 ≤ n) : liveMask n = allOnes := by
  simp [liveMask, Nat.not_lt.mpr ge]

theorem wordCount_of_lt (lt : n < 6) : wordCount n = 1 := by
  have small : 2 ^ n < 64 := Nat.pow_lt_pow_right (by decide) lt
  simp [wordCount, Nat.div_eq_of_lt small]

/-- A table over `n` variables as the library builds it: all of its words, and no bit set above
its `2 ^ n` values. -/
structure Valid (n : Nat) (t : TruthTable) : Prop where
  fits : Fits n t
  masked : ∀ i, t.word i &&& liveMask n = t.word i

/-- Two tables over `n` variables are equal when their words are. -/
theorem Valid.ext (va : Valid n a) (vb : Valid n b)
    (words : ∀ i < wordCount n, a.word i = b.word i) : a = b := by
  obtain ⟨na, wa⟩ := a
  obtain ⟨nb, wb⟩ := b
  obtain ⟨⟨rfl, sa⟩, -⟩ := va
  obtain ⟨⟨rfl, sb⟩, -⟩ := vb
  simp only at sa sb
  congr 1
  refine Array.ext (sa.trans sb.symm) fun i la lb => ?_
  have same := words i (sa ▸ la)
  simpa [word, Array.getD_eq_getD_getElem?, la, lb] using same

@[simp] theorem word_zeros (n i : Nat) : (zeros n).word i = 0 := by
  simp only [word, zeros, Array.getD_eq_getD_getElem?, Array.getElem?_replicate]
  split <;> rfl

theorem word_ofFn {k : Nat} (f : Fin k → UInt64) (i : Nat) :
    (⟨n, Array.ofFn f⟩ : TruthTable).word i = if h : i < k then f ⟨i, h⟩ else 0 := by
  simp only [word, Array.getD_eq_getD_getElem?, Array.getElem?_ofFn]
  split <;> rfl

theorem zeros_valid (n : Nat) : Valid n (zeros n) :=
  ⟨zeros_fits n, fun i => by rw [word_zeros]; exact UInt64.zero_and⟩

/-- The complement works word by word within the mask. -/
theorem Valid.word_not (v : Valid n t) (lt : i < wordCount n) :
    t.not.word i = ~~~(t.word i) &&& liveMask n := by
  obtain ⟨⟨width, size⟩, -⟩ := v
  by_cases few : n < 6
  · have zero : i = 0 := by rw [wordCount_of_lt few] at lt; omega
    subst zero
    have inside : 0 < t.words.size := by rw [size, wordCount_of_lt few]; omega
    simp [TruthTable.not, TruthTable.masked, width, few, word, Array.getD_eq_getD_getElem?, inside,
      Array.getElem_modify]
  · have inside : i < t.words.size := by rw [size]; exact lt
    rw [liveMask_of_ge (Nat.le_of_not_lt few), and_allOnes]
    simp [TruthTable.not, TruthTable.masked, width, few, word, Array.getD_eq_getD_getElem?, inside]

theorem Valid.not (v : Valid n t) : Valid n t.not := by
  refine ⟨not_fits v.fits, fun i => ?_⟩
  by_cases lt : i < wordCount n
  · rw [v.word_not lt, masked_and_self]
  · have size := (not_fits v.fits).2
    have beyond : t.not.word i = 0 := by
      simp [word, Array.getD_eq_getD_getElem?, Array.getElem?_eq_none (size ▸ Nat.le_of_not_lt lt)]
    rw [beyond]
    exact UInt64.zero_and

/-- The majority of three tables over `n` variables, as it is built. -/
theorem Valid.maj (va : Valid n a) (vb : Valid n b) (vc : Valid n c) :
    TruthTable.maj a b c = .ok ⟨n, Array.ofFn (n := wordCount n) fun j =>
      majWord (a.word j) (b.word j) (c.word j)⟩ ∧
    Valid n ⟨n, Array.ofFn (n := wordCount n) fun j => majWord (a.word j) (b.word j) (c.word j)⟩ := by
  refine ⟨maj_of_fits va.fits vb.fits vc.fits, ⟨⟨rfl, by simp⟩, fun i => ?_⟩⟩
  rw [word_ofFn]
  split
  · exact majWord_masked (va.masked i) (vb.masked i) (vc.masked i)
  · exact UInt64.zero_and

/-- On tables over `n` variables the majority is taken word by word. -/
theorem maj_eq_ok_iff (va : Valid n a) (vb : Valid n b) (vc : Valid n c) (vt : Valid n t) :
    maj a b c = .ok t ↔ ∀ i < wordCount n, t.word i = majWord (a.word i) (b.word i) (c.word i) := by
  obtain ⟨built, valid⟩ := va.maj vb vc
  rw [built]
  constructor
  · rintro ⟨⟩ i lt
    simp [word_ofFn, lt]
  · intro words
    congr 1
    refine Valid.ext valid vt fun i lt => ?_
    rw [words i lt, word_ofFn, dif_pos lt]

end Valid

-----------------------------------------------------------------------------------------
-- Identities of tables
-----------------------------------------------------------------------------------------

section Identities

variable {n : Nat} {t a b c : TruthTable}

/-- A second complement undoes the first. -/
theorem Valid.not_not (v : Valid n t) : t.not.not = t :=
  Valid.ext v.not.not v fun i lt => by
    rw [v.not.word_not lt, v.word_not lt, not_not_word (v.masked i)]

/-- A repeated operand decides the majority. -/
theorem maj_same (va : Valid n a) (vb : Valid n b) : maj a a b = .ok a :=
  (maj_eq_ok_iff va va vb va).mpr fun _ _ => majWord_same.symm

theorem maj_same_right (va : Valid n a) (vb : Valid n b) : maj a b b = .ok b :=
  (maj_eq_ok_iff va vb vb vb).mpr fun _ _ => majWord_same_right.symm

/-- Complementary operands cancel. -/
theorem maj_opposite (va : Valid n a) (vb : Valid n b) : maj a a.not b = .ok b :=
  (maj_eq_ok_iff va va.not vb vb).mpr fun i lt => by
    rw [va.word_not lt, majWord_opposite (va.masked i) (vb.masked i)]

theorem maj_opposite_right (va : Valid n a) (vb : Valid n b) : maj a b b.not = .ok a :=
  (maj_eq_ok_iff va vb vb.not va).mpr fun i lt => by
    rw [vb.word_not lt, majWord_opposite_right (va.masked i) (vb.masked i)]

/-- The majority is self-dual: complementing the operands complements it. -/
theorem maj_not (va : Valid n a) (vb : Valid n b) (vc : Valid n c) (run : maj a b c = .ok t) :
    maj a.not b.not c.not = .ok t.not := by
  obtain ⟨built, vt⟩ := va.maj vb vc
  rw [built] at run
  cases run
  refine (maj_eq_ok_iff va.not vb.not vc.not vt.not).mpr fun i lt => ?_
  rw [vt.word_not lt, va.word_not lt, vb.word_not lt, vc.word_not lt,
    majWord_dual (va.masked i) (vb.masked i) (vc.masked i), word_ofFn, dif_pos lt]

end Identities

end TruthTable

end MajorityGraph
