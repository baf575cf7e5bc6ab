import Mathlib.Algebra.BigOperators.Ring.Finset
import Mathlib.Tactic.Ring
import MajorityGraph.Proofs.Simulation.Majorities

/-! The bits of truth tables: bit `m` is the value under the assignment whose code is `m`. -/

namespace MajorityGraph

namespace TruthTable

/-! ### Codes of assignments -/

/-- The code of an assignment, in Horner form: value `i` is bit `i`. -/
def assignmentCode : List Bool → Nat
  | [] => 0
  | b :: bs => b.toNat + 2 * assignmentCode bs

theorem assignmentCode_lt : ∀ bs : List Bool, assignmentCode bs < 2 ^ bs.length
  | [] => by simp [assignmentCode]
  | b :: bs => by
    have := assignmentCode_lt bs
    simp only [assignmentCode, List.length_cons, pow_succ]
    cases b <;> simp <;> omega

/-- Bit `i` of the code is value `i`. -/
theorem testBit_assignmentCode : ∀ (bs : List Bool) (i : Nat) (lt : i < bs.length),
    (assignmentCode bs).testBit i = bs[i]
  | b :: bs, 0, _ => by
    cases b <;> simp [assignmentCode, Nat.testBit_zero]
  | b :: bs, i + 1, lt => by
    have half : (b.toNat + 2 * assignmentCode bs) / 2 = assignmentCode bs := by
      cases b <;> simp only [Bool.toNat_false, Bool.toNat_true] <;> omega
    rw [assignmentCode, Nat.testBit_succ, half, List.getElem_cons_succ]
    exact testBit_assignmentCode bs i (by simpa using lt)

/-- The code is the sum of the values at their powers of two. -/
theorem assignmentCode_eq_sum (bs : List Bool) :
    assignmentCode bs = ∑ i ∈ Finset.range bs.length, (bs.getD i false).toNat * 2 ^ i := by
  induction bs with
  | nil => rfl
  | cons b bs ih =>
    rw [assignmentCode, ih, List.length_cons, Finset.sum_range_succ', Finset.mul_sum, add_comm]
    simp only [List.getD_cons_succ, List.getD_cons_zero, pow_zero, mul_one, pow_succ]
    congr 1
    refine Finset.sum_congr rfl fun i _ => ?_
    ring

/-! ### Bits of words -/

/-- Bit `k` of a word, as `bit` reads it. -/
theorem shift_and_one (w : UInt64) {k : Nat} (lt : k < 64) :
    ((w >>> k.toUInt64) &&& 1 == 1) = w.toBitVec.getLsbD k := by
  have shift : (k.toUInt64).toNat = k := by simp; omega
  rw [Bool.eq_iff_iff, beq_iff_eq, ← UInt64.toNat_inj, UInt64.toNat_and, UInt64.toNat_shiftRight,
    shift, Nat.mod_eq_of_lt lt, ← BitVec.testBit_toNat, UInt64.toNat_toBitVec,
    Nat.testBit_eq_decide_div_mod_eq]
  simp [Nat.and_one_is_mod, Nat.shiftRight_eq_div_pow]

theorem bit_eq_getLsbD (t : TruthTable) (m : Nat) :
    t.bit m = (t.word (m / 64)).toBitVec.getLsbD (m % 64) :=
  shift_and_one _ (Nat.mod_lt _ (by decide))

theorem allOnes_getLsbD {k : Nat} (lt : k < 64) : allOnes.toBitVec.getLsbD k = true := by
  have all : ∀ k < 64, allOnes.toBitVec.getLsbD k = true := by decide
  exact all k lt

/-- Bit `k` of the pattern of variable `i < 6` is bit `i` of `k`. -/
theorem projection_getLsbD {i k : Nat} (small : i < 6) (lt : k < 64) :
    (projection i).toBitVec.getLsbD k = k.testBit i := by
  have all : ∀ i < 6, ∀ k < 64, (projection i).toBitVec.getLsbD k = k.testBit i := by decide
  exact all i small k lt

variable {n m i : Nat} {t a b c : TruthTable}

/-- A table over fewer than six variables has its values in the low bits of its one word. -/
theorem lt_64_of_few (few : n < 6) (lt : m < 2 ^ n) : m < 64 :=
  Nat.lt_of_lt_of_le lt (Nat.pow_le_pow_right (by decide) (Nat.le_of_lt few) |>.trans (by decide))

/-- The mask keeps every bit that holds a value. -/
theorem liveMask_getLsbD (lt : m < 2 ^ n) : (liveMask n).toBitVec.getLsbD (m % 64) = true := by
  by_cases few : n < 6
  · have all : ∀ n < 6, ∀ k < 64, k < 2 ^ n → (liveMask n).toBitVec.getLsbD k = true := by decide
    have small := lt_64_of_few few lt
    rw [Nat.mod_eq_of_lt small]
    exact all n few m small lt
  · rw [liveMask_of_ge (Nat.le_of_not_lt few)]
    exact allOnes_getLsbD (Nat.mod_lt _ (by decide))

/-- The value under assignment `m` lies in a stored word. -/
theorem div_lt_wordCount (lt : m < 2 ^ n) : m / 64 < wordCount n := by
  unfold wordCount
  by_cases few : n < 6
  · rw [Nat.div_eq_of_lt (lt_64_of_few few lt)]
    exact Nat.lt_of_lt_of_le Nat.zero_lt_one (le_max_right _ _)
  · have dvd : 64 ∣ 2 ^ n := pow_dvd_pow 2 (Nat.le_of_not_lt few)
    exact Nat.lt_of_lt_of_le (Nat.div_lt_div_of_lt_of_dvd dvd lt) (le_max_left _ _)

/-! ### Bits of tables -/

@[simp] theorem bit_zeros (n m : Nat) : (zeros n).bit m = false := by
  simp [bit_eq_getLsbD]

/-- The complement negates every value. -/
theorem Valid.bit_not (v : Valid n t) (lt : m < 2 ^ n) : t.not.bit m = !t.bit m := by
  rw [bit_eq_getLsbD, bit_eq_getLsbD, v.word_not (div_lt_wordCount lt)]
  simp [liveMask_getLsbD lt, Nat.mod_lt]

/-- The majority of three tables takes the majority of their values. -/
theorem bit_maj (va : Valid n a) (vb : Valid n b) (vc : Valid n c) (run : maj a b c = .ok t)
    (lt : m < 2 ^ n) : t.bit m = maj3 (a.bit m) (b.bit m) (c.bit m) := by
  rw [(va.maj vb vc).1] at run
  cases run
  rw [bit_eq_getLsbD, word_ofFn, dif_pos (div_lt_wordCount lt), bit_eq_getLsbD, bit_eq_getLsbD,
    bit_eq_getLsbD]
  simp [majWord, maj3]

/-- The projection onto variable `i` has at `m` bit `i` of `m`. -/
theorem bit_nthVar (run : nthVar n i = .ok t) (lt : m < 2 ^ n) : t.bit m = m.testBit i := by
  have inRange : i < n := by
    by_contra ge
    simp [nthVar, Nat.le_of_not_lt ge] at run
    cases run
  have narrow : n ≤ maxVars := by
    by_contra wide
    simp [nthVar, Nat.not_le.mpr inRange, new_of_gt (Nat.lt_of_not_le wide)] at run
    cases run
  have index := div_lt_wordCount lt
  by_cases small : i < 6
  · simp only [nthVar, Nat.not_le.mpr inRange, new_of_le narrow, small] at run
    cases run
    by_cases few : n < 6
    · -- one word, masked to its values
      have low := lt_64_of_few few lt
      have mask := liveMask_getLsbD lt
      rw [Nat.mod_eq_of_lt low] at mask
      simp [bit_eq_getLsbD, masked, word, zeros, few, wordCount_of_lt few, Nat.div_eq_of_lt low,
        Nat.mod_eq_of_lt low, projection_getLsbD small low, mask]
    · -- every word is the pattern, and bit `i < 6` of `m` is bit `i` of `m % 64`
      simp only [bit_eq_getLsbD, masked, word, zeros, few, if_false, Array.getD_eq_getD_getElem?,
        Array.map_replicate, Array.getElem?_replicate, if_pos index, Option.getD_some]
      rw [projection_getLsbD small (Nat.mod_lt _ (by decide)), show 64 = 2 ^ 6 from rfl,
        Nat.testBit_mod_two_pow]
      simp [small]
  · -- a variable from six on selects whole words: word `j` is full when bit `i - 6` of `j` is set
    simp only [nthVar, Nat.not_le.mpr inRange, new_of_le narrow, small] at run
    cases run
    have block : m / 64 / 2 ^ (i - 6) = m / 2 ^ i := by
      rw [Nat.div_div_eq_div_mul, show 64 = 2 ^ 6 from rfl, ← pow_add, Nat.add_sub_cancel' (by omega)]
    have inside : m / 64 < (zeros n).words.size := by simpa [zeros] using index
    rw [bit_eq_getLsbD, word_ofFn, dif_pos inside, block, Nat.testBit_eq_decide_div_mod_eq]
    split
    · rename_i set
      rw [allOnes_getLsbD (Nat.mod_lt _ (by decide))]
      simpa using set
    · rename_i clear
      simpa using clear

end TruthTable

open TruthTable

variable {n m : Nat} {t : TruthTable}

/-- A signal's table holds the value of its node through the signal's polarity. -/
theorem Signal.bit_onTable (s : Signal) (v : Valid n t) (lt : m < 2 ^ n) :
    (s.onTable t).bit m = (t.bit m ^^ s.isComplemented) := by
  cases complemented : s.isComplemented <;> simp [Signal.onTable, complemented, v.bit_not lt]

/-- The majority table of fan-ins holds the majority of the fan-ins' values: their value is the
bit of their node's table. -/
theorem Fanins.bit_majTable {f : Fanins} {tab : Node → TruthTable}
    (valid : ∀ s ∈ f.toList, Valid n (tab s.node)) (run : f.majTable tab = .ok t) (lt : m < 2 ^ n) :
    t.bit m = f.eval fun node => (tab node).bit m := by
  have va := valid f.a (by simp [Fanins.toList])
  have vb := valid f.b (by simp [Fanins.toList])
  have vc := valid f.c (by simp [Fanins.toList])
  rw [bit_maj (f.a.onTable_valid va) (f.b.onTable_valid vb) (f.c.onTable_valid vc) run lt,
    f.a.bit_onTable va lt, f.b.bit_onTable vb lt, f.c.bit_onTable vc lt]
  rfl

end MajorityGraph
