import Mathlib.Algebra.BigOperators.Group.Finset.Basic
import MajorityGraph.Proofs.TruthTable.Ones
import MajorityGraph.Proofs.TruthTable.Bits
import MajorityGraph.Proofs.TruthTable.Tests

/-!
The Boolean algebra of truth tables: every table the library builds is `Valid`, and its
operations and tests act bit by bit (`Obtained.boolean_algebra`).
-/

namespace MajorityGraph.TruthTable

variable {n m : Nat} {t a b c : TruthTable}

/-! ### Bits above the values -/

/-- Positions `2 ^ n` to 63 of a single word hold no value. -/
theorem liveMask_getLsbD_of_le (few : n < 6) {k : Nat} (le : 2 ^ n ≤ k) (lt : k < 64) :
    (liveMask n).toBitVec.getLsbD k = false := by
  have all : ∀ n < 6, ∀ k < 64, 2 ^ n ≤ k → (liveMask n).toBitVec.getLsbD k = false := by decide
  exact all n few k lt le

/-- From six variables on, the words hold exactly the `2 ^ n` values. -/
theorem wordCount_of_ge (ge : 6 ≤ n) : 64 * wordCount n = 2 ^ n := by
  obtain ⟨k, rfl⟩ : ∃ k, n = 6 + k := ⟨n - 6, by omega⟩
  have pos : 1 ≤ 2 ^ k := Nat.one_le_two_pow
  simp only [wordCount, Nat.pow_add]
  omega

/-- A table as the library builds it has no bit set above its values. -/
theorem Valid.bit_of_le (v : Valid n t) (le : 2 ^ n ≤ m) : t.bit m = false := by
  rw [bit_eq_getLsbD]
  by_cases inside : m / 64 < wordCount n
  · -- only the single word of a table over fewer than six variables has such positions
    have few : n < 6 := by
      by_contra many
      have words := wordCount_of_ge (Nat.le_of_not_lt many)
      omega
    have small : m < 64 := by rw [wordCount_of_lt few] at inside; omega
    have masked := congrArg (fun w : UInt64 => w.toBitVec.getLsbD m) (v.masked 0)
    simp only [UInt64.toBitVec_and, BitVec.getLsbD_and, liveMask_getLsbD_of_le few le small,
      Bool.and_false] at masked
    rw [Nat.div_eq_of_lt small, Nat.mod_eq_of_lt small]
    exact masked.symm
  · have beyond : t.word (m / 64) = 0 := by
      simp [word, Array.getD_eq_getD_getElem?,
        Array.getElem?_eq_none (v.fits.2 ▸ Nat.le_of_not_lt inside)]
    simp [beyond]

/-- Bit `k` of word `i` is the value under assignment `64 * i + k`. -/
theorem testBit_word (t : TruthTable) (i : Nat) {k : Nat} (lt : k < 64) :
    (t.word i).toNat.testBit k = t.bit (64 * i + k) := by
  rw [bit_eq_getLsbD, show (64 * i + k) / 64 = i by omega, show (64 * i + k) % 64 = k by omega,
    ← UInt64.toNat_toBitVec, BitVec.testBit_toNat]

/-- Two tables as the library builds them over `n` variables are equal exactly when their bits
agree on the `2 ^ n` values. -/
theorem Valid.eq_iff_bits (va : Valid n a) (vb : Valid n b) :
    a = b ↔ ∀ m < 2 ^ n, a.bit m = b.bit m := by
  refine ⟨fun same _ _ => same ▸ rfl, fun bits => Valid.ext va vb fun i _ => word_ext fun k lt => ?_⟩
  rw [← BitVec.getLsbD_eq_getElem, ← BitVec.getLsbD_eq_getElem, ← BitVec.testBit_toNat,
    ← BitVec.testBit_toNat, UInt64.toNat_toBitVec, UInt64.toNat_toBitVec, testBit_word a i lt,
    testBit_word b i lt]
  -- a position past the values holds no bit in either table
  by_cases value : 64 * i + k < 2 ^ n
  · exact bits _ value
  · rw [va.bit_of_le (Nat.le_of_not_lt value), vb.bit_of_le (Nat.le_of_not_lt value)]

/-! ### Reading a table -/

theorem getBit_of_lt (fits : Fits n t) (lt : m < 2 ^ n) : t.getBit m = .ok (t.bit m) := by
  simp [getBit, numBits, fits.1, lt]

/-! ### The operations word by word -/

section Zip

variable {f : UInt64 → UInt64 → UInt64} {g : Bool → Bool → Bool}

/-- An operation on words that works bit by bit through `g`. -/
def Bitwise (f : UInt64 → UInt64 → UInt64) (g : Bool → Bool → Bool) : Prop :=
  ∀ x y k, (f x y).toBitVec.getLsbD k = g (x.toBitVec.getLsbD k) (y.toBitVec.getLsbD k)

theorem bitwise_and : Bitwise (· &&& ·) (· && ·) := fun x y k => by simp

theorem bitwise_or : Bitwise (· ||| ·) (· || ·) := fun x y k => by simp

theorem bitwise_xor : Bitwise (· ^^^ ·) (· ^^ ·) := fun x y k => by simp

theorem zipWords_of_valid (va : Valid n a) (vb : Valid n b) :
    zipWords f a b = .ok ⟨n, Array.zipWith f a.words b.words⟩ := by
  simp [zipWords, va.fits.1, vb.fits.1]

theorem word_zipWith (va : Valid n a) (vb : Valid n b) (i : Nat) :
    (⟨n, Array.zipWith f a.words b.words⟩ : TruthTable).word i =
      if i < wordCount n then f (a.word i) (b.word i) else 0 := by
  have sa := va.fits.2
  have sb := vb.fits.2
  split
  · rename_i lt
    simp [word, Array.getD_eq_getD_getElem?, Array.getElem?_zipWith,
      Array.getElem?_eq_getElem (show i < a.words.size by omega),
      Array.getElem?_eq_getElem (show i < b.words.size by omega)]
  · rename_i ge
    simp [word, Array.getD_eq_getD_getElem?, Array.getElem?_zipWith,
      Array.getElem?_eq_none (show a.words.size ≤ i by omega)]

/-- A bitwise operation that keeps zero bits zero keeps a table over `n` variables within its
values. -/
theorem Valid.zipWords (bitwise : Bitwise f g) (zero : g false false = false) (va : Valid n a)
    (vb : Valid n b) : Valid n ⟨n, Array.zipWith f a.words b.words⟩ := by
  refine ⟨⟨rfl, by simp [va.fits.2, vb.fits.2]⟩, fun i => ?_⟩
  rw [word_zipWith va vb]
  split
  · apply word_ext
    intro k lt
    have bitA := congrArg (fun w : UInt64 => w.toBitVec.getLsbD k) (va.masked i)
    have bitB := congrArg (fun w : UInt64 => w.toBitVec.getLsbD k) (vb.masked i)
    simp only [UInt64.toBitVec_and, BitVec.getLsbD_and] at bitA bitB
    rw [← BitVec.getLsbD_eq_getElem, ← BitVec.getLsbD_eq_getElem, UInt64.toBitVec_and,
      BitVec.getLsbD_and, bitwise]
    -- a position outside the mask is clear in both operands
    cases mask : (liveMask n).toBitVec.getLsbD k
    · simp only [mask, Bool.and_false] at bitA bitB
      rw [← bitA, ← bitB, zero, Bool.false_and]
    · rw [Bool.and_true]
  · exact UInt64.zero_and

/-- A bitwise operation of tables over `n` variables takes every value through `g`. -/
theorem bit_zipWords (bitwise : Bitwise f g) (va : Valid n a) (vb : Valid n b) (lt : m < 2 ^ n) :
    (⟨n, Array.zipWith f a.words b.words⟩ : TruthTable).bit m = g (a.bit m) (b.bit m) := by
  rw [bit_eq_getLsbD, word_zipWith va vb, if_pos (div_lt_wordCount lt), bitwise, ← bit_eq_getLsbD,
    ← bit_eq_getLsbD]

end Zip

/-! ### Setting a bit -/

/-- A word lies within a mask when its set bits are set in the mask. -/
theorem and_eq_self_of_bits {x y : UInt64}
    (within : ∀ k < 64, x.toBitVec.getLsbD k = true → y.toBitVec.getLsbD k = true) : x &&& y = x := by
  apply word_ext
  intro k lt
  rw [← BitVec.getLsbD_eq_getElem, ← BitVec.getLsbD_eq_getElem, UInt64.toBitVec_and,
    BitVec.getLsbD_and]
  cases set : x.toBitVec.getLsbD k
  · rfl
  · rw [within k lt set, Bool.and_true]

/-- A bit that the mask clears is clear in a word within the mask. -/
theorem getLsbD_of_masked {x y : UInt64} (masked : x &&& y = x) {k : Nat}
    (clear : y.toBitVec.getLsbD k = false) : x.toBitVec.getLsbD k = false := by
  have bit := congrArg (fun w : UInt64 => w.toBitVec.getLsbD k) masked
  simp only [UInt64.toBitVec_and, BitVec.getLsbD_and, clear, Bool.and_false] at bit
  exact bit.symm

/-- The word of `setBit` has bit `k` set exactly at `k`. -/
theorem getLsbD_one_shiftLeft {k j : Nat} (lt : k < 64) :
    ((1 : UInt64) <<< k.toUInt64).toBitVec.getLsbD j = decide (k = j) := by
  have shift : (k.toUInt64).toNat % 64 = k := by simp; omega
  rw [← BitVec.testBit_toNat, UInt64.toNat_toBitVec, UInt64.toNat_shiftLeft, shift,
    UInt64.toNat_one, Nat.one_shiftLeft, Nat.mod_eq_of_lt (Nat.pow_lt_pow_right (by decide) lt),
    Nat.testBit_two_pow]

/-- Setting or clearing a value keeps a table over `n` variables as the library builds it. -/
theorem Valid.setBit (v : Valid n a) {x : Bool} (run : a.setBit m x = .ok t) : Valid n t := by
  unfold TruthTable.setBit at run
  split at run
  · rename_i inside
    cases run
    have lt : m < 2 ^ n := by simpa [numBits, v.fits.1] using inside
    have index : m / 64 < a.words.size := v.fits.2 ▸ div_lt_wordCount lt
    -- the one bit set stands within the mask
    have bitMasked : (1 : UInt64) <<< (m % 64).toUInt64 &&& liveMask n =
        (1 : UInt64) <<< (m % 64).toUInt64 :=
      and_eq_self_of_bits fun k _ set => by
        rw [getLsbD_one_shiftLeft (Nat.mod_lt _ (by decide)), decide_eq_true_iff] at set
        exact set ▸ liveMask_getLsbD lt
    refine ⟨⟨v.fits.1, by simp [v.fits.2]⟩, fun i => ?_⟩
    simp only [word, Array.getD_eq_getD_getElem?, Array.getElem?_modify]
    split
    · rename_i same
      subst same
      simp only [Array.getElem?_eq_getElem index, Option.map_some, Option.getD_some]
      have wordMasked := v.masked (m / 64)
      simp only [word, Array.getD_eq_getD_getElem?, Array.getElem?_eq_getElem index,
        Option.getD_some] at wordMasked
      -- a set bit of the new word is a set bit of the old word or the bit set
      refine and_eq_self_of_bits fun k lt set => ?_
      cases mask : (liveMask n).toBitVec.getLsbD k
      · have old := getLsbD_of_masked wordMasked mask
        have new := getLsbD_of_masked bitMasked mask
        cases x <;> simp_all
      · rfl
    · simpa [word, Array.getD_eq_getD_getElem?] using v.masked i
  · cases run

/-! ### Sums over the bits -/

/-- Summing over the first `64 * w` positions is summing over `w` words, then over the 64
positions of each. -/
theorem sum_range_words (g : Nat → Nat) (w : Nat) :
    ∑ m ∈ Finset.range (64 * w), g m =
      ∑ i ∈ Finset.range w, ∑ k ∈ Finset.range 64, g (64 * i + k) := by
  induction w with
  | zero => simp
  | succ w ih =>
    rw [Nat.mul_succ, Finset.sum_range_add, ih,
      Finset.sum_range_succ (fun i => ∑ k ∈ Finset.range 64, g (64 * i + k))]

/-- Over a table as the library builds it, a sum over the positions of its words that adds nothing
at a clear bit is a sum over its values. -/
theorem Valid.sum_words (v : Valid n t) (g : Bool → Nat → Nat) (clear : ∀ m, g false m = 0) :
    ∑ i ∈ Finset.range (wordCount n), ∑ k ∈ Finset.range 64, g (t.bit (64 * i + k)) (64 * i + k) =
      ∑ m ∈ Finset.range (2 ^ n), g (t.bit m) m := by
  rw [← sum_range_words fun m => g (t.bit m) m]
  have cover : 2 ^ n ≤ 64 * wordCount n := by
    by_cases few : n < 6
    · rw [wordCount_of_lt few]
      exact Nat.le_of_lt (Nat.pow_lt_pow_right (by decide) few)
    · rw [wordCount_of_ge (Nat.le_of_not_lt few)]
  obtain ⟨extra, total⟩ : ∃ extra, 64 * wordCount n = 2 ^ n + extra := ⟨_, (Nat.add_sub_cancel' cover).symm⟩
  -- the positions past the values hold clear bits
  have past : ∑ x ∈ Finset.range extra, g (t.bit (2 ^ n + x)) (2 ^ n + x) = 0 :=
    Finset.sum_eq_zero fun x _ => by rw [v.bit_of_le (Nat.le_add_right _ _), clear]
  rw [total, Finset.sum_range_add, past, Nat.add_zero]

theorem foldl_add_eq_sum {α : Type} (h : α → Nat) (l : List α) (init : Nat) :
    l.foldl (fun acc x => acc + h x) init = init + (l.map h).sum := by
  induction l generalizing init with
  | nil => simp
  | cons x l ih => simp [ih, Nat.add_assoc]

theorem sum_map_eq_sum_range {α : Type} (h : α → Nat) (d : α) :
    ∀ l : List α, (l.map h).sum = ∑ i ∈ Finset.range l.length, h (l.getD i d)
  | [] => rfl
  | x :: l => by
    rw [List.map_cons, List.sum_cons, sum_map_eq_sum_range h d l, List.length_cons,
      Finset.sum_range_succ']
    simp [Nat.add_comm]

/-- The number of ones of a table is the sum of the counts of its words. -/
theorem countOnes_eq_sum (t : TruthTable) :
    t.countOnes = ∑ i ∈ Finset.range t.words.size, wordOnes (t.word i) := by
  rw [countOnes, ← Array.foldl_toList, foldl_add_eq_sum, Nat.zero_add, sum_map_eq_sum_range wordOnes 0,
    Array.length_toList]
  refine Finset.sum_congr rfl fun i _ => ?_
  simp [word, Array.getD_eq_getD_getElem?, List.getD_eq_getElem?_getD]

/-- The number of ones of a table as the library builds it is the number of its set bits. -/
theorem Valid.countOnes_eq (v : Valid n t) :
    t.countOnes = ((Finset.range (2 ^ n)).filter fun m => t.bit m = true).card := by
  rw [countOnes_eq_sum, v.fits.2, Finset.card_filter,
    ← v.sum_words (fun b _ => if b = true then 1 else 0) fun _ => rfl]
  refine Finset.sum_congr rfl fun i _ => ?_
  rw [WordCount.wordOnes_eq_sum]
  refine Finset.sum_congr rfl fun k member => ?_
  rw [testBit_word t i (Finset.mem_range.mp member)]
  cases t.bit (64 * i + k) <;> rfl

/-! ### Tests on tables -/

/-- A table as the library builds it is constant 0 exactly when no bit is set. -/
theorem Valid.isConst0_eq (v : Valid n t) : t.isConst0 = decide (∀ m < 2 ^ n, t.bit m = false) := by
  refine eq_decide_of_iff ((isConst0_iff v).trans ((v.eq_iff_bits (zeros_valid n)).trans ?_))
  simp only [bit_zeros]

/-- A table as the library builds it is constant 1 exactly when every bit is set. -/
theorem Valid.isConst1_eq (v : Valid n t) : t.isConst1 = decide (∀ m < 2 ^ n, t.bit m = true) := by
  refine eq_decide_of_iff ((isConst1_iff v).trans ((v.eq_iff_bits (zeros_valid n).not).trans ?_))
  refine forall₂_congr fun m lt => ?_
  rw [(zeros_valid n).bit_not lt, bit_zeros, Bool.not_false]

/-- `a` implies `b` exactly when every bit set in `a` is set in `b`. -/
theorem Valid.implies_eq (va : Valid n a) (vb : Valid n b) :
    a.implies b = .ok (decide (∀ m < 2 ^ n, a.bit m = true → b.bit m = true)) := by
  obtain ⟨built, vt⟩ := va.maj (zeros_valid n).not vb
  rw [TruthTable.implies_eq va vb, built]
  congr 1
  refine decide_eq_decide.mpr ((Except.ok.injEq _ _).to_iff.trans ((vt.eq_iff_bits vb).trans ?_))
  refine forall₂_congr fun m lt => ?_
  rw [bit_maj va (zeros_valid n).not vb built lt, (zeros_valid n).bit_not lt, bit_zeros]
  cases a.bit m <;> cases b.bit m <;> decide

/-- Two tables as the library builds them over `n` variables are equal exactly when their bits
agree. -/
theorem Valid.beq_eq (va : Valid n a) (vb : Valid n b) :
    (a == b) = decide (∀ m < 2 ^ n, a.bit m = b.bit m) :=
  eq_decide_of_iff (beq_iff_eq.trans (va.eq_iff_bits vb))

/-! ### The operations bit by bit -/

/-- Over tables as the library builds them, each operation succeeds, and at every value it is
the Boolean operation of the operands' values there. -/
theorem Valid.getBit_ops (va : Valid n a) (vb : Valid n b) (vc : Valid n c) (lt : m < 2 ^ n) :
    a.getBit m = .ok (a.bit m) ∧ a.not.getBit m = .ok (!a.bit m) ∧
      (a.and b >>= (·.getBit m)) = .ok (a.bit m && b.bit m) ∧
      (a.or b >>= (·.getBit m)) = .ok (a.bit m || b.bit m) ∧
      (a.xor b >>= (·.getBit m)) = .ok (a.bit m ^^ b.bit m) ∧
      (TruthTable.maj a b c >>= (·.getBit m)) = .ok (maj3 (a.bit m) (b.bit m) (c.bit m)) := by
  have zipped : ∀ {f : UInt64 → UInt64 → UInt64} {g : Bool → Bool → Bool}, Bitwise f g →
      g false false = false → (TruthTable.zipWords f a b >>= (·.getBit m)) = .ok (g (a.bit m) (b.bit m)) :=
    fun bitwise zero => by
      rw [zipWords_of_valid va vb, except_ok_bind, getBit_of_lt (va.zipWords bitwise zero vb).fits lt,
        bit_zipWords bitwise va vb lt]
  obtain ⟨built, vt⟩ := va.maj vb vc
  refine ⟨getBit_of_lt va.fits lt, ?_, zipped bitwise_and rfl, zipped bitwise_or rfl,
    zipped bitwise_xor rfl, ?_⟩
  · rw [getBit_of_lt va.not.fits lt, va.bit_not lt]
  · rw [built, except_ok_bind, getBit_of_lt vt.fits lt, bit_maj va vb vc built lt]

/-! ### The tables the library builds -/

/-- The tables obtained from the constructors and operations of the library: a new table, a
constant, a projection, a table with one value set or cleared, and the complement, conjunction,
disjunction, exclusive or and majority of such tables. -/
inductive Obtained : TruthTable → Prop
  | new {n : Nat} {t : TruthTable} : TruthTable.new n = .ok t → Obtained t
  | constant {n : Nat} {v : Bool} {t : TruthTable} : TruthTable.constant n v = .ok t → Obtained t
  | nthVar {n var : Nat} {t : TruthTable} : TruthTable.nthVar n var = .ok t → Obtained t
  | setBit {a t : TruthTable} {m : Nat} {v : Bool} : Obtained a → a.setBit m v = .ok t → Obtained t
  | not {a : TruthTable} : Obtained a → Obtained a.not
  | and {a b t : TruthTable} : Obtained a → Obtained b → a.and b = .ok t → Obtained t
  | or {a b t : TruthTable} : Obtained a → Obtained b → a.or b = .ok t → Obtained t
  | xor {a b t : TruthTable} : Obtained a → Obtained b → a.xor b = .ok t → Obtained t
  | maj {a b c t : TruthTable} :
      Obtained a → Obtained b → Obtained c → TruthTable.maj a b c = .ok t → Obtained t

theorem new_eq_ok (run : TruthTable.new n = .ok t) : n ≤ maxVars ∧ t = zeros n := by
  by_cases narrow : n ≤ maxVars
  · rw [new_of_le narrow] at run
    cases run
    exact ⟨narrow, rfl⟩
  · rw [new_of_gt (Nat.lt_of_not_le narrow)] at run
    cases run

theorem constant_valid {v : Bool} (run : constant n v = .ok t) : Valid n t ∧ n ≤ maxVars := by
  by_cases narrow : n ≤ maxVars
  · simp only [constant, new_of_le narrow, except_ok_bind] at run
    cases run
    cases v
    · exact ⟨zeros_valid n, narrow⟩
    · exact ⟨masked_valid (by simp [Fits, zeros]), narrow⟩
  · rw [constant_of_gt v (Nat.lt_of_not_le narrow)] at run
    cases run

theorem nthVar_narrow {var : Nat} (run : nthVar n var = .ok t) : n ≤ maxVars := by
  by_contra wide
  by_cases inRange : var < n
  · have refused : nthVar n var = .error (.tooManyVariables n) := by
      simp [nthVar, Nat.not_le.mpr inRange, new_of_gt (Nat.lt_of_not_le wide), bind, Except.bind]
    rw [refused] at run
    cases run
  · have refused : nthVar n var = .error (.variableOutOfRange var n) := by
      simp [nthVar, Nat.le_of_not_lt inRange, throw, throwThe, MonadExceptOf.throw, bind, Except.bind]
    rw [refused] at run
    cases run

theorem setBit_numVars {x : Bool} (run : a.setBit m x = .ok t) : t.numVars = a.numVars := by
  unfold TruthTable.setBit at run
  split at run
  · cases run
    rfl
  · cases run

theorem zipWords_eq_ok {f : UInt64 → UInt64 → UInt64} (run : zipWords f a b = .ok t) :
    b.numVars = a.numVars ∧ t = ⟨a.numVars, Array.zipWith f a.words b.words⟩ := by
  unfold zipWords at run
  split at run
  · rename_i same
    cases run
    exact ⟨same.symm, rfl⟩
  · cases run

theorem majWidths_eq_ok (run : TruthTable.maj a b c = .ok t) :
    b.numVars = a.numVars ∧ c.numVars = a.numVars := by
  unfold TruthTable.maj at run
  cases widths : majWidths a b c with
  | error e =>
    rw [widths] at run
    cases run
  | ok u =>
    unfold majWidths at widths
    by_cases ab : a.numVars = b.numVars
    · by_cases ac : a.numVars = c.numVars
      · exact ⟨ab.symm, ac.symm⟩
      · have bc : ¬b.numVars = c.numVars := ab ▸ ac
        simp [ab, bc, throw, throwThe, MonadExceptOf.throw] at widths
    · simp [ab, bind, Except.bind, throw, throwThe, MonadExceptOf.throw] at widths

/-- Every table the library builds has at most `maxVars` variables, all of its words, and no bit set
above its values: each constructor makes one, and each operation keeps it. -/
theorem Obtained.valid (obtained : Obtained t) : Valid t.numVars t ∧ t.numVars ≤ maxVars := by
  induction obtained with
  | new run =>
    obtain ⟨narrow, rfl⟩ := new_eq_ok run
    exact ⟨zeros_valid _, narrow⟩
  | constant run =>
    obtain ⟨valid, narrow⟩ := constant_valid run
    rw [valid.fits.1]
    exact ⟨valid, narrow⟩
  | nthVar run =>
    have valid := nthVar_valid run
    rw [valid.fits.1]
    exact ⟨valid, nthVar_narrow run⟩
  | setBit _ run ih =>
    rw [setBit_numVars run]
    exact ⟨ih.1.setBit run, ih.2⟩
  | not _ ih => exact ⟨(not_fits ih.1.fits).1 ▸ ih.1.not, (not_fits ih.1.fits).1 ▸ ih.2⟩
  | and _ _ run iha ihb | or _ _ run iha ihb | xor _ _ run iha ihb =>
    obtain ⟨same, rfl⟩ := zipWords_eq_ok run
    exact ⟨iha.1.zipWords (by first | exact bitwise_and | exact bitwise_or | exact bitwise_xor) rfl
      (same ▸ ihb.1), iha.2⟩
  | maj _ _ _ run iha ihb ihc =>
    obtain ⟨sameB, sameC⟩ := majWidths_eq_ok run
    obtain ⟨built, valid⟩ := iha.1.maj (sameB ▸ ihb.1) (sameC ▸ ihc.1)
    rw [built] at run
    cases run
    exact ⟨valid, iha.2⟩

/-- Truth tables are a Boolean algebra on their bits. Tables over `n` variables obtained from the
library's constructors and operations have `max (2 ^ n / 64) 1` words, with no bit set in the
first word above its `2 ^ n` values. At every value, reading a table gives its bit, and the
complement, the conjunction, the disjunction, the exclusive or and the majority give the
Boolean operation of the operands' bits. The number of ones is the number of set bits, a table
is constant 0 or constant 1 exactly when no bit or every bit is set, `a` implies `b` exactly when
every bit of `a` is a bit of `b`, and two tables are equal exactly when their bits agree. -/
theorem Obtained.boolean_algebra (oa : Obtained a) (ob : Obtained b) (oc : Obtained c)
    (na : a.numVars = n) (nb : b.numVars = n) (nc : c.numVars = n) :
    n ≤ maxVars ∧ a.words.size = max (2 ^ n / 64) 1 ∧
      (n < 6 → ∀ k, 2 ^ n ≤ k → k < 64 → (a.word 0).toNat.testBit k = false) ∧
      (∀ m < 2 ^ n, a.getBit m = .ok (a.bit m) ∧ a.not.getBit m = .ok (!a.bit m) ∧
        (a.and b >>= (·.getBit m)) = .ok (a.bit m && b.bit m) ∧
        (a.or b >>= (·.getBit m)) = .ok (a.bit m || b.bit m) ∧
        (a.xor b >>= (·.getBit m)) = .ok (a.bit m ^^ b.bit m) ∧
        (TruthTable.maj a b c >>= (·.getBit m)) = .ok (maj3 (a.bit m) (b.bit m) (c.bit m))) ∧
      a.countOnes = ((Finset.range (2 ^ n)).filter fun m => a.bit m = true).card ∧
      a.isConst0 = decide (∀ m < 2 ^ n, a.bit m = false) ∧
      a.isConst1 = decide (∀ m < 2 ^ n, a.bit m = true) ∧
      a.implies b = .ok (decide (∀ m < 2 ^ n, a.bit m = true → b.bit m = true)) ∧
      (a == b) = decide (∀ m < 2 ^ n, a.bit m = b.bit m) := by
  obtain ⟨va, narrow⟩ := oa.valid
  have vb := ob.valid.1
  have vc := oc.valid.1
  rw [na] at va narrow
  rw [nb] at vb
  rw [nc] at vc
  refine ⟨narrow, va.fits.2, fun _ k above lt => ?_, fun m lt => va.getBit_ops vb vc lt,
    va.countOnes_eq, va.isConst0_eq, va.isConst1_eq, va.implies_eq vb, va.beq_eq vb⟩
  rw [testBit_word a 0 lt, Nat.mul_zero, Nat.zero_add]
  exact va.bit_of_le above

/-- The three projections over three variables are a Boolean algebra on their bits. -/
theorem boolean_algebra_of_projections :
    ∃ a b c, nthVar 3 0 = .ok a ∧ nthVar 3 1 = .ok b ∧ nthVar 3 2 = .ok c ∧
      Obtained a ∧ Obtained b ∧ Obtained c ∧ a.numVars = 3 ∧ b.numVars = 3 ∧ c.numVars = 3 ∧
      3 ≤ maxVars ∧ a.words.size = max (2 ^ 3 / 64) 1 ∧
      (3 < 6 → ∀ k, 2 ^ 3 ≤ k → k < 64 → (a.word 0).toNat.testBit k = false) ∧
      (∀ m < 2 ^ 3, a.getBit m = .ok (a.bit m) ∧ a.not.getBit m = .ok (!a.bit m) ∧
        (a.and b >>= (·.getBit m)) = .ok (a.bit m && b.bit m) ∧
        (a.or b >>= (·.getBit m)) = .ok (a.bit m || b.bit m) ∧
        (a.xor b >>= (·.getBit m)) = .ok (a.bit m ^^ b.bit m) ∧
        (TruthTable.maj a b c >>= (·.getBit m)) = .ok (maj3 (a.bit m) (b.bit m) (c.bit m))) ∧
      a.countOnes = ((Finset.range (2 ^ 3)).filter fun m => a.bit m = true).card ∧
      a.isConst0 = decide (∀ m < 2 ^ 3, a.bit m = false) ∧
      a.isConst1 = decide (∀ m < 2 ^ 3, a.bit m = true) ∧
      a.implies b = .ok (decide (∀ m < 2 ^ 3, a.bit m = true → b.bit m = true)) ∧
      (a == b) = decide (∀ m < 2 ^ 3, a.bit m = b.bit m) := by
  obtain ⟨a, runA, fitsA⟩ := nthVar_of_lt (by decide : 0 < 3) (by decide)
  obtain ⟨b, runB, fitsB⟩ := nthVar_of_lt (by decide : 1 < 3) (by decide)
  obtain ⟨c, runC, fitsC⟩ := nthVar_of_lt (by decide : 2 < 3) (by decide)
  exact ⟨a, b, c, runA, runB, runC, .nthVar runA, .nthVar runB, .nthVar runC, fitsA.1, fitsB.1,
    fitsC.1, Obtained.boolean_algebra (.nthVar runA) (.nthVar runB) (.nthVar runC) fitsA.1 fitsB.1 fitsC.1⟩

/-! ### Projections -/

theorem testBit_eq_shiftRight_and_one (m var : Nat) : m.testBit var = ((m >>> var) &&& 1 == 1) := by
  rw [Nat.testBit_eq_decide_div_mod_eq, Nat.shiftRight_eq_div_pow, Nat.and_one_is_mod]
  rcases Nat.mod_two_eq_zero_or_one (m / 2 ^ var) with parity | parity <;> simp [parity]

/-- The projection onto variable `var` of `n ≤ maxVars` variables. A variable below six is its
pattern word, cut to the values; a variable from six on fills word `i` exactly when bit `var - 6`
of `i` is set. Either way the value under assignment `m` is bit `var` of `m`. -/
theorem nthVar_projection {n var : Nat} (narrow : n ≤ maxVars) (inRange : var < n) :
    ∃ t, nthVar n var = .ok t ∧
      (∀ i < wordCount n, t.word i =
        if var < 6 then projection var &&& liveMask n
        else if i / 2 ^ (var - 6) % 2 = 1 then allOnes else 0) ∧
      ∀ m < 2 ^ n, t.getBit m = .ok ((m >>> var) &&& 1 == 1) := by
  obtain ⟨t, run, fits⟩ := nthVar_of_lt inRange narrow
  refine ⟨t, run, fun i lt => ?_, fun m lt => ?_⟩
  · by_cases small : var < 6
    · simp only [nthVar, Nat.not_le.mpr inRange, new_of_le narrow, small] at run
      cases run
      rw [if_pos small]
      by_cases few : n < 6
      · -- a single word, cut to its values
        have zero : i = 0 := by rw [wordCount_of_lt few] at lt; omega
        subst zero
        simp [masked, word, zeros, few, wordCount_of_lt few, Array.getD_eq_getD_getElem?]
      · -- every word is the pattern
        simp [masked, word, zeros, few, Array.getD_eq_getD_getElem?, lt, liveMask_of_ge (Nat.le_of_not_lt few),
          and_allOnes]
    · simp only [nthVar, Nat.not_le.mpr inRange, new_of_le narrow, small] at run
      cases run
      rw [if_neg small, word_ofFn, dif_pos (by simpa [zeros] using lt)]
      simp
  · rw [getBit_of_lt fits lt, bit_nthVar run lt, testBit_eq_shiftRight_and_one]

/-- The projection onto the highest of eight variables fills the upper two of its four words. -/
theorem projection_of_last_of_eight :
    8 ≤ maxVars ∧ 7 < 8 ∧ ∃ t, nthVar 8 7 = .ok t ∧
      (∀ i < wordCount 8, t.word i =
        if 7 < 6 then projection 7 &&& liveMask 8
        else if i / 2 ^ (7 - 6) % 2 = 1 then allOnes else 0) ∧
      ∀ m < 2 ^ 8, t.getBit m = .ok ((m >>> 7) &&& 1 == 1) :=
  ⟨by decide, by decide, nthVar_projection (by decide) (by decide)⟩

end MajorityGraph.TruthTable
