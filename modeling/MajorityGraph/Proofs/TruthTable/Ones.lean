import Mathlib.Algebra.BigOperators.Group.Finset.Basic
import Mathlib.Tactic.Ring
import MajorityGraph.TruthTable.Basic

/-! The set bits of a storage word: `wordOnes` counts them by field sums (`wordOnes_eq_sum`). -/

namespace MajorityGraph.TruthTable

namespace WordCount

/-- The number of set bits among the low `k` bits of `v`. -/
def lowOnes (v : Nat) : Nat → Nat
  | 0 => 0
  | k + 1 => v % 2 + lowOnes (v / 2) k

/-- The `k`-byte number whose every byte is `b`. -/
def rep (b : Nat) : Nat → Nat
  | 0 => 0
  | k + 1 => b + 256 * rep b k

/-- The first round: every pair of bits holds the number of its set bits. -/
def pairSums (v k : Nat) : Nat := v - (v >>> 1 &&& rep 0x55 k)

/-- The second round: every nibble holds the number of its set bits. -/
def nibbleSums (v k : Nat) : Nat :=
  (pairSums v k &&& rep 0x33 k) + (pairSums v k >>> 2 &&& rep 0x33 k)

/-- The third round: every byte holds the number of its set bits. -/
def byteSums (v k : Nat) : Nat := (nibbleSums v k + nibbleSums v k >>> 4) &&& rep 0x0F k

/-- The sum of the `k` low bytes of `v`. -/
def byteSum (v : Nat) : Nat → Nat
  | 0 => 0
  | k + 1 => v % 256 + byteSum (v / 256) k

@[simp] theorem rep_zero (b : Nat) : rep b 0 = 0 := rfl

@[simp] theorem rep_succ (b k : Nat) : rep b (k + 1) = b + 256 * rep b k := rfl

theorem rep_shiftLeft (b s k : Nat) : rep b k <<< s = rep (b <<< s) k := by
  simp only [Nat.shiftLeft_eq]
  induction k with
  | zero => simp
  | succ k ih => rw [rep_succ, rep_succ, Nat.add_mul, Nat.mul_assoc, ih]

/-- The repeated byte adds its top byte last. -/
theorem rep_succ_top (b k : Nat) : rep b (k + 1) = rep b k + 256 ^ k * b := by
  induction k with
  | zero => simp
  | succ k ih =>
    have step : b + 256 * rep b k = rep b k + 256 ^ k * b := ih
    rw [rep_succ b (k + 1), ih, Nat.mul_add, ← Nat.add_assoc, step, Nat.pow_succ]
    ring

/-! ### Bytewise operations -/

/-- A conjunction of numbers splits at the byte boundary. -/
theorem land_bytes {lo hi lo' hi' : Nat} (lt : lo < 256) (lt' : lo' < 256) :
    (lo + 256 * hi) &&& (lo' + 256 * hi') = (lo &&& lo') + 256 * (hi &&& hi') := by
  have low : ((lo + 256 * hi) &&& (lo' + 256 * hi')) % 2 ^ 8 = lo &&& lo' := by
    rw [Nat.and_mod_two_pow, show (lo + 256 * hi) % 2 ^ 8 = lo by omega,
      show (lo' + 256 * hi') % 2 ^ 8 = lo' by omega]
  have high : ((lo + 256 * hi) &&& (lo' + 256 * hi')) / 2 ^ 8 = hi &&& hi' := by
    rw [Nat.and_div_two_pow, show (lo + 256 * hi) / 2 ^ 8 = hi by omega,
      show (lo' + 256 * hi') / 2 ^ 8 = hi' by omega]
  rw [← low, ← high]
  exact (Nat.mod_add_div _ _).symm

/-- Shifting down and masking is masking by the shifted-up mask, shifted down. -/
theorem shiftRight_land_shiftLeft (v m s : Nat) : (v >>> s &&& m) <<< s = v &&& m <<< s := by
  apply Nat.eq_of_testBit_eq
  intro j
  by_cases above : s ≤ j
  · simp [Nat.testBit_shiftLeft, Nat.testBit_and, Nat.testBit_shiftRight, above,
      Nat.add_sub_cancel' above]
  · simp [Nat.testBit_shiftLeft, Nat.testBit_and, above]

/-- `f v k`, over the `k` low bytes of `v`, works one byte at a time: over `k + 1` bytes it is
`f` of the low byte below `f` of the other bytes. -/
def ByteLocal (f : Nat → Nat → Nat) : Prop :=
  ∀ v k, f v (k + 1) = f (v % 256) 1 + 256 * f (v / 256) k

section ByteLocal

variable {f g : Nat → Nat → Nat}

theorem byteLocal_id : ByteLocal fun v _ => v := fun v _ => (Nat.mod_add_div v 256).symm

theorem byteLocal_rep (b : Nat) : ByteLocal fun _ k => rep b k := fun _ k => by simp

theorem ByteLocal.add (hf : ByteLocal f) (hg : ByteLocal g) : ByteLocal fun v k => f v k + g v k := by
  intro v k
  dsimp only
  rw [hf v k, hg v k]
  omega

theorem ByteLocal.sub (hf : ByteLocal f) (hg : ByteLocal g) (le : ∀ v k, g v k ≤ f v k) :
    ByteLocal fun v k => f v k - g v k := by
  intro v k
  dsimp only
  have low := le (v % 256) 1
  have high := le (v / 256) k
  rw [hf v k, hg v k]
  omega

theorem ByteLocal.land (hf : ByteLocal f) (hg : ByteLocal g) (fByte : ∀ v < 256, f v 1 < 256)
    (gByte : ∀ v < 256, g v 1 < 256) : ByteLocal fun v k => f v k &&& g v k := by
  intro v k
  dsimp only
  rw [hf v k, hg v k, land_bytes (fByte _ (Nat.mod_lt _ (by decide))) (gByte _ (Nat.mod_lt _ (by decide)))]

/-- Shifting down within the bytes and masking off what came from the next byte works byte by
byte: shifted back up, it is a mask by a repeated byte. -/
theorem ByteLocal.shiftRight_land_rep (hf : ByteLocal f) (fByte : ∀ v < 256, f v 1 < 256)
    {m s : Nat} (fits : m <<< s < 256) : ByteLocal fun v k => f v k >>> s &&& rep m k := by
  have masked := hf.land (byteLocal_rep (m <<< s)) fByte fun _ _ => by simpa using fits
  have scale : ∀ x k, (x >>> s &&& rep m k) * 2 ^ s = x &&& rep (m <<< s) k := fun x k => by
    rw [← Nat.shiftLeft_eq, shiftRight_land_shiftLeft, rep_shiftLeft]
  intro v k
  apply Nat.eq_of_mul_eq_mul_right (Nat.two_pow_pos s)
  dsimp only
  rw [Nat.add_mul, Nat.mul_assoc, scale, scale, scale]
  exact masked v k

/-- A round that keeps every byte at most `b`, and gives 0 on no bytes, keeps every byte of a
longer number at most `b`. -/
theorem ByteLocal.le_rep (hf : ByteLocal f) {b : Nat} (byte : ∀ v < 256, f v 1 ≤ b)
    (none : ∀ v, f v 0 = 0) (v k : Nat) : f v k ≤ rep b k := by
  induction k generalizing v with
  | zero => simp [none]
  | succ k ih =>
    have low := byte (v % 256) (Nat.mod_lt _ (by decide))
    have high := ih (v / 256)
    rw [hf v k, rep_succ]
    omega

end ByteLocal

/-! ### The three rounds -/

set_option maxRecDepth 8192 in
/-- On one byte each round stays within the byte, and the last one holds the byte's number of set
bits. -/
theorem rounds_on_byte {v : Nat} (lt : v < 256) :
    pairSums v 1 < 256 ∧ nibbleSums v 1 ≤ 0x44 ∧ nibbleSums v 1 % 16 ≤ 4 ∧ byteSums v 1 ≤ 8 ∧
      byteSums v 1 = lowOnes v 8 := by
  have all : ∀ v : Fin 256, pairSums v 1 < 256 ∧ nibbleSums v 1 ≤ 0x44 ∧
      nibbleSums v 1 % 16 ≤ 4 ∧ byteSums v 1 ≤ 8 ∧ byteSums v 1 = lowOnes v 8 := by
    decide +kernel
  exact all ⟨v, lt⟩

theorem byteLocal_pairSums : ByteLocal pairSums :=
  byteLocal_id.sub (byteLocal_id.shiftRight_land_rep (fun _ lt => lt) (by decide))
    fun _ _ => Nat.le_trans Nat.and_le_left (Nat.shiftRight_le _ _)

theorem byteLocal_nibbleSums : ByteLocal nibbleSums :=
  (byteLocal_pairSums.land (byteLocal_rep _) (fun _ lt => (rounds_on_byte lt).1) fun _ _ => by decide).add
    (byteLocal_pairSums.shiftRight_land_rep (fun _ lt => (rounds_on_byte lt).1) (by decide))

theorem nibbleSums_mod_16 (v k : Nat) : nibbleSums v k % 16 ≤ 4 := by
  cases k with
  | zero => simp [nibbleSums]
  | succ k =>
    have low := (rounds_on_byte (Nat.mod_lt v (by decide : 256 > 0))).2.2.1
    rw [byteLocal_nibbleSums v k]
    omega

/-- The third round adds each nibble count to the one above it: the sum crosses into the next
byte only in its high nibble, which the mask clears. -/
theorem byteLocal_byteSums : ByteLocal byteSums := by
  intro v k
  have lowBound := (rounds_on_byte (Nat.mod_lt v (by decide : 256 > 0))).2.1
  have highMod := nibbleSums_mod_16 (v / 256) k
  simp only [byteSums, byteLocal_nibbleSums v k, rep_succ, rep_zero, Nat.mul_zero, Nat.add_zero,
    Nat.shiftRight_eq_div_pow]
  generalize nibbleSums (v % 256) 1 = lo at lowBound ⊢
  generalize nibbleSums (v / 256) k = hi at highMod ⊢
  rw [show lo + 256 * hi + (lo + 256 * hi) / 2 ^ 4 = (lo + lo / 2 ^ 4 + 16 * (hi % 16)) +
      256 * (hi + hi / 2 ^ 4) by omega,
    land_bytes (by omega) (by decide)]
  have clear : (lo + lo / 2 ^ 4 + 16 * (hi % 16)) &&& 15 = (lo + lo / 2 ^ 4) &&& 15 := by
    rw [show (15 : Nat) = 2 ^ 4 - 1 from rfl, Nat.and_two_pow_sub_one_eq_mod,
      Nat.and_two_pow_sub_one_eq_mod]
    omega
  rw [clear]

/-- Counting the low `a + b` bits is counting the low `a`, then the `b` above them. -/
theorem lowOnes_add (v a b : Nat) : lowOnes v (a + b) = lowOnes (v % 2 ^ a) a + lowOnes (v / 2 ^ a) b := by
  induction a generalizing v with
  | zero => simp [lowOnes]
  | succ a ih =>
    rw [Nat.add_right_comm, lowOnes, ih, lowOnes, Nat.pow_succ, Nat.mul_comm (2 ^ a),
      Nat.mod_mul_right_div_self, Nat.div_div_eq_div_mul, Nat.mod_mul_right_mod]
    omega

/-- The byte counts of the third round add up to the number of set bits. -/
theorem byteSum_byteSums (v k : Nat) : byteSum (byteSums v k) k = lowOnes v (8 * k) := by
  induction k generalizing v with
  | zero => simp [byteSum, lowOnes]
  | succ k ih =>
    have low := rounds_on_byte (Nat.mod_lt v (by decide : 256 > 0))
    rw [byteLocal_byteSums v k, byteSum,
      show (byteSums (v % 256) 1 + 256 * byteSums (v / 256) k) % 256 = byteSums (v % 256) 1 by omega,
      show (byteSums (v % 256) 1 + 256 * byteSums (v / 256) k) / 256 = byteSums (v / 256) k by omega,
      ih, low.2.2.2.2, show 8 * (k + 1) = 8 + 8 * k by omega, lowOnes_add]
    rfl

/-! ### Adding the bytes by a multiplication

Multiplying by `rep 1 (k + 1)` adds to byte `k` of the product the bytes `0` to `k` of the
multiplicand. Folding the lowest byte into the next leaves that top byte as it is, so the top
byte is the sum of the bytes as long as no partial sum carries. -/

/-- Folding the lowest byte of the multiplicand into the others keeps the top byte of its product
by `rep 1`. -/
theorem top_byte_fold (c k : Nat) :
    c * rep 1 (k + 2) / 256 ^ (k + 1) % 256 =
      (c % 256 + c / 256) * rep 1 (k + 1) / 256 ^ k % 256 := by
  obtain ⟨low, rest, lt, rfl⟩ : ∃ low rest, low < 256 ∧ c = low + 256 * rest :=
    ⟨c % 256, c / 256, Nat.mod_lt _ (by decide), (Nat.mod_add_div c 256).symm⟩
  have lowByte : (low + 256 * rest) % 256 = low := by omega
  have restBytes : (low + 256 * rest) / 256 = rest := by omega
  have expand : (low + 256 * rest) * rep 1 (k + 2) =
      (low + 256 * ((low + rest) * rep 1 (k + 1))) + 256 ^ (k + 1) * (256 * rest) :=
    calc (low + 256 * rest) * rep 1 (k + 2) = low * rep 1 (k + 2) + rest * (256 * rep 1 (k + 2)) := by
          ring
      _ = low * (1 + 256 * rep 1 (k + 1)) + rest * (256 * (rep 1 (k + 1) + 256 ^ (k + 1) * 1)) := by
          rw [← rep_succ, ← rep_succ_top]
      _ = _ := by ring
  rw [lowByte, restBytes, expand, Nat.add_mul_div_left _ _ (Nat.pow_pos (by decide)),
    Nat.add_mul_mod_self_left, Nat.pow_succ', ← Nat.div_div_eq_div_mul,
    show (low + 256 * ((low + rest) * rep 1 (k + 1))) / 256 = (low + rest) * rep 1 (k + 1) by omega]

/-- With no partial sum reaching 256, folding the lowest byte into the next keeps the sum of the
bytes. -/
theorem byteSum_fold {c k : Nat} (small : c % 256 + c / 256 % 256 < 256) :
    byteSum (c % 256 + c / 256) (k + 1) = byteSum c (k + 2) := by
  simp only [byteSum]
  rw [show (c % 256 + c / 256) % 256 = c % 256 + c / 256 % 256 by omega,
    show (c % 256 + c / 256) / 256 = c / 256 / 256 by omega, Nat.add_assoc]

/-- The top byte of the product by `rep 1 (k + 1)` is the sum of the `k + 1` low bytes, when that
sum is below 256. -/
theorem top_byte_eq_byteSum {c k : Nat} (small : byteSum c (k + 1) < 256) :
    c * rep 1 (k + 1) / 256 ^ k % 256 = byteSum c (k + 1) := by
  induction k generalizing c with
  | zero => simp [byteSum]
  | succ k ih =>
    have pair : c % 256 + c / 256 % 256 < 256 := by
      simp only [byteSum] at small
      omega
    rw [top_byte_fold, ih (by rw [byteSum_fold pair]; exact small), byteSum_fold pair]

/-! ### Words -/

theorem lowOnes_eq_sum (v k : Nat) : lowOnes v k = ∑ j ∈ Finset.range k, (v.testBit j).toNat := by
  induction k generalizing v with
  | zero => rfl
  | succ k ih =>
    rw [lowOnes, ih, Finset.sum_range_succ']
    simp only [Nat.testBit_succ, Nat.testBit_zero]
    cases parity : v % 2 == 1 <;> simp_all; omega

theorem lowOnes_le (v k : Nat) : lowOnes v k ≤ k := by
  induction k generalizing v with
  | zero => rfl
  | succ k ih =>
    have := ih (v / 2)
    rw [lowOnes]
    omega

theorem nibbleSums_le (v k : Nat) : nibbleSums v k ≤ rep 0x44 k :=
  byteLocal_nibbleSums.le_rep (fun _ lt => (rounds_on_byte lt).2.1) (fun _ => by simp [nibbleSums]) v k

/-- The rounds of `wordOnes` are the rounds on the eight bytes of the word: none of them wraps
around. -/
theorem wordOnes_eq_byteSums (w : UInt64) :
    wordOnes w = byteSums w.toNat 8 * rep 1 8 / 256 ^ 7 % 256 := by
  have pairs : (0x5555555555555555 : UInt64).toNat = rep 0x55 8 := rfl
  have quads : (0x3333333333333333 : UInt64).toNat = rep 0x33 8 := rfl
  have bytes : (0x0F0F0F0F0F0F0F0F : UInt64).toNat = rep 0x0F 8 := rfl
  have lows : (0x0101010101010101 : UInt64).toNat = rep 1 8 := rfl
  have shift1 : (1 : UInt64).toNat % 64 = 1 := rfl
  have shift2 : (2 : UInt64).toNat % 64 = 2 := rfl
  have shift4 : (4 : UInt64).toNat % 64 = 4 := rfl
  have shift56 : (56 : UInt64).toNat % 64 = 56 := rfl
  have nibbleBound : nibbleSums w.toNat 8 ≤ 0x4444444444444444 := nibbleSums_le _ _
  simp only [wordOnes]
  have first : (w - ((w >>> 1) &&& 0x5555555555555555)).toNat = pairSums w.toNat 8 := by
    have le : (w >>> 1) &&& 0x5555555555555555 ≤ w := by
      rw [UInt64.le_iff_toNat_le, UInt64.toNat_and, UInt64.toNat_shiftRight]
      exact Nat.le_trans Nat.and_le_left (Nat.shiftRight_le _ _)
    rw [UInt64.toNat_sub_of_le _ _ le, UInt64.toNat_and, UInt64.toNat_shiftRight, pairs, shift1]
    rfl
  generalize w - ((w >>> 1) &&& 0x5555555555555555) = x1 at first ⊢
  have second : ((x1 &&& (0x3333333333333333 : UInt64)) +
      ((x1 >>> 2) &&& (0x3333333333333333 : UInt64))).toNat =
      nibbleSums w.toNat 8 := by
    rw [UInt64.toNat_add, UInt64.toNat_and, UInt64.toNat_and, UInt64.toNat_shiftRight, first, quads,
      shift2]
    exact Nat.mod_eq_of_lt (by simp only [nibbleSums] at nibbleBound; omega)
  generalize (x1 &&& (0x3333333333333333 : UInt64)) + ((x1 >>> 2) &&& (0x3333333333333333 : UInt64))
    = x2 at second ⊢
  have third : ((x2 + (x2 >>> 4)) &&& (0x0F0F0F0F0F0F0F0F : UInt64)).toNat = byteSums w.toNat 8 := by
    rw [UInt64.toNat_and, UInt64.toNat_add, UInt64.toNat_shiftRight, second, bytes, shift4,
      Nat.mod_eq_of_lt (by rw [Nat.shiftRight_eq_div_pow]; omega)]
    rfl
  generalize (x2 + (x2 >>> 4)) &&& (0x0F0F0F0F0F0F0F0F : UInt64) = x3 at third ⊢
  rw [UInt64.toNat_shiftRight, UInt64.toNat_mul, third, lows, shift56,
    Nat.shiftRight_eq_div_pow, show (2 : Nat) ^ 64 = 256 ^ 7 * 256 from rfl,
    show (2 : Nat) ^ 56 = 256 ^ 7 from rfl, Nat.mod_mul_right_div_self]

/-- `wordOnes` counts the set bits of a word. -/
theorem wordOnes_eq_lowOnes (w : UInt64) : wordOnes w = lowOnes w.toNat 64 := by
  have counted := byteSum_byteSums w.toNat 8
  rw [wordOnes_eq_byteSums, top_byte_eq_byteSum
    (by rw [counted]; exact Nat.lt_of_le_of_lt (lowOnes_le _ _) (by decide)), counted]

theorem wordOnes_eq_sum (w : UInt64) :
    wordOnes w = ∑ j ∈ Finset.range 64, (w.toNat.testBit j).toNat := by
  rw [wordOnes_eq_lowOnes, lowOnes_eq_sum]

end WordCount

end MajorityGraph.TruthTable
