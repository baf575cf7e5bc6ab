import Mathlib.Algebra.BigOperators.Group.Finset.Basic
import Mathlib.Tactic.IntervalCases
import Mathlib.Tactic.Ring
import MajorityGraph.TruthTable.Text
import MajorityGraph.Proofs.TruthTable.Algebra

/-!
The hexadecimal text of a truth table is its value, so equal texts mean equal tables
(`Valid.toHex_eq_value`).
-/

namespace MajorityGraph.TruthTable

open Finset

/-- The lowercase hexadecimal digits, in order of value. -/
def hexDigits : List Char := "0123456789abcdef".toList

/-- The value of a hexadecimal digit: its place among `hexDigits`. -/
def hexDigitValue (c : Char) : Nat := hexDigits.idxOf c

/-- Reads digits as a hexadecimal number, the last digit lowest. -/
def readHexDigits (cs : List Char) : Nat := cs.foldl (fun acc c => 16 * acc + hexDigitValue c) 0

/-- Reads a string of hexadecimal digits, the last one lowest. -/
def readHex (s : String) : Nat := readHexDigits s.toList

/-! ### Reading digits -/

section Reading

variable {cs ds : List Char}

theorem digitChar_mem_hexDigits {d : Nat} (lt : d < 16) : d.digitChar ∈ hexDigits := by
  interval_cases d <;> decide

theorem hexDigitValue_digitChar {d : Nat} (lt : d < 16) : hexDigitValue d.digitChar = d := by
  interval_cases d <;> decide

theorem hexDigitValue_lt {c : Char} (mem : c ∈ hexDigits) : hexDigitValue c < 16 :=
  List.idxOf_lt_length_of_mem mem

theorem foldl_hex (cs : List Char) (init : Nat) :
    cs.foldl (fun acc c => 16 * acc + hexDigitValue c) init = 16 ^ cs.length * init + readHexDigits cs := by
  induction cs generalizing init with
  | nil => simp [readHexDigits]
  | cons c cs ih =>
    simp only [readHexDigits, List.foldl_cons, List.length_cons] at ih ⊢
    rw [ih, ih (16 * 0 + hexDigitValue c)]
    ring

theorem readHexDigits_append (cs ds : List Char) :
    readHexDigits (cs ++ ds) = 16 ^ ds.length * readHexDigits cs + readHexDigits ds := by
  rw [readHexDigits, List.foldl_append, foldl_hex]
  rfl

theorem readHexDigits_cons (c : Char) (cs : List Char) :
    readHexDigits (c :: cs) = 16 ^ cs.length * hexDigitValue c + readHexDigits cs := by
  rw [← List.singleton_append, readHexDigits_append]
  simp [readHexDigits]

theorem readHexDigits_replicate_zero (k : Nat) : readHexDigits (List.replicate k '0') = 0 := by
  induction k with
  | zero => rfl
  | succ k ih =>
    rw [List.replicate_succ, readHexDigits_cons, ih]
    rfl

/-- Digits below sixteen read below `16 ^ length`. -/
theorem readHexDigits_lt (digits : ∀ c ∈ cs, c ∈ hexDigits) : readHexDigits cs < 16 ^ cs.length := by
  induction cs with
  | nil => simp [readHexDigits]
  | cons c cs ih =>
    have first := hexDigitValue_lt (digits c List.mem_cons_self)
    have rest := ih fun d mem => digits d (List.mem_cons_of_mem c mem)
    rw [readHexDigits_cons, List.length_cons]
    calc 16 ^ cs.length * hexDigitValue c + readHexDigits cs
        < 16 ^ cs.length * hexDigitValue c + 16 ^ cs.length := by omega
      _ = 16 ^ cs.length * (hexDigitValue c + 1) := by rw [Nat.mul_add, Nat.mul_one]
      _ ≤ 16 ^ cs.length * 16 := Nat.mul_le_mul_left _ first
      _ = 16 ^ (cs.length + 1) := (Nat.pow_succ ..).symm

/-- Dropping leading digits keeps the value modulo the digits left. -/
theorem readHexDigits_drop (digits : ∀ c ∈ cs, c ∈ hexDigits) (k : Nat) :
    readHexDigits (cs.drop k) = readHexDigits cs % 16 ^ (cs.length - k) := by
  have low : readHexDigits (cs.drop k) < 16 ^ (cs.drop k).length :=
    readHexDigits_lt fun c mem => digits c (List.mem_of_mem_drop mem)
  have whole := readHexDigits_append (cs.take k) (cs.drop k)
  rw [List.take_append_drop] at whole
  rw [whole, List.length_drop, Nat.mul_comm, Nat.mul_add_mod_of_lt (by simpa using low)]

/-- The digits of `v` in base sixteen are lowercase digits that read back as `v`. -/
theorem toDigits_hex (v : Nat) :
    (∀ c ∈ Nat.toDigits 16 v, c ∈ hexDigits) ∧ readHexDigits (Nat.toDigits 16 v) = v := by
  induction v using Nat.base_induction 16 (by decide) with
  | single m lt =>
    rw [Nat.toDigits_of_lt_base lt]
    simp [digitChar_mem_hexDigits lt, readHexDigits, hexDigitValue_digitChar lt]
  | digit m k lt pos ih =>
    rw [← Nat.toDigits_append_toDigits (by decide) pos lt, Nat.toDigits_of_lt_base lt]
    refine ⟨fun c mem => ?_, ?_⟩
    · rcases List.mem_append.mp mem with high | last
      · exact ih.1 c high
      · rw [List.mem_singleton.mp last]
        exact digitChar_mem_hexDigits lt
    · rw [readHexDigits_append, ih.2, readHexDigits_cons]
      simp [hexDigitValue_digitChar lt, readHexDigits]

end Reading

/-! ### Words and their joined text -/

/-- A word is sixteen lowercase digits that read back as its value. -/
theorem wordHex_digits (w : UInt64) :
    (wordHex w).toList.length = 16 ∧ (∀ c ∈ (wordHex w).toList, c ∈ hexDigits) ∧
      readHexDigits (wordHex w).toList = w.toNat := by
  obtain ⟨digits, value⟩ := toDigits_hex w.toNat
  have short : (Nat.toDigits 16 w.toNat).length ≤ 16 :=
    (Nat.length_toDigits_le_iff (by decide) (by decide)).mpr (by simpa using w.toNat_lt)
  simp only [wordHex, hexPadded, String.toList_ofList]
  refine ⟨?_, fun c mem => ?_, ?_⟩
  · rw [List.length_append, List.length_replicate]
    omega
  · rcases List.mem_append.mp mem with zero | mem
    · rw [(List.mem_replicate.mp zero).2]
      decide
    · exact digits c mem
  · rw [readHexDigits_append, readHexDigits_replicate_zero, value, Nat.mul_zero, Nat.zero_add]

/-- Words written highest first, sixteen digits each, read back as their place-value sum. -/
theorem joined_wordHex (ws : List UInt64) :
    ((ws.reverse.map wordHex).flatMap String.toList).length = 16 * ws.length ∧
      (∀ c ∈ (ws.reverse.map wordHex).flatMap String.toList, c ∈ hexDigits) ∧
      readHexDigits ((ws.reverse.map wordHex).flatMap String.toList) =
        ∑ i ∈ range ws.length, (ws.getD i 0).toNat * 2 ^ (64 * i) := by
  induction ws with
  | nil => simp [readHexDigits]
  | cons w ws ih =>
    obtain ⟨len, digits, value⟩ := ih
    obtain ⟨wordLen, wordDigits, wordValue⟩ := wordHex_digits w
    simp only [List.reverse_cons, List.map_append, List.map_cons, List.map_nil, List.flatMap_append,
      List.flatMap_cons, List.flatMap_nil, List.append_nil, List.length_append, List.length_cons,
      List.mem_append]
    refine ⟨by omega, fun c mem => mem.elim (digits c) (wordDigits c), ?_⟩
    -- the lowest word is the last sixteen digits; the others are shifted up by one word
    have shifted : ∀ i ∈ range ws.length, ((w :: ws).getD (i + 1) 0).toNat * 2 ^ (64 * (i + 1)) =
        16 ^ 16 * ((ws.getD i 0).toNat * 2 ^ (64 * i)) := fun i _ => by
      rw [List.getD_cons_succ, show 64 * (i + 1) = 64 + 64 * i by omega, Nat.pow_add,
        show (16 : Nat) ^ 16 = 2 ^ 64 by norm_num]
      ring
    rw [readHexDigits_append, wordLen, wordValue, value, sum_range_succ', sum_congr rfl shifted,
      ← mul_sum, List.getD_cons_zero, Nat.mul_zero, Nat.pow_zero, Nat.mul_one]

/-! ### Place values of bits -/

section Bits

theorem sum_testBit (x k : Nat) : ∑ j ∈ range k, (x.testBit j).toNat * 2 ^ j = x % 2 ^ k := by
  induction k with
  | zero => simp [Nat.mod_one]
  | succ k ih =>
    rw [sum_range_succ, ih, Nat.mod_pow_succ, Nat.toNat_testBit, Nat.mul_comm (2 ^ k)]

/-- A sum of place values is the code of the summed bits. -/
theorem sum_bits_eq_assignmentCode (b : Nat → Bool) (k : Nat) :
    ∑ j ∈ range k, (b j).toNat * 2 ^ j = assignmentCode ((List.range k).map b) := by
  rw [assignmentCode_eq_sum, List.length_map, List.length_range]
  refine sum_congr rfl fun j lt => ?_
  simp [List.getD_eq_getElem?_getD, mem_range.mp lt]

theorem sum_bits_lt (b : Nat → Bool) (k : Nat) : ∑ j ∈ range k, (b j).toNat * 2 ^ j < 2 ^ k := by
  rw [sum_bits_eq_assignmentCode]
  simpa using assignmentCode_lt ((List.range k).map b)

/-- A sum of place values has the summed bits as its binary digits. -/
theorem testBit_sum_bits (b : Nat → Bool) {j k : Nat} (lt : j < k) :
    (∑ i ∈ range k, (b i).toNat * 2 ^ i).testBit j = b j := by
  rw [sum_bits_eq_assignmentCode, testBit_assignmentCode _ j (by simpa using lt)]
  simp

/-- The place-value sum of a table's words is the sum of `2 ^ m` over the assignments it holds. -/
theorem Valid.words_value {t : TruthTable} {n : Nat} (v : Valid n t) :
    ∑ i ∈ range (wordCount n), (t.word i).toNat * 2 ^ (64 * i) =
      ∑ m ∈ range (2 ^ n), (t.bit m).toNat * 2 ^ m := by
  rw [← v.sum_words (fun b m => b.toNat * 2 ^ m) fun _ => by simp]
  refine sum_congr rfl fun i _ => ?_
  have word := sum_testBit (t.word i).toNat 64
  rw [Nat.mod_eq_of_lt (t.word i).toNat_lt] at word
  rw [← word, sum_mul]
  refine sum_congr rfl fun k lt => ?_
  rw [testBit_word t i (mem_range.mp lt), Nat.pow_add, Nat.mul_assoc, Nat.mul_comm (2 ^ k)]

end Bits

/-! ### The text of a table -/

/-- The text is never longer than the written words, and it has room for every value. -/
theorem hexWidth_bounds (n : Nat) :
    max (2 ^ n / 4) 1 ≤ 16 * wordCount n ∧ 2 ^ n ≤ 4 * max (2 ^ n / 4) 1 := by
  by_cases wide : 6 ≤ n
  · have words := wordCount_of_ge wide
    have pos : 1 ≤ wordCount n := le_max_right _ _
    omega
  · interval_cases n <;> decide

variable {n : Nat} {t a b : TruthTable}

/-- The text of a table over `n` variables: `max (2 ^ n / 4) 1` lowercase digits reading as the
sum of `2 ^ m` over the assignments `m` the table holds. -/
theorem Valid.toHex_digits (v : Valid n t) :
    t.toHex.length = max (2 ^ n / 4) 1 ∧ (∀ c ∈ t.toHex.toList, c ∈ hexDigits) ∧
      readHex t.toHex = ∑ m ∈ range (2 ^ n), (t.bit m).toNat * 2 ^ m := by
  obtain ⟨len, digits, value⟩ := joined_wordHex t.words.toList
  obtain ⟨fitsLen, roomy⟩ := hexWidth_bounds n
  have size : t.words.toList.length = wordCount n := by simp [v.fits.2]
  have getD : ∀ i, t.words.toList.getD i 0 = t.word i := fun i => by
    simp [word, Array.getD_eq_getD_getElem?, List.getD_eq_getElem?_getD]
  simp only [size, getD, v.words_value] at len value
  set cs := (t.words.toList.reverse.map wordHex).flatMap String.toList
  have text : t.toHex.toList = cs.drop (cs.length - max (2 ^ n / 4) 1) := by
    simp [toHex, numBits, v.fits.1, ← String.length_toList, String.toList_join, cs]
  have total := sum_bits_lt t.bit (2 ^ n)
  refine ⟨?_, fun c mem => ?_, ?_⟩
  · rw [← String.length_toList, text, List.length_drop]
    omega
  · rw [text] at mem
    exact digits c (List.mem_of_mem_drop mem)
  · -- the cut drops only leading zeros, as the value fits in the digits kept
    rw [readHex, text, readHexDigits_drop digits, value, Nat.sub_sub_self (by omega)]
    refine Nat.mod_eq_of_lt (Nat.lt_of_lt_of_le total ?_)
    calc 2 ^ 2 ^ n ≤ 2 ^ (4 * max (2 ^ n / 4) 1) := Nat.pow_le_pow_right (by decide) roomy
      _ = 16 ^ max (2 ^ n / 4) 1 := by rw [Nat.pow_mul]

/-- Display of a truth table over `n` variables: exactly `max (2 ^ n / 4) 1` lowercase
hexadecimal digits, which read as a number, last digit lowest, give the sum of `2 ^ m` over the
assignments `m` the table holds (`bit m` is what `getBit m` returns below `2 ^ n`). Hence two
tables over the same variables have the same text exactly when they are equal. -/
theorem Valid.toHex_eq_value (va : Valid n a) (vb : Valid n b) :
    a.toHex.length = max (2 ^ n / 4) 1 ∧ (∀ c ∈ a.toHex.toList, c ∈ hexDigits) ∧
      readHex a.toHex = ∑ m ∈ range (2 ^ n), (a.bit m).toNat * 2 ^ m ∧
      (a.toHex = b.toHex ↔ a = b) := by
  obtain ⟨lenA, digitsA, valueA⟩ := va.toHex_digits
  obtain ⟨-, -, valueB⟩ := vb.toHex_digits
  refine ⟨lenA, digitsA, valueA, fun same => (va.eq_iff_bits vb).mpr fun m lt => ?_, fun same => same ▸ rfl⟩
  have sums : ∑ m ∈ range (2 ^ n), (a.bit m).toNat * 2 ^ m =
      ∑ m ∈ range (2 ^ n), (b.bit m).toNat * 2 ^ m := by
    rw [← valueA, ← valueB, same]
  rw [← testBit_sum_bits a.bit lt, ← testBit_sum_bits b.bit lt, sums]

example : (nthVar 3 2).map toHex = .ok "f0" := by decide +kernel

/-- The projections onto the first two of three variables write as `aa` and `cc`. -/
theorem toHex_of_projections :
    ∃ a b, nthVar 3 0 = .ok a ∧ nthVar 3 1 = .ok b ∧ Valid 3 a ∧ Valid 3 b ∧
      a.toHex.length = max (2 ^ 3 / 4) 1 ∧ (∀ c ∈ a.toHex.toList, c ∈ hexDigits) ∧
      readHex a.toHex = ∑ m ∈ range (2 ^ 3), (a.bit m).toNat * 2 ^ m ∧
      (a.toHex = b.toHex ↔ a = b) := by
  obtain ⟨a, runA, -⟩ := nthVar_of_lt (by decide : 0 < 3) (by decide)
  obtain ⟨b, runB, -⟩ := nthVar_of_lt (by decide : 1 < 3) (by decide)
  exact ⟨a, b, runA, runB, nthVar_valid runA, nthVar_valid runB,
    Valid.toHex_eq_value (nthVar_valid runA) (nthVar_valid runB)⟩

end MajorityGraph.TruthTable
