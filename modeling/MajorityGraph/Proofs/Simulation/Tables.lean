import MajorityGraph.TruthTable.Basic

/-!
Widths of truth tables: on tables of one width the majority is built word by word and does not
see the order of its operands.
-/

namespace MajorityGraph

namespace TruthTable

/-- A table over `n` variables with all of its words. -/
def Fits (n : Nat) (t : TruthTable) : Prop := t.numVars = n ∧ t.words.size = wordCount n

variable {n i : Nat} {t a b c : TruthTable}

/-- The constant 0 table over `n` variables. -/
def zeros (n : Nat) : TruthTable := ⟨n, Array.replicate (wordCount n) 0⟩

theorem zeros_fits (n : Nat) : Fits n (zeros n) := by simp [Fits, zeros]

theorem new_of_le (le : n ≤ maxVars) : new n = .ok (zeros n) := by
  simp [new, zeros, Nat.not_lt.mpr le]

theorem new_of_gt (gt : maxVars < n) : new n = .error (.tooManyVariables n) := by
  simp [new, gt]

theorem constant_false_of_le (le : n ≤ maxVars) : constant n false = .ok (zeros n) := by
  simp [constant, new_of_le le]

theorem constant_of_gt (v : Bool) (gt : maxVars < n) :
    constant n v = .error (.tooManyVariables n) := by
  simp [constant, new_of_gt gt, bind, Except.bind]

theorem masked_fits (fits : Fits n t) : Fits n t.masked := by
  unfold masked
  split <;> simp_all [Fits]

theorem not_fits (fits : Fits n t) : Fits n t.not :=
  masked_fits (by simpa [Fits] using fits)

/-- Every variable of a table of at most `maxVars` variables has its projection. -/
theorem nthVar_of_lt (lt : i < n) (le : n ≤ maxVars) : ∃ t, nthVar n i = .ok t ∧ Fits n t := by
  by_cases small : i < 6
  · simp only [nthVar, Nat.not_le.mpr lt, new_of_le le, small]
    exact ⟨_, rfl, masked_fits (by simp [Fits, zeros])⟩
  · simp only [nthVar, Nat.not_le.mpr lt, new_of_le le, small]
    exact ⟨_, rfl, rfl, by simp [zeros]⟩

theorem majWidths_of_fits (fa : Fits n a) (fb : Fits n b) (fc : Fits n c) :
    majWidths a b c = .ok () := by
  simp [majWidths, fa.1, fb.1, fc.1, pure, Except.pure]

/-- On tables of one width the majority is taken word by word. -/
theorem maj_of_fits (fa : Fits n a) (fb : Fits n b) (fc : Fits n c) :
    maj a b c = .ok ⟨n, Array.ofFn (n := wordCount n) fun j =>
      majWord (a.word j) (b.word j) (c.word j)⟩ := by
  simp only [maj, majWidths_of_fits fa fb fc, fa.1]
  obtain ⟨-, size⟩ := fa
  generalize a.words.size = m at size ⊢
  subst size
  rfl

theorem maj_fits (fa : Fits n a) (fb : Fits n b) (fc : Fits n c) {t : TruthTable}
    (run : maj a b c = .ok t) : Fits n t := by
  rw [maj_of_fits fa fb fc] at run
  cases run
  simp [Fits]

theorem majWord_swap_left (x y z : UInt64) : majWord x y z = majWord y x z := by
  simp only [majWord]
  grind

theorem majWord_swap_right (x y z : UInt64) : majWord x y z = majWord x z y := by
  simp only [majWord]
  grind

theorem maj_swap_left (fa : Fits n a) (fb : Fits n b) (fc : Fits n c) :
    maj a b c = maj b a c := by
  simp only [maj_of_fits fa fb fc, maj_of_fits fb fa fc, majWord_swap_left (a.word _)]

theorem maj_swap_right (fa : Fits n a) (fb : Fits n b) (fc : Fits n c) :
    maj a b c = maj a c b := by
  simp only [maj_of_fits fa fb fc, maj_of_fits fa fc fb, majWord_swap_right (a.word _)]

end TruthTable

end MajorityGraph
