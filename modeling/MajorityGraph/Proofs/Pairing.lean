import Mathlib.Algebra.Group.Nat.Defs
import Mathlib.Data.Nat.Pairing
import MajorityGraph.Pairing

/-!
Szudzik's pairing on words is `Nat.pair` modulo `2 ^ 64`, exact and one to one on half-words
(`szudzik_exact_on_halfwords`).
-/

namespace MajorityGraph.Pairing

/-! ### Szudzik's pairing below a square -/

section Square

variable {a b k n : Nat}

/-- Both parts of a pair below `k` keep its code below `k ^ 2`. -/
theorem pair_lt_sq (ha : a < k) (hb : b < k) : Nat.pair a b < k ^ 2 :=
  calc Nat.pair a b < (max a b + 1) ^ 2 := Nat.pair_lt_max_add_one_sq a b
    _ ≤ k ^ 2 := Nat.pow_le_pow_left (by omega) 2

/-- A code below `k ^ 2` unpairs into two parts below `k`. -/
theorem unpair_lt_of_lt_sq (hn : n < k ^ 2) : (Nat.unpair n).1 < k ∧ (Nat.unpair n).2 < k := by
  -- the larger part squared is at most the code itself
  have le : max (Nat.unpair n).1 (Nat.unpair n).2 ^ 2 ≤ n := by
    have := Nat.max_sq_add_min_le_pair (Nat.unpair n).1 (Nat.unpair n).2
    rw [Nat.pair_unpair] at this
    omega
  have lt : max (Nat.unpair n).1 (Nat.unpair n).2 < k :=
    (Nat.pow_lt_pow_iff_left (by decide)).mp (lt_of_le_of_lt le hn)
  omega

end Square

/-! ### The word pairing -/

/-- Pairs of half-words: both parts below `2 ^ 32`. -/
def halfwordPairs : Set (UInt64 × UInt64) := {p | p.1.toNat < 2 ^ 32 ∧ p.2.toNat < 2 ^ 32}

/-- The word pairing is Szudzik's pairing of the two values, reduced modulo `2 ^ 64`. -/
theorem szudzik_toNat (a b : UInt64) :
    (szudzik a b).toNat = Nat.pair a.toNat b.toNat % 2 ^ 64 := by
  -- the comparison of the words is the comparison of their values
  simp only [szudzik, Nat.pair, UInt64.lt_iff_toNat_lt]
  split_ifs <;> simp [UInt64.toNat_add, UInt64.toNat_mul, Nat.mod_add_mod]

/-- On two half-words the word pairing does not wrap. -/
theorem szudzik_toNat_of_halfwords {a b : UInt64} (ha : a.toNat < 2 ^ 32) (hb : b.toNat < 2 ^ 32) :
    (szudzik a b).toNat = Nat.pair a.toNat b.toNat := by
  have fits : Nat.pair a.toNat b.toNat < 2 ^ 64 :=
    calc Nat.pair a.toNat b.toNat < (2 ^ 32) ^ 2 := pair_lt_sq ha hb
      _ = 2 ^ 64 := by rw [← Nat.pow_mul]
  rw [szudzik_toNat, Nat.mod_eq_of_lt fits]

/-- On half-words the word pairing is exact, so it is one to one as `Nat.pair` is. -/
theorem szudzik_injOn_halfwords :
    Set.InjOn (fun p : UInt64 × UInt64 => szudzik p.1 p.2) halfwordPairs := by
  rintro ⟨a, b⟩ ⟨ha, hb⟩ ⟨c, d⟩ ⟨hc, hd⟩ same
  have codes : Nat.pair a.toNat b.toNat = Nat.pair c.toNat d.toNat := by
    rw [← szudzik_toNat_of_halfwords ha hb, ← szudzik_toNat_of_halfwords hc hd]
    exact congrArg UInt64.toNat same
  obtain ⟨hac, hbd⟩ := Nat.pair_eq_pair.mp codes
  rw [UInt64.toNat_inj.mp hac, UInt64.toNat_inj.mp hbd]

/-- Every word is the pairing of the two half-words that `Nat.unpair` reads off its value. -/
theorem szudzik_surjOn_halfwords :
    Set.SurjOn (fun p : UInt64 × UInt64 => szudzik p.1 p.2) halfwordPairs Set.univ := by
  intro z _
  obtain ⟨ha, hb⟩ : (Nat.unpair z.toNat).1 < 2 ^ 32 ∧ (Nat.unpair z.toNat).2 < 2 ^ 32 :=
    unpair_lt_of_lt_sq (by rw [← Nat.pow_mul]; exact z.toNat_lt_size)
  -- each part is below `2 ^ 32`, so it is the value of its own word
  have back : ∀ {m : Nat}, m < 2 ^ 32 → (UInt64.ofNat m).toNat = m := fun hm =>
    UInt64.toNat_ofNat_of_lt' (lt_of_lt_of_le hm (by decide))
  have mem : (UInt64.ofNat (Nat.unpair z.toNat).1, UInt64.ofNat (Nat.unpair z.toNat).2) ∈
      halfwordPairs := ⟨(back ha).symm ▸ ha, (back hb).symm ▸ hb⟩
  refine ⟨_, mem, UInt64.toNat_inj.mp ?_⟩
  rw [szudzik_toNat_of_halfwords mem.1 mem.2, back ha, back hb, Nat.pair_unpair]

/-- The word pairing is Szudzik's pairing reduced modulo `2 ^ 64`; on half-words it is exact,
and it maps the pairs of half-words one to one onto all words. -/
theorem szudzik_exact_on_halfwords :
    (∀ a b : UInt64, (szudzik a b).toNat = Nat.pair a.toNat b.toNat % 2 ^ 64) ∧
    (∀ a b : UInt64, a.toNat < 2 ^ 32 → b.toNat < 2 ^ 32 →
      (szudzik a b).toNat = Nat.pair a.toNat b.toNat) ∧
    Set.BijOn (fun p : UInt64 × UInt64 => szudzik p.1 p.2) halfwordPairs Set.univ :=
  ⟨szudzik_toNat, fun _ _ => szudzik_toNat_of_halfwords,
    Set.mapsTo_univ _ _, szudzik_injOn_halfwords, szudzik_surjOn_halfwords⟩

/-- The largest pair of half-words lands exactly on the largest word. -/
theorem szudzik_largest_halfwords :
    (szudzik 0xFFFFFFFF 0xFFFFFFFF).toNat = Nat.pair 0xFFFFFFFF 0xFFFFFFFF ∧
      Nat.pair 0xFFFFFFFF 0xFFFFFFFF = 2 ^ 64 - 1 :=
  ⟨szudzik_exact_on_halfwords.2.1 0xFFFFFFFF 0xFFFFFFFF (by decide) (by decide), by decide⟩

end MajorityGraph.Pairing
