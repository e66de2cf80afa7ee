import Mathlib.Algebra.Order.Field.Rat
import Mathlib.Tactic.Linarith
import Mathlib.Tactic.Ring
import Stencil.Fraction

/-!
This module contains the values of the operations on words and fractions, and when they fit. Sums
and products have the value of the rational numbers in any case, powers only if they fit.
-/

namespace Stencil

theorem Word.isSigned_iff {i : Int} :
    Word.isSigned i = true ↔ -9223372036854775808 ≤ i ∧ i ≤ 9223372036854775807 := by
  simp [Word.isSigned]

theorem Word.le_toSigned_iff {n : Nat} : (n : Int) ≤ Word.toSigned n ↔ Word.isSigned n = true := by
  rw [isSigned_iff]
  unfold toSigned
  rw [Int.bmod_def]
  split <;> omega

theorem Word.toSigned_of_isSigned {n : Nat} (h : Word.isSigned n = true) :
    Word.toSigned n = n := by
  rw [isSigned_iff] at h
  unfold toSigned
  rw [Int.bmod_def]
  split <;> omega

theorem Word.isSigned_of_mul {i : Int} {k : Nat} (hk : k ≠ 0) (h : Word.isSigned (i * k) = true) :
    Word.isSigned i = true := by
  have hk : (1 : Int) ≤ k := by omega
  rw [isSigned_iff] at h ⊢
  constructor
  · by_contra hlt
    nlinarith
  · by_contra hlt
    nlinarith

theorem Word.value_pow {b : Int} {n : Nat} (h : (Word.pow b n).fits = true) :
    (Word.pow b n).value = b ^ n := by
  unfold Word.pow at h ⊢
  split
  · simp_all
  · next hn =>
    split
    · next hb =>
      -- The powers of -1, 0 and 1 depend on the parity of the exponent only.
      have hcases : b = -1 ∨ b = 0 ∨ b = 1 := by omega
      rcases Nat.even_or_odd' n with ⟨m, rfl | rfl⟩
      · have hmod : 2 * m % 2 = 0 := by omega
        have hm : 2 * m ≠ 0 := hn
        rcases hcases with rfl | rfl | rfl <;> simp [hmod, hm]
      · have hmod : (2 * m + 1) % 2 = 1 := by omega
        rcases hcases with rfl | rfl | rfl <;> simp [hmod, pow_succ]
    · split <;> simp_all [Word.signed]

namespace Fraction

@[simp]
theorem value_add (a b : Rat) : (add a b).value = a + b := by
  unfold add
  split <;> rfl

@[simp]
theorem value_mul (a b : Rat) : (mul a b).value = a * b := rfl

theorem value_pow {q : Rat} {e : Int} (h : (pow q e).fits = true) : (pow q e).value = q ^ e := by
  unfold pow at h ⊢
  simp only [Checked.fits_bind, Bool.and_eq_true] at h
  obtain ⟨hnum, hden, hsign⟩ := h
  have hpow : q ^ e.natAbs = (q.num ^ e.natAbs : Int) / ((q.den : Int) ^ e.natAbs : Int) := by
    rw [Int.cast_pow, Int.cast_pow, ← div_pow, Int.cast_natCast, Rat.num_div_den]
  simp only [Checked.value_bind, Word.value_pow hnum, Word.value_pow hden]
  split
  · next he =>
    obtain ⟨n, rfl⟩ := Int.eq_ofNat_of_zero_le he
    simp only [Checked.value_pure, Rat.divInt_eq_div]
    rw [← hpow, Int.natAbs_natCast, zpow_natCast]
  · next he =>
    obtain ⟨n, rfl⟩ : ∃ n : Nat, e = -n := ⟨e.natAbs, by omega⟩
    simp only [Checked.value_pure, Checked.value_bind, Rat.divInt_eq_div]
    rw [zpow_neg, zpow_natCast, ← inv_div, ← hpow, Int.natAbs_neg, Int.natAbs_natCast]

theorem isWords_iff {q : Rat} :
    isWords q = true ↔ Word.isSigned q.num = true ∧ Word.isSigned q.den = true := by
  simp [isWords]

theorem isWords_of_mul_eq {q : Rat} {n : Int} {d : Nat} (hd : d ≠ 0) (hq : q * d = n)
    (hnum : Word.isSigned n = true) (hden : Word.isSigned d = true) : isWords q = true := by
  have hd0 : (d : Rat) ≠ 0 := by exact_mod_cast hd
  have hdiv : q = Rat.divInt n d := by
    rw [Rat.divInt_eq_div, Int.cast_natCast, eq_div_iff hd0, hq]
  obtain ⟨k, rfl⟩ : q.den ∣ d := by
    rw [← Int.natCast_dvd_natCast, hdiv]
    exact Rat.den_dvd n d
  have hk : k ≠ 0 := right_ne_zero_of_mul hd
  have hn : n = q.num * k := by
    rw [Nat.cast_mul, ← mul_assoc, Rat.mul_den_eq_num] at hq
    exact_mod_cast hq.symm
  rw [isWords_iff]
  constructor
  · exact Word.isSigned_of_mul hk (hn ▸ hnum)
  · exact Word.isSigned_of_mul hk (by exact_mod_cast hden)

theorem isWords_add {a b : Rat} (ha : isWords a = true) (h : (add a b).fits = true) :
    isWords (a + b) = true := by
  have hmul (q : Rat) {d : Nat} (hd : q.den ∣ d) : q * d = (q.num * (d / q.den : Nat) : Int) := by
    obtain ⟨k, rfl⟩ := hd
    rw [Nat.mul_div_cancel_left k q.pos, Nat.cast_mul, ← mul_assoc, Rat.mul_den_eq_num,
      Int.cast_mul, Int.cast_natCast]
  unfold add at h
  split at h
  · next hden =>
    have hsum : (a + b) * a.den = (a.num + b.num : Int) := by
      rw [add_mul, Rat.mul_den_eq_num, hden, Rat.mul_den_eq_num, Int.cast_add]
    exact isWords_of_mul_eq a.den_nz hsum h (isWords_iff.1 ha).2
  · simp only [Checked.fits_guarded, Bool.and_eq_true] at h
    obtain ⟨⟨⟨hcommon, -⟩, -⟩, hsum⟩ := h
    apply isWords_of_mul_eq (Nat.lcm_ne_zero a.den_nz b.den_nz) _ hsum hcommon
    rw [add_mul, hmul a (Nat.dvd_lcm_left ..), hmul b (Nat.dvd_lcm_right ..), Int.cast_add]

theorem fits_zero_add {q : Rat} : (add 0 q).fits = true ↔ isWords q = true := by
  have hone : Word.isSigned 1 = true := rfl
  have hzero : Word.isSigned 0 = true := rfl
  rw [isWords_iff]
  unfold add
  split
  · next hden =>
    rw [Rat.den_ofNat] at hden
    simp [← hden, hone]
  · simp [Nat.div_self q.pos, hzero, and_comm]

theorem fits_add_comm (a b : Rat) : (add a b).fits = (add b a).fits := by
  unfold add
  by_cases hden : a.den = b.den
  · simp [hden, add_comm]
  · rw [if_neg hden, if_neg (Ne.symm hden), Nat.lcm_comm]
    simp only [Checked.fits_guarded, add_comm (b.num * _)]
    ac_rfl

theorem fits_add_zero {q : Rat} : (add q 0).fits = true ↔ isWords q = true := by
  rw [fits_add_comm, fits_zero_add]

theorem toInt?_eq_some_iff {q : Rat} {i : Int} : toInt? q = some i ↔ q = i := by
  unfold toInt?
  constructor
  · intro h
    split at h
    · next hden =>
      rw [← Option.some.inj h]
      exact (Rat.coe_int_num_of_den_eq_one hden).symm
    · cases h
  · rintro rfl
    simp

@[simp]
theorem toInt?_neg (q : Rat) : toInt? (-q) = (toInt? q).map Neg.neg := by
  unfold toInt?
  by_cases h : q.den = 1 <;> simp [h]

end Fraction

end Stencil
