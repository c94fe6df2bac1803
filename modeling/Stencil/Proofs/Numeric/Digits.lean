import Mathlib.Algebra.Order.Field.Power
import Mathlib.Algebra.Order.Field.Rat
import Mathlib.Data.Nat.Multiplicity
import Mathlib.Tactic.Linarith
import Mathlib.Tactic.NormNum
import Mathlib.Tactic.Ring
import Stencil.Numeric.Shortest

/-!
# Decimal digits

How large a whole number is, by its digits, and what digits with a decade stand for. Zeros at the
end of a whole number are digits of a power of ten, which the decade counts as well without them.

## Main definitions

* `Stencil.Scientific.coefficient`, `Stencil.Scientific.exponent` — digits as a whole number times a
  power of ten.
* `Stencil.Scientific.magnitude` — the magnitude that digits stand for.

## Main results

* `Stencil.Decimal.digitCount_eq_iff` — how large a whole number is, by its digits.
* `Stencil.Decimal.mul_zpow_lt`, `Stencil.Decimal.zpow_le_mul` — how large a scaled one is.
* `Stencil.Decimal.toDigits_mul_pow` — zeros at the end.
* `Stencil.Scientific.ofScaled_eq` — digits without the zeros at the end.
-/

set_option autoImplicit false

namespace Stencil

namespace Decimal

variable {n k : ℕ}

/-! ## Digits and size -/

theorem digitCount_pos (n : ℕ) : 0 < digitCount n := List.length_pos_iff.2 Nat.toDigits_ne_nil

/-- A whole number has at most so many digits when it is below that power of ten. -/
theorem digitCount_le_iff (hk : 0 < k) : digitCount n ≤ k ↔ n < 10 ^ k :=
  Nat.length_toDigits_le_iff (by decide) hk

/-- A whole number is below the power of ten with as many zeros as it has digits. -/
theorem lt_pow_digitCount (n : ℕ) : n < 10 ^ digitCount n :=
  (digitCount_le_iff (digitCount_pos n)).1 le_rfl

/-- A positive whole number is not below the powers of ten with fewer digits. -/
theorem pow_le_of_lt_digitCount (hn : 0 < n) (h : k < digitCount n) : 10 ^ k ≤ n := by
  rcases Nat.eq_zero_or_pos k with rfl | hk
  · rwa [pow_zero]
  · by_contra hlt
    exact absurd ((digitCount_le_iff hk).2 (not_le.1 hlt)) (not_le.2 h)

/-- The digits are counted by the powers of ten around the number. -/
theorem digitCount_eq_iff (hn : 0 < n) :
    digitCount n = k + 1 ↔ 10 ^ k ≤ n ∧ n < 10 ^ (k + 1) := by
  constructor
  · intro h
    exact ⟨pow_le_of_lt_digitCount hn (by omega), h ▸ lt_pow_digitCount n⟩
  · rintro ⟨hlow, hhigh⟩
    refine le_antisymm ((digitCount_le_iff (Nat.succ_pos k)).2 hhigh) ?_
    by_contra hlt
    have hle : digitCount n ≤ k := by omega
    have hpow := Nat.pow_le_pow_right (by decide : 0 < 10) hle
    exact absurd (lt_pow_digitCount n) (not_lt.2 (hpow.trans hlow))

/-- The digits are counted by the logarithm. -/
theorem digitCount_eq_log (hn : 0 < n) : digitCount n = Nat.log 10 n + 1 :=
  (digitCount_eq_iff hn).2
    ⟨Nat.pow_log_le_self 10 hn.ne', Nat.lt_pow_succ_log_self (by decide) n⟩

/-- A scaled whole number is below the power of ten that its digits and its exponent make. -/
theorem mul_zpow_lt (n : ℕ) (e : ℤ) : (n * 10 ^ e : ℚ) < 10 ^ (digitCount n + e) := by
  have hcast : (n : ℚ) < 10 ^ (digitCount n : ℤ) := by
    rw [zpow_natCast]
    exact_mod_cast lt_pow_digitCount n
  rw [zpow_add₀ (by norm_num)]
  exact mul_lt_mul_of_pos_right hcast (zpow_pos (by norm_num) _)

/-- A scaled whole number is not below the power of ten of its first digit. -/
theorem zpow_le_mul (hn : 0 < n) (e : ℤ) : (10 ^ (digitCount n + e - 1) : ℚ) ≤ n * 10 ^ e := by
  have hpos := digitCount_pos n
  have hcast : (10 : ℚ) ^ ((digitCount n - 1 : ℕ) : ℤ) ≤ n := by
    rw [zpow_natCast]
    exact_mod_cast pow_le_of_lt_digitCount hn (by omega)
  have hsum : (digitCount n + e - 1 : ℤ) = (digitCount n - 1 : ℕ) + e := by omega
  rw [hsum, zpow_add₀ (by norm_num)]
  exact mul_le_mul_of_nonneg_right hcast (zpow_pos (by norm_num) _).le

/-! ## Zeros at the end -/

/-- A power of ten in a whole number is written as zeros at the end. -/
theorem toDigits_mul_pow (hn : 0 < n) (k : ℕ) :
    Nat.toDigits 10 (n * 10 ^ k) = Nat.toDigits 10 n ++ List.replicate k '0' := by
  induction k with
  | zero => rw [pow_zero, mul_one, List.replicate_zero, List.append_nil]
  | succ k ih =>
    have hpos : 0 < n * 10 ^ k := Nat.mul_pos hn (Nat.pow_pos (by decide))
    have hstep : n * 10 ^ (k + 1) = 10 * (n * 10 ^ k) + 0 := by ring
    have hzero : Nat.toDigits 10 0 = ['0'] := rfl
    rw [hstep, ← Nat.toDigits_append_toDigits (by decide) hpos (by decide), ih, hzero,
      List.replicate_succ', List.append_assoc]

/-- A power of ten in a whole number is counted in its digits. -/
theorem digitCount_mul_pow (hn : 0 < n) (k : ℕ) :
    digitCount (n * 10 ^ k) = digitCount n + k := by
  rw [digitCount, toDigits_mul_pow hn, List.length_append, List.length_replicate, digitCount]

/-- A whole number that is no multiple of ten has no zero at the end. -/
theorem dropWhile_reverse_toDigits (h : n % 10 ≠ 0) :
    (Nat.toDigits 10 n).reverse.dropWhile (· == '0') = (Nat.toDigits 10 n).reverse := by
  obtain ⟨front, hfront⟩ : ∃ front, Nat.toDigits 10 n = front ++ [(n % 10).digitChar] := by
    by_cases hsmall : n < 10
    · exact ⟨[], by rw [Nat.toDigits_of_lt_base hsmall, Nat.mod_eq_of_lt hsmall]; rfl⟩
    · exact ⟨_, Nat.toDigits_of_base_le (by decide) (not_lt.1 hsmall)⟩
  have hlast : ¬ ((n % 10).digitChar == '0') = true := by
    rw [beq_iff_eq, Nat.digitChar_eq_zero]
    exact h
  rw [hfront, List.reverse_concat]
  exact List.dropWhile_cons_of_neg hlast

end Decimal

namespace Scientific

/-! ## Digits with a decade -/

/-- The digits as one whole number. -/
def coefficient (s : Scientific) : ℕ := Decimal.ofDigits s.digits

/-- The exponent of the last digit. -/
def exponent (s : Scientific) : ℤ := s.decade + 1 - s.digits.length

/-- The magnitude that the digits stand for. -/
def magnitude (s : Scientific) : ℚ := s.coefficient * 10 ^ s.exponent

variable {n : ℕ} {k : ℤ}

/-- Without the zeros at its end, a scaled whole number has the digits of another one, with a higher
exponent. -/
theorem ofScaled_eq (hn : 0 < n) (k : ℤ) :
    ∃ c t : ℕ, n = c * 10 ^ t ∧ c % 10 ≠ 0
      ∧ ofScaled n k = ⟨Nat.toDigits 10 c, k + Decimal.digitCount n - 1⟩ := by
  obtain ⟨t, c, hc, hct⟩ := Nat.exists_eq_pow_mul_and_not_dvd hn.ne' 10 (by decide)
  rw [mul_comm] at hct
  have hmod : c % 10 ≠ 0 := fun h => hc (Nat.dvd_of_mod_eq_zero h)
  have hcpos : 0 < c := by
    rcases Nat.eq_zero_or_pos c with rfl | hpos
    · exact absurd (dvd_zero 10) hc
    · exact hpos
  refine ⟨c, t, hct, hmod, ?_⟩
  have hzeros : ∀ a ∈ List.replicate t '0', (a == '0') = true := fun a ha => by
    rw [List.eq_of_mem_replicate ha]
    rfl
  have hsignificant : ((Nat.toDigits 10 n).reverse.dropWhile (· == '0')).reverse
      = Nat.toDigits 10 c := by
    rw [hct, Decimal.toDigits_mul_pow hcpos, List.reverse_append, List.reverse_replicate,
      List.dropWhile_append_of_pos hzeros, Decimal.dropWhile_reverse_toDigits hmod,
      List.reverse_reverse]
  rw [ofScaled, hsignificant, if_neg Nat.toDigits_ne_nil, Decimal.digitCount]

/-- The digits of a scaled whole number are those of their coefficient. -/
theorem toDigits_coefficient_ofScaled (hn : 0 < n) (k : ℤ) :
    Nat.toDigits 10 (ofScaled n k).coefficient = (ofScaled n k).digits := by
  obtain ⟨c, t, -, -, heq⟩ := ofScaled_eq hn k
  rw [heq, coefficient, Decimal.ofDigits, Nat.ofDigitChars_toDigits (by decide) (by decide)]

/-- The digits of a scaled whole number stand for it. -/
theorem magnitude_ofScaled (hn : 0 < n) (k : ℤ) : (ofScaled n k).magnitude = n * 10 ^ k := by
  obtain ⟨c, t, hct, hmod, heq⟩ := ofScaled_eq hn k
  have hcpos : 0 < c := by
    rcases Nat.eq_zero_or_pos c with rfl | hpos
    · exact absurd rfl hmod
    · exact hpos
  have hcoefficient : (ofScaled n k).coefficient = c := by
    rw [heq, coefficient, Decimal.ofDigits, Nat.ofDigitChars_toDigits (by decide) (by decide)]
  have hexponent : (ofScaled n k).exponent = t + k := by
    have hcount : Decimal.digitCount n = (Nat.toDigits 10 c).length + t := by
      rw [hct, Decimal.digitCount_mul_pow hcpos, Decimal.digitCount]
    rw [heq, exponent]
    dsimp only
    omega
  rw [magnitude, hcoefficient, hexponent, zpow_add₀ (by norm_num), zpow_natCast, hct]
  push_cast
  ring

/-- A scaled whole number that is no multiple of ten keeps its digits. -/
theorem length_ofScaled (h : n % 10 ≠ 0) (k : ℤ) :
    (ofScaled n k).digits.length = Decimal.digitCount n := by
  rw [ofScaled, Decimal.dropWhile_reverse_toDigits h, List.reverse_reverse,
    if_neg Nat.toDigits_ne_nil, Decimal.digitCount]

end Scientific

end Stencil
