import Stencil.Proofs.Numeric.Digits
import Stencil.Proofs.Numeric.Whole

/-!
# Reading decimals

A decimal is read as the double to whose magnitude its own is rounded; that magnitudes from
`10 ^ 309` on are infinite and those below `10 ^ -324` zero without any rounding makes no
difference. So the decimals that read back as one double have no gaps between them.

## Main definitions

* `Stencil.Decimal.magnitude` — the magnitude of a decimal.

## Main results

* `Stencil.Decimal.nearest_eq_iff` — the double nearest to a decimal.
* `Stencil.Binary64.readsBack_iff` — the decimals that read back as a double.
-/

set_option autoImplicit false

namespace Stencil

namespace Decimal

/-! ## The double nearest to a decimal -/

/-- The magnitude of a decimal. -/
def magnitude (d : Decimal) : ℚ := d.coefficient * 10 ^ d.exponent

variable {d : Decimal}

/-- The magnitude is the fraction that is rounded. -/
theorem magnitude_eq_div (d : Decimal) :
    d.magnitude = (d.coefficient * Nat.pow 10 d.exponent.toNat : ℕ)
      / (Nat.pow 10 (-d.exponent).toNat : ℕ) := by
  rw [magnitude, Binary64.zpow_eq_div (by norm_num), Nat.pow_eq, Nat.pow_eq]
  push_cast
  rw [mul_div_assoc]

/-- The greatest binade begins below a power of ten. -/
theorem two_zpow_le_ten_zpow : (2 : ℚ) ^ (1023 : ℤ) ≤ 10 ^ (308 : ℤ) := by
  calc (2 : ℚ) ^ (1023 : ℤ) = (2 ^ (93 : ℤ)) ^ (11 : ℤ) := by rw [← zpow_mul]; rfl
    _ ≤ (10 ^ (28 : ℤ)) ^ (11 : ℤ) := zpow_le_zpow_left₀ (by norm_num) (by norm_num) (by norm_num)
    _ = 10 ^ (308 : ℤ) := by rw [← zpow_mul]; rfl

open Binary64 in
/-- Magnitudes from `10 ^ 309` on are out of range. -/
theorem rounded_infinite_of_le {q : ℚ} (negative : Bool) (h : 10 ^ (309 : ℤ) ≤ q) :
    Rounded negative q (.infinite negative) := by
  have htop : (2 : ℚ) ^ (1024 : ℤ) ≤ q := by
    calc (2 : ℚ) ^ (1024 : ℤ) = 2 ^ (1023 : ℤ) * 2 ^ (1 : ℤ) := zpow_add₀ two_ne_zero 1023 1
      _ ≤ 10 ^ (308 : ℤ) * 10 ^ (1 : ℤ) :=
        mul_le_mul two_zpow_le_ten_zpow (by norm_num) (by norm_num) (zpow_pos (by norm_num) _).le
      _ = 10 ^ (309 : ℤ) := (zpow_add₀ (by norm_num) 308 1).symm
      _ ≤ q := h
  obtain ⟨r, hr⟩ := exists_roundsTo ((two_zpow_pos _).le.trans htop)
  exact .infinite hr (hr.two_zpow_le (by norm_num) htop)

open Binary64 in
/-- Magnitudes below `10 ^ -324` are rounded to zero. -/
theorem rounded_zero_of_lt {q : ℚ} (negative : Bool) (hq : 0 < q) (h : q < 10 ^ (-324 : ℤ)) :
    Rounded negative q (.finite (.zero negative)) := by
  have hsmall : q < 2 ^ (-1075 : ℤ) := by
    refine h.trans_le ?_
    rw [zpow_neg, zpow_neg]
    refine inv_anti₀ (two_zpow_pos 1075) ?_
    calc (2 : ℚ) ^ (1075 : ℤ) = 2 ^ (1023 : ℤ) * 2 ^ (52 : ℤ) := zpow_add₀ two_ne_zero 1023 52
      _ ≤ 10 ^ (308 : ℤ) * 10 ^ (16 : ℤ) :=
        mul_le_mul two_zpow_le_ten_zpow (by norm_num) (by norm_num) (zpow_pos (by norm_num) _).le
      _ = 10 ^ (324 : ℤ) := (zpow_add₀ (by norm_num) 308 16).symm
  have hplace : place q = -1074 :=
    place_eq hq le_rfl (Or.inl rfl)
      (hsmall.trans (zpow_lt_zpow_right₀ (by norm_num) (by norm_num)))
  have hzero : (zero negative).magnitude = 0 := magnitude_of_isZero rfl
  refine .finite rfl (roundsTo_of_abs_sub_lt_half (m := 0) ?_ ?_)
  · rw [hzero, Nat.cast_zero, zero_mul]
  · rw [hzero, sub_zero, abs_of_pos hq, hplace]
    refine hsmall.trans_eq ?_
    rw [show (-1075 : ℤ) = -1074 - 1 by norm_num, zpow_sub_one₀ two_ne_zero, div_eq_mul_inv]

/-- A decimal is rounded as its magnitude is. -/
theorem rounded_nearest (d : Decimal) : Binary64.Rounded d.negative d.magnitude d.nearest := by
  rw [nearest]
  by_cases hzero : d.coefficient = 0
  · rw [if_pos hzero, magnitude, hzero, Nat.cast_zero, zero_mul]
    exact Binary64.rounded_zero d.negative
  rw [if_neg hzero]
  by_cases htop : 310 ≤ digitCount d.coefficient + d.exponent
  · rw [if_pos htop]
    have hle := zpow_le_mul (Nat.pos_of_ne_zero hzero) d.exponent
    refine rounded_infinite_of_le d.negative (le_trans ?_ hle)
    exact zpow_le_zpow_right₀ (by norm_num) (by omega)
  rw [if_neg htop]
  by_cases hbottom : digitCount d.coefficient + d.exponent ≤ -324
  · have hcast : (0 : ℚ) < d.coefficient := by exact_mod_cast Nat.pos_of_ne_zero hzero
    rw [if_pos hbottom]
    refine rounded_zero_of_lt d.negative (mul_pos hcast (zpow_pos (by norm_num) _)) ?_
    have hlt := mul_zpow_lt d.coefficient d.exponent
    exact hlt.trans_le (zpow_le_zpow_right₀ (by norm_num) hbottom)
  · rw [if_neg hbottom, magnitude_eq_div]
    exact Binary64.rounded_ofRatio d.negative _ (Nat.pow_pos (by decide))

/-- **The double nearest to a decimal** is what its magnitude is rounded to. -/
theorem nearest_eq_iff {outcome : Extended} :
    d.nearest = outcome ↔ Binary64.Rounded d.negative d.magnitude outcome :=
  d.rounded_nearest.eq_iff

end Decimal

namespace Binary64

variable {x : Binary64} {n : ℕ} {k : ℤ}

/-- **The decimals that read back as a double** are those that are rounded to its magnitude. -/
theorem readsBack_iff : x.ReadsBack n k ↔ RoundsTo (n * 10 ^ k) x.magnitude := by
  rw [ReadsBack, Decimal.nearest_eq_iff, rounded_finite_iff]
  exact and_iff_right rfl

end Binary64

end Stencil
