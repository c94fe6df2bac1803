import Stencil.Json.Numeral
import Stencil.Proofs.Numeric.Reading

/-!
# JSON numerals that are read exactly

A JSON numeral is read in steps, each of which rounds. As long as the number that its digits write
and the power of ten are doubles themselves, only the last step has something to round, and the
numeral is read as the double nearest to it.

## Main results

* `Stencil.Json.gather_eq` — digits that fit 64 bits are gathered to the last one.
* `Stencil.Json.scale?_eq_nearest` — a whole number that is a double is rounded only once when it is
  scaled by at most 22 decades.
* `Stencil.Json.number?_eq_nearest` — a numeral with few digits and decades is read as the double
  nearest to it.
-/

set_option autoImplicit false

namespace Stencil.Json

open Binary64 Decimal

/-! ## Digits -/

/-- A number does not shrink when digits are put behind it. -/
theorem le_ofDigitChars (ds : List Char) (n : ℕ) : n ≤ Nat.ofDigitChars 10 ds n := by
  induction ds generalizing n with
  | nil => exact le_rfl
  | cons c r ih =>
    rw [Nat.ofDigitChars_cons]
    exact le_trans (by omega) (ih _)

/-- Digits that fit 64 bits are gathered to the last one. -/
theorem gather_eq {ds : List Char} {n : ℕ}
    (h : fitsUnsigned (Nat.ofDigitChars 10 ds n) = true) :
    gather n ds = (Nat.ofDigitChars 10 ds n, []) := by
  induction ds generalizing n with
  | nil => rfl
  | cons c r ih =>
    rw [Nat.ofDigitChars_cons] at h ⊢
    have hle := le_ofDigitChars r (10 * n + (c.toNat - '0'.toNat))
    have hnext : fitsUnsigned (10 * n + (c.toNat - '0'.toNat) : ℕ) = true := by
      simp only [fitsUnsigned, Bool.and_eq_true, decide_eq_true_eq] at h ⊢
      omega
    rw [gather, if_pos hnext, ih h]

/-! ## Scaling -/

/-- The small powers of ten are doubles. -/
theorem powerOfTen_eq {k : ℕ} (h : k ≤ 22) : powerOfTen k = 10 ^ k := by
  have hall : (List.range 23).all (fun k => powerOfTen k == 10 ^ k) = true := by decide +kernel
  exact beq_iff_eq.1 (List.all_eq_true.1 hall k (List.mem_range.2 (by omega)))

variable {x : Binary64} {n : ℕ} {negative : Bool}

/-- A product with a power of ten is what its exact magnitude is rounded to. -/
theorem times_eq_nearest (hx : x.magnitude = n) (hsign : x.negative = negative) (k : ℕ) :
    x.times (10 ^ k) = nearest ⟨negative, n, k⟩ := by
  have hmagnitude : ((x.numerator * 10 ^ k : ℕ) / x.denominator : ℚ)
      = Decimal.magnitude ⟨negative, n, k⟩ := by
    rw [Decimal.magnitude, ← hx, Binary64.magnitude_eq_div, zpow_natCast]
    push_cast
    ring
  rw [times, ofRatio_eq_iff x.denominator_pos, hmagnitude, hsign]
  exact rounded_nearest ⟨negative, n, k⟩

/-- A quotient by a power of ten is what its exact magnitude is rounded to. -/
theorem dividedBy_eq_nearest (hx : x.magnitude = n) (hsign : x.negative = negative) (k : ℕ) :
    x.dividedBy (10 ^ k) = nearest ⟨negative, n, -k⟩ := by
  have hmagnitude : (x.numerator / (x.denominator * 10 ^ k : ℕ) : ℚ)
      = Decimal.magnitude ⟨negative, n, -k⟩ := by
    rw [Decimal.magnitude, ← hx, Binary64.magnitude_eq_div, zpow_neg, zpow_natCast]
    push_cast
    rw [div_mul_eq_div_div, div_eq_mul_inv]
  rw [dividedBy, ofRatio_eq_iff (Nat.mul_pos x.denominator_pos (by positivity)), hmagnitude, hsign]
  exact rounded_nearest ⟨negative, n, -k⟩

/-- A whole double scaled by at most 22 decades is the double nearest to the exact product or
quotient. -/
theorem scale?_eq_nearest (hx : x.magnitude = n) (hsign : x.negative = negative) {e : ℤ}
    (he : e.natAbs ≤ 22) : scale? x e = (nearest ⟨negative, n, e⟩).finite? := by
  cases hzero : x.isZero with
  | true =>
    have hn : n = 0 := by
      rw [magnitude_of_isZero hzero] at hx
      exact_mod_cast hx.symm
    subst hn
    have hx : x = zero negative := by
      refine ext_magnitude hsign ?_
      rw [hx, magnitude_of_isZero rfl, Nat.cast_zero]
    rw [scale?, if_pos hzero, hx]
    rfl
  | false =>
    rw [scale?, hzero, if_neg Bool.false_ne_true, if_neg (by omega)]
    split
    · next hpos =>
      rw [powerOfTen_eq (by omega), times_eq_nearest hx hsign, Int.toNat_of_nonneg hpos]
    · next hneg =>
      have hsteps : ((-e).toNat - 1) / 308 = 0 := Nat.div_eq_of_lt (by omega)
      have hdecades : -((-e).toNat : ℤ) = e := by omega
      simp only [hsteps, shrink?, Option.bind_some, Nat.mul_zero, Nat.sub_zero]
      rw [powerOfTen_eq (by omega), dividedBy_eq_nearest hx hsign, hdecades]

/-! ## Numerals -/

variable {s r whole rest fraction : List Char} {exponent : ℤ}

/-- The digits of a numeral that write a number of at most 53 bits, scaled by at most 22 decades,
make the double nearest to the numeral. -/
theorem double?_eq_nearest (negative : Bool)
    (hdigits : ofDigits (whole ++ fraction) ≤ Number.maxSafe)
    (hexponent : (exponent - fraction.length).natAbs ≤ 22) :
    double? negative whole fraction exponent = (nearest ⟨negative, ofDigits (whole ++ fraction),
      exponent - fraction.length⟩).finite? := by
  -- The digits of the whole part fit, since those of the fraction do behind them.
  have hfraction : ofDigits (whole ++ fraction) = Nat.ofDigitChars 10 fraction (ofDigits whole) :=
    Nat.ofDigitChars_append 0
  have hle := le_ofDigitChars fraction (ofDigits whole)
  have hfits : ∀ m : ℕ, m ≤ ofDigits (whole ++ fraction) → fitsUnsigned m = true := by
    intro m hm
    have hsafe : Number.maxSafe = 9007199254740991 := rfl
    simp only [fitsUnsigned, Bool.and_eq_true, decide_eq_true_eq]
    omega
  have hleading : gather 0 whole = (ofDigits whole, []) := gather_eq (hfits _ (hfraction ▸ hle))
  have hgather : gather (ofDigits whole) fraction = (ofDigits (whole ++ fraction), []) := by
    rw [hfraction]
    exact gather_eq (hfits _ hfraction.ge)
  obtain ⟨x, hx, hsign, hmagnitude⟩ := exists_ofRatio_eq_finite negative hdigits
  simp only [double?, hleading, hgather, hx, Extended.finite?, Option.bind_some, List.length_nil,
    Nat.cast_zero, add_zero, sub_zero]
  exact scale?_eq_nearest hmagnitude hsign hexponent

/-- **Short numerals are read as the nearest double.** A numeral with a fraction or an exponent
whose digits write a number of at most 53 bits, and whose power of ten has at most 22 decades, is
read as the double nearest to it. -/
theorem number?_eq_nearest (hminus : takeMinus s = (negative, r))
    (hwhole : takeWhole? r = some (whole, rest)) (hrest : rest ≠ [])
    (htail : takeTail? rest = some (fraction, exponent))
    (hdigits : ofDigits (whole ++ fraction) ≤ Number.maxSafe)
    (hexponent : (exponent - fraction.length).natAbs ≤ 22) :
    number? s = (nearest ⟨negative, ofDigits (whole ++ fraction),
      exponent - fraction.length⟩).finite?.map .float := by
  rw [← double?_eq_nearest negative hdigits hexponent, Option.map_eq_bind]
  simp [number?, hminus, hwhole, hrest, htail]

/-- One tenth below zero is read as the double nearest to it. -/
example : number? "-0.1".toList = (nearest ⟨true, 1, -1⟩).finite?.map .float := by
  decide +kernel

end Stencil.Json
