import Mathlib.Algebra.Order.Floor.Semifield
import Stencil.Numeric.Number
import Stencil.Proofs.Numeric.Rounding

/-!
# Whole doubles

Every whole number below `2 ^ 53` is a double, and every double from there on is whole. So rounding
a whole number gives a whole number, the one that was rounded when it is below `2 ^ 53`, and a
double without its fraction is a double.

## Main results

* `Stencil.Binary64.isWhole_iff` — a double is whole when its magnitude is.
* `Stencil.Binary64.roundsTo_natCast` — whole numbers below `2 ^ 53` are kept.
* `Stencil.Binary64.RoundsTo.exists_natCast` — whole numbers are rounded to whole numbers.
* `Stencil.Binary64.isWhole_of_maxSafe_lt` — doubles beyond `2 ^ 53 - 1` are whole.
* `Stencil.Number.ofExtended?_ofInt_truncate` — a double without its fraction.
-/

set_option autoImplicit false

namespace Stencil

namespace Binary64

variable {x : Binary64} {q r : ℚ} {n : ℕ}

/-! ## Whole magnitudes -/

/-- The whole part of the magnitude. -/
theorem wholeMagnitude_eq_floor (x : Binary64) : x.wholeMagnitude = ⌊x.magnitude⌋₊ := by
  rw [magnitude_eq_div, Nat.floor_div_eq_div, wholeMagnitude]

/-- A double is whole when its magnitude is its whole part. -/
theorem isWhole_iff : x.isWhole = true ↔ x.magnitude = x.wholeMagnitude := by
  have hdpos : (0 : ℚ) < x.denominator := by exact_mod_cast x.denominator_pos
  have hdiv := Nat.div_add_mod x.numerator x.denominator
  rw [isWhole, beq_iff_eq, magnitude_eq_div, div_eq_iff hdpos.ne', wholeMagnitude]
  constructor
  · intro h
    rw [h, Nat.add_zero, Nat.mul_comm] at hdiv
    exact_mod_cast hdiv.symm
  · intro h
    have hnum : x.numerator = x.numerator / x.denominator * x.denominator := by exact_mod_cast h
    rw [Nat.mul_comm] at hdiv
    omega

/-- Whole doubles that are not zero are not below one. -/
theorem wholeMagnitude_pos (hx : x.isZero = false) (hwhole : x.isWhole = true) :
    0 < x.wholeMagnitude := by
  have hpos := magnitude_pos hx
  rw [isWhole_iff.1 hwhole] at hpos
  exact_mod_cast hpos

/-- A double with the magnitude of a whole number is whole. -/
theorem isWhole_of_magnitude_eq (h : x.magnitude = n) :
    x.isWhole = true ∧ x.wholeMagnitude = n := by
  have hfloor : x.wholeMagnitude = n := by
    rw [wholeMagnitude_eq_floor, h, Nat.floor_natCast]
  exact ⟨isWhole_iff.2 (by rw [hfloor, h]), hfloor⟩

/-! ## Rounding whole numbers -/

/-- A power of two is kept, as far as it is not below the least last place. -/
theorem roundsTo_two_zpow {e : ℤ} (he : -1022 ≤ e) : RoundsTo (2 ^ e) (2 ^ e) := by
  have hplace : place (2 ^ e : ℚ) = e - 52 := by
    refine place_eq (two_zpow_pos e) (by omega) (Or.inr ?_) ?_
    · rw [sub_add_cancel]
    · exact zpow_lt_zpow_right₀ (by norm_num) (by omega)
  refine roundsTo_self (m := 2 ^ 52) ?_
  rw [hplace, Nat.cast_pow, Nat.cast_ofNat, ← zpow_natCast, ← zpow_add₀ two_ne_zero]
  congr 1
  push_cast
  ring

/-- What is not below a power of two is not rounded to anything below it. -/
theorem RoundsTo.two_zpow_le (h : RoundsTo q r) {e : ℤ} (he : -1022 ≤ e) (hq : 2 ^ e ≤ q) :
    2 ^ e ≤ r :=
  (roundsTo_two_zpow he).mono h (two_zpow_pos e) hq

/-- Whole numbers below `2 ^ 53` are kept. -/
theorem roundsTo_natCast (h : n ≤ Number.maxSafe) : RoundsTo n n := by
  rcases Nat.eq_zero_or_pos n with rfl | hn
  · rw [Nat.cast_zero]
    exact roundsTo_zero
  have hpos : (0 : ℚ) < n := by exact_mod_cast hn
  have hlog : Int.log 2 (n : ℚ) < 53 := by
    rw [← Int.lt_zpow_iff_log_lt (by norm_num) hpos]
    have hlt : n < 2 ^ 53 := Nat.lt_of_le_of_lt h (by decide)
    exact_mod_cast hlt
  obtain ⟨k, hk⟩ : ∃ k : ℕ, place (n : ℚ) = -k := by
    refine ⟨(-place (n : ℚ)).toNat, ?_⟩
    rw [place]
    omega
  refine roundsTo_self (m := n * 2 ^ k) ?_
  rw [hk, zpow_neg, zpow_natCast]
  push_cast
  rw [mul_assoc, mul_inv_cancel₀ (by positivity), mul_one]

/-- Whole numbers are rounded to whole numbers: below `2 ^ 53` they are kept, and from there on the
last place is not behind the point. -/
theorem RoundsTo.exists_natCast (h : RoundsTo n r) : ∃ k : ℕ, r = k := by
  rcases Nat.lt_or_ge Number.maxSafe n with hn | hn
  · obtain ⟨m, -, rfl⟩ := h
    have hpos : (0 : ℚ) < n := by exact_mod_cast Nat.zero_lt_of_lt hn
    have hlog : 53 ≤ Int.log 2 (n : ℚ) := by
      rw [← Int.zpow_le_iff_le_log (by norm_num) hpos]
      have hle : 2 ^ 53 ≤ n := hn
      exact_mod_cast hle
    obtain ⟨k, hk⟩ : ∃ k : ℕ, place (n : ℚ) = k := by
      refine ⟨(place (n : ℚ)).toNat, ?_⟩
      rw [place]
      omega
    refine ⟨m * 2 ^ k, ?_⟩
    rw [hk, zpow_natCast]
    push_cast
    rfl
  · exact ⟨n, h.unique (roundsTo_natCast hn)⟩

/-- Doubles from `2 ^ 53` on are whole: the last of their 53 bits is not behind the point. -/
theorem isWhole_of_maxSafe_lt (h : Number.maxSafe < x.wholeMagnitude) : x.isWhole = true := by
  have hfloor : (2 ^ (53 : ℤ) : ℚ) ≤ x.magnitude := by
    have hle : (x.wholeMagnitude : ℚ) ≤ x.magnitude := by
      rw [wholeMagnitude_eq_floor]
      exact Nat.floor_le x.magnitude_nonneg
    have hcast : ((2 ^ 53 : ℕ) : ℚ) ≤ x.wholeMagnitude := by
      have hnat : 2 ^ 53 ≤ x.wholeMagnitude := h
      exact_mod_cast hnat
    refine le_trans ?_ hle
    exact_mod_cast hcast
  have hexponent : (53 : ℤ) < x.exponent + 53 :=
    (zpow_lt_zpow_iff_right₀ (by norm_num)).1 (hfloor.trans_lt x.magnitude_lt)
  obtain ⟨k, hk⟩ : ∃ k : ℕ, x.exponent = k := ⟨x.exponent.toNat, by omega⟩
  refine (isWhole_of_magnitude_eq (n := x.mantissa * 2 ^ k) ?_).1
  rw [magnitude, hk, zpow_natCast]
  push_cast
  rfl

/-! ## The double nearest to a whole number -/

/-- The double nearest to a whole number is what its magnitude is rounded to. -/
theorem ofInt_eq_iff {n : ℤ} {outcome : Extended} :
    ofInt n = outcome ↔ Rounded (decide (n < 0)) n.natAbs outcome := by
  rw [ofInt, ofRatio_eq_iff Nat.one_pos, Nat.cast_one, div_one]

/-- The whole number of a whole double. -/
theorem truncate_of_sign {n : ℤ} (hsign : x.negative = decide (n < 0))
    (h : x.wholeMagnitude = n.natAbs) : x.truncate = n := by
  rw [truncate, h, hsign]
  split
  · next hneg =>
    have := of_decide_eq_true hneg
    omega
  · next hpos =>
    have := of_decide_eq_false (eq_false_of_ne_true hpos)
    omega

/-- A whole number of at most 53 bits is a double, of either sign. -/
theorem exists_ofRatio_eq_finite (negative : Bool) (h : n ≤ Number.maxSafe) :
    ∃ x, ofRatio negative n 1 = .finite x ∧ x.negative = negative ∧ x.magnitude = n := by
  have hkept := roundsTo_natCast h
  have hrounded := rounded_ofRatio negative n Nat.one_pos
  rw [Nat.cast_one, div_one] at hrounded
  cases hn : ofRatio negative n 1 with
  | finite x =>
    obtain ⟨hsign, hrounds⟩ := rounded_finite_iff.1 (hn ▸ hrounded)
    exact ⟨x, rfl, hsign, hrounds.unique hkept⟩
  | infinite sign =>
    rw [hn] at hrounded
    cases hrounded with
    | infinite hr htop =>
      have hlt : n < 2 ^ 53 := Nat.lt_of_le_of_lt h (by decide)
      have hcast : (n : ℚ) < 2 ^ (53 : ℤ) := by exact_mod_cast hlt
      have hpower : (2 : ℚ) ^ (53 : ℤ) ≤ 2 ^ (1024 : ℤ) :=
        zpow_le_zpow_right₀ (by norm_num) (by norm_num)
      rw [hr.unique hkept] at htop
      exact absurd htop (hcast.trans_le hpower).not_ge
  | nan =>
    rw [hn] at hrounded
    cases hrounded

/-- A whole number of at most 53 bits is a double. -/
theorem exists_ofInt_eq_finite {n : ℤ} (h : n.natAbs ≤ Number.maxSafe) :
    ∃ x, ofInt n = .finite x ∧ x.isWhole = true ∧ x.wholeMagnitude = n.natAbs ∧ x.truncate = n := by
  obtain ⟨x, hx, hsign, hmagnitude⟩ := exists_ofRatio_eq_finite (decide (n < 0)) h
  obtain ⟨hwhole, hfloor⟩ := isWhole_of_magnitude_eq hmagnitude
  exact ⟨x, hx, hwhole, hfloor, truncate_of_sign hsign hfloor⟩

end Binary64

/-! ## The number for a double -/

namespace Number

open Binary64

variable {x : Binary64}

/-- A whole double makes the number that it makes without its fraction. -/
theorem ofBinary64_of_isWhole (h : x.isWhole = true) : ofBinary64 x = truncate x := by
  rw [ofBinary64, truncate]
  simp only [h, true_and]

/-- **A double without its fraction is a double**, and the number for it is the whole number, or the
double itself beyond `2 ^ 53 - 1`, where it has no fraction.

**Proof sketch.** The whole part has at most 53 bits and is kept in rounding, or the double is whole
and its own whole part. -/
theorem ofExtended?_ofInt_truncate (x : Binary64) :
    ofExtended? (Binary64.ofInt x.truncate) = some (truncate x) := by
  rcases Nat.lt_or_ge maxSafe x.wholeMagnitude with h | h
  · have hwhole := isWhole_of_maxSafe_lt h
    have hsign : x.negative = decide (x.truncate < 0) := by
      rw [Binary64.truncate]
      cases x.negative with
      | true => simpa using Nat.zero_lt_of_lt h
      | false => simp
    have hself : Binary64.ofInt x.truncate = .finite x := by
      refine ofInt_eq_iff.2 (.finite hsign ?_)
      rw [abs_truncate, ← isWhole_iff.1 hwhole]
      exact x.roundsTo_magnitude
    rw [hself, ofExtended?, ofBinary64_of_isWhole hwhole]
  · rw [← abs_truncate] at h
    obtain ⟨y, hy, hwhole, hfloor, htruncate⟩ := exists_ofInt_eq_finite h
    rw [hy, ofExtended?, ofBinary64_of_isWhole hwhole, truncate, truncate, ← abs_truncate x,
      if_pos h, if_pos (hfloor ▸ h), htruncate]

/-- The double that a whole number has made has no fraction to lose. -/
theorem truncate_of_ofExtended?_ofInt {n : ℤ}
    (h : ofExtended? (Binary64.ofInt n) = some (.float x)) : truncate x = .float x := by
  cases hn : Binary64.ofInt n with
  | finite y =>
    rw [hn, ofExtended?, Option.some_inj] at h
    obtain ⟨-, hrounds⟩ := rounded_finite_iff.1 (ofInt_eq_iff.1 hn)
    obtain ⟨k, hk⟩ := hrounds.exists_natCast
    rw [ofBinary64_of_isWhole (isWhole_of_magnitude_eq hk).1] at h
    have hy : y = x := by
      rw [truncate] at h
      split at h
      · cases h
      · exact Number.float.inj h
    rw [← hy, h, hy]
  | infinite | nan =>
    rw [hn] at h
    cases h

end Number

end Stencil
