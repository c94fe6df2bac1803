import Mathlib.Algebra.Order.Field.Power
import Mathlib.Data.Int.Log
import Mathlib.Data.Rat.Floor
import Mathlib.Tactic.FieldSimp
import Mathlib.Tactic.Linarith
import Mathlib.Tactic.NormNum
import Mathlib.Tactic.Positivity
import Mathlib.Tactic.Ring
import Stencil.Numeric.Binary64

/-!
# Rounding to doubles

What rounding does, told in rational numbers. A magnitude is rounded to a multiple of a power of
two, the last place, that depends on how large it is; of two multiples that are equally near, the
even one is taken. Rounding keeps doubles as they are and keeps the order of magnitudes, and what
it gives depends on the magnitude alone and not on the fraction that stands for it.

## Main definitions

* `Stencil.Binary64.magnitude` — the magnitude of a double as a rational number.
* `Stencil.Binary64.NearestWhole` — a whole number is nearest to a rational one.
* `Stencil.Binary64.place` — the exponent of the last place of a magnitude.
* `Stencil.Binary64.RoundsTo` — a magnitude is rounded to another one.
* `Stencil.Binary64.Rounded` — a magnitude with a sign is rounded to a double or to an infinity.

## Main results

* `Stencil.Binary64.ext_magnitude` — a double is its sign and its magnitude.
* `Stencil.Binary64.RoundsTo.mono`, `Stencil.Binary64.RoundsTo.unique` — rounding keeps the order.
* `Stencil.Binary64.roundsTo_magnitude` — rounding keeps doubles.
* `Stencil.Binary64.ofRatio_eq_iff` — the double nearest to a fraction.
-/

set_option autoImplicit false

namespace Stencil.Binary64

variable {x y : Binary64} {q r : ℚ}

/-! ## Powers of two and of ten -/

/-- A power with any exponent as a fraction of two powers. -/
theorem zpow_eq_div {b : ℚ} (hb : b ≠ 0) (e : ℤ) : b ^ e = b ^ e.toNat / b ^ (-e).toNat := by
  have he : e = (e.toNat : ℤ) - (-e).toNat := (Int.toNat_sub_toNat_neg e).symm
  conv_lhs => rw [he, zpow_sub₀ hb, zpow_natCast, zpow_natCast]

theorem two_zpow_pos (e : ℤ) : (0 : ℚ) < 2 ^ e := zpow_pos (by norm_num) e

/-! ## Magnitudes -/

/-- The magnitude of a double. -/
def magnitude (x : Binary64) : ℚ := x.mantissa * 2 ^ x.exponent

/-- The magnitude is the fraction of the numerator and the denominator. -/
theorem magnitude_eq_div (x : Binary64) : x.magnitude = x.numerator / x.denominator := by
  rw [magnitude, numerator, denominator, zpow_eq_div two_ne_zero, Nat.pow_eq, Nat.pow_eq]
  push_cast
  rw [mul_div_assoc]

theorem magnitude_nonneg (x : Binary64) : 0 ≤ x.magnitude :=
  mul_nonneg (Nat.cast_nonneg _) (two_zpow_pos _).le

/-- Only zeros have no magnitude. -/
theorem magnitude_pos (h : x.isZero = false) : 0 < x.magnitude := by
  have hm : x.mantissa ≠ 0 := by simpa [isZero] using h
  have hpos : (0 : ℚ) < x.mantissa := by exact_mod_cast Nat.pos_of_ne_zero hm
  exact mul_pos hpos (two_zpow_pos _)

/-- Zeros have none. -/
theorem magnitude_of_isZero (h : x.isZero = true) : x.magnitude = 0 := by
  have hm : x.mantissa = 0 := by simpa [isZero] using h
  rw [magnitude, hm, Nat.cast_zero, zero_mul]

/-- A double is below the binade above its own. -/
theorem magnitude_lt (x : Binary64) : x.magnitude < 2 ^ (x.exponent + 53) := by
  have hm : (x.mantissa : ℚ) < 2 ^ (53 : ℤ) := by
    norm_num
    exact x.canonical.1
  rw [magnitude, add_comm, zpow_add₀ two_ne_zero]
  exact mul_lt_mul_of_pos_right hm (two_zpow_pos _)

/-- All doubles are below `2 ^ 1024`. -/
theorem magnitude_lt_top (x : Binary64) : x.magnitude < 2 ^ (1024 : ℤ) := by
  have he := x.canonical.2.2.1
  refine lt_of_lt_of_le x.magnitude_lt (zpow_le_zpow_right₀ (by norm_num) ?_)
  omega

/-- A double with an exponent that is not the least one is in its own binade. -/
theorem le_magnitude (h : x.exponent ≠ -1074) : 2 ^ (x.exponent + 52) ≤ x.magnitude := by
  have hm : (2 : ℚ) ^ (52 : ℤ) ≤ x.mantissa := by
    norm_num
    exact x.canonical.2.2.2.resolve_right h
  rw [magnitude, add_comm, zpow_add₀ two_ne_zero]
  exact mul_le_mul_of_nonneg_right hm (two_zpow_pos _).le

/-! ## The last place -/

/-- The exponent of the last place of a magnitude: 53 bits are in front of it, fewer when it is the
least one. -/
def place (q : ℚ) : ℤ := max (-1074) (Int.log 2 q - 52)

/-- The last place is the least one, or the magnitude has 53 bits in front of it. -/
theorem place_eq_or_le (hq : 0 < q) : place q = -1074 ∨ 2 ^ (place q + 52) ≤ q := by
  rcases le_total (Int.log 2 q - 52) (-1074) with h | h
  · exact Or.inl (max_eq_left h)
  · right
    have hlog := Int.zpow_log_le_self (R := ℚ) (b := 2) (by norm_num) hq
    rw [place, max_eq_right h, sub_add_cancel]
    exact_mod_cast hlog

/-- A magnitude has no more than 53 bits in front of its last place. -/
theorem lt_two_zpow_place (q : ℚ) : q < 2 ^ (place q + 53) := by
  have hlog := Int.lt_zpow_succ_log_self (R := ℚ) (b := 2) (by norm_num) q
  have hle : Int.log 2 q - 52 ≤ place q := le_max_right _ _
  refine lt_of_lt_of_le (by exact_mod_cast hlog) (zpow_le_zpow_right₀ (by norm_num) ?_)
  omega

/-- The last place is known from bounds on the magnitude. -/
theorem place_eq {e : ℤ} (hq : 0 < q) (he : -1074 ≤ e) (hlow : e = -1074 ∨ 2 ^ (e + 52) ≤ q)
    (hhigh : q < 2 ^ (e + 53)) : place q = e := by
  have hlt : Int.log 2 q < e + 53 := by
    rw [← Int.lt_zpow_iff_log_lt (by norm_num) hq]
    exact_mod_cast hhigh
  rcases hlow with rfl | hlow
  · exact max_eq_left (by omega)
  · have hle : e + 52 ≤ Int.log 2 q := by
      rw [← Int.zpow_le_iff_le_log (by norm_num) hq]
      exact_mod_cast hlow
    rw [place]
    omega

/-- A greater magnitude has no lower last place. -/
theorem place_mono (hq : 0 < q) (h : q ≤ r) : place q ≤ place r :=
  max_le_max_left _ (sub_le_sub_right (Int.log_mono_right hq h) 52)

/-- The last place of a double is its exponent. -/
theorem place_magnitude (h : x.isZero = false) : place x.magnitude = x.exponent := by
  refine place_eq (magnitude_pos h) x.canonical.2.1 ?_ x.magnitude_lt
  by_cases he : x.exponent = -1074
  · exact Or.inl he
  · exact Or.inr (le_magnitude he)

/-- A double is its sign and its magnitude.

**Proof sketch.** The exponent is the last place of the magnitude, unless it is zero, and the
mantissa counts the multiples of the last place. -/
theorem ext_magnitude (hsign : x.negative = y.negative) (h : x.magnitude = y.magnitude) :
    x = y := by
  have hexponent : x.exponent = y.exponent := by
    cases hx : x.isZero with
    | false =>
      have hy : y.isZero = false := by
        by_contra hy
        have hzero := magnitude_of_isZero (eq_true_of_ne_false hy)
        exact (magnitude_pos hx).ne' (h.trans hzero)
      rw [← place_magnitude hx, ← place_magnitude hy, h]
    | true =>
      have hleast : ∀ z : Binary64, z.magnitude = 0 → z.exponent = -1074 := by
        intro z hz
        by_contra he
        have hpos : (0 : ℚ) < 2 ^ (z.exponent + 52) := two_zpow_pos _
        have hle := le_magnitude he
        linarith
      have hzero := magnitude_of_isZero hx
      rw [hleast x hzero, hleast y (h ▸ hzero)]
  have hmantissa : x.mantissa = y.mantissa := by
    rw [magnitude, magnitude, hexponent] at h
    exact_mod_cast mul_right_cancel₀ (two_zpow_pos y.exponent).ne' h
  obtain ⟨sx, mx, ex, hx⟩ := x
  obtain ⟨sy, my, ey, hy⟩ := y
  cases hsign
  cases hexponent
  cases hmantissa
  rfl

/-! ## Nearest whole numbers -/

/-- A whole number is nearest to a rational one; it is even when another one is equally near. -/
structure NearestWhole (q : ℚ) (m : ℕ) : Prop where
  lower : m - 1 / 2 ≤ q
  upper : q ≤ m + 1 / 2
  even : q = m - 1 / 2 ∨ q = m + 1 / 2 → m % 2 = 0

/-- The nearest whole number of a fraction. -/
theorem nearestWhole_roundHalfEven (num : ℕ) {den : ℕ} (hden : 0 < den) :
    NearestWhole (num / den) (roundHalfEven num den) := by
  have hpos : (0 : ℚ) < den := by exact_mod_cast hden
  have hle : 2 * (roundHalfEven num den * den) ≤ 2 * num + den
      ∧ 2 * num ≤ 2 * (roundHalfEven num den * den) + den := roundHalfEven_le hden
  have hlow : (2 * (roundHalfEven num den * den) : ℚ) ≤ 2 * num + den := by exact_mod_cast hle.1
  have hhigh : (2 * num : ℚ) ≤ 2 * (roundHalfEven num den * den) + den := by
    exact_mod_cast hle.2
  refine ⟨?_, ?_, ?_⟩
  · rw [le_div_iff₀ hpos]
    linarith
  · rw [div_le_iff₀ hpos]
    linarith
  · intro h
    have htie : 2 * (roundHalfEven num den * den) = 2 * num + den
        ∨ 2 * num = 2 * (roundHalfEven num den * den) + den := by
      rcases h with h | h
      · left
        rw [div_eq_iff hpos.ne'] at h
        have : (2 * (roundHalfEven num den * den) : ℚ) = 2 * num + den := by linarith
        exact_mod_cast this
      · right
        rw [div_eq_iff hpos.ne'] at h
        have : (2 * num : ℚ) = 2 * (roundHalfEven num den * den) + den := by linarith
        exact_mod_cast this
    have hdiv := Nat.div_add_mod num den
    have hcomm : den * (num / den) = num / den * den := Nat.mul_comm _ _
    have hmod := Nat.mod_lt num hden
    unfold roundHalfEven at htie ⊢
    dsimp only at htie ⊢
    split at htie
    · next hdown =>
      rw [if_pos hdown]
      omega
    · next hup =>
      rw [if_neg hup]
      rw [Nat.add_mul] at htie
      omega

/-- Nearest whole numbers keep the order. -/
theorem NearestWhole.mono {m n : ℕ} (hm : NearestWhole q m) (hn : NearestWhole r n) (h : q ≤ r) :
    m ≤ n := by
  by_contra hlt
  have hstep : n + 1 ≤ m := by omega
  have hcast : (n + 1 : ℚ) ≤ m := by exact_mod_cast hstep
  have hlow := hm.lower
  have hhigh := hn.upper
  -- both are halfway between `n` and `m = n + 1`, which cannot both be even
  have hq : q = m - 1 / 2 := by linarith
  have hr : r = n + 1 / 2 := by linarith
  have hm' : (m : ℚ) = n + 1 := by linarith
  have hsucc : m = n + 1 := by exact_mod_cast hm'
  have heven := hm.even (Or.inl hq)
  have heven' := hn.even (Or.inr hr)
  omega

/-- A whole number less than one half away is the nearest one. -/
theorem nearestWhole_of_lt {m : ℕ} (hlow : m - 1 / 2 < q) (hhigh : q < m + 1 / 2) :
    NearestWhole q m where
  lower := hlow.le
  upper := hhigh.le
  even := by
    rintro (h | h)
    · exact absurd h hlow.ne'
    · exact absurd h hhigh.ne

/-- A whole number is nearest to itself. -/
theorem nearestWhole_natCast (m : ℕ) : NearestWhole m m :=
  nearestWhole_of_lt (by linarith) (by linarith)

/-- Every rational number that is not negative has a nearest whole number. -/
theorem exists_nearestWhole (hq : 0 ≤ q) : ∃ m, NearestWhole q m := by
  have hnum : ((q.num.toNat : ℕ) : ℚ) = q.num := by
    exact_mod_cast congrArg (Int.cast (R := ℚ)) (Int.toNat_of_nonneg (Rat.num_nonneg.2 hq))
  have hnearest := nearestWhole_roundHalfEven q.num.toNat q.den_pos
  rw [hnum, Rat.num_div_den] at hnearest
  exact ⟨_, hnearest⟩

/-- No whole number is nearer than the nearest one. -/
theorem NearestWhole.closest {m : ℕ} (h : NearestWhole q m) (n : ℕ) : |m - q| ≤ |n - q| := by
  rcases eq_or_ne n m with rfl | hne
  · exact le_rfl
  have hhalf : |m - q| ≤ 1 / 2 := by
    have hlow := h.lower
    have hhigh := h.upper
    exact abs_le.2 ⟨by linarith, by linarith⟩
  have hone : (1 : ℚ) ≤ |(n : ℚ) - m| := by
    have hint : (1 : ℤ) ≤ |(n : ℤ) - m| := Int.one_le_abs (sub_ne_zero.2 (by exact_mod_cast hne))
    exact_mod_cast hint
  have htriangle := abs_sub_le (n : ℚ) q m
  rw [abs_sub_comm q m] at htriangle
  linarith

/-! ## Rounding -/

/-- A magnitude is rounded to a multiple of its last place. The result is not bounded above; the
ones from `2 ^ 1024` on are out of range for doubles. -/
def RoundsTo (q r : ℚ) : Prop :=
  ∃ m : ℕ, NearestWhole (q / 2 ^ place q) m ∧ r = m * 2 ^ place q

/-- A magnitude and the number of multiples it is rounded to. -/
theorem RoundsTo.exists_mul_le (h : RoundsTo q r) {k : ℕ} (hk : k * 2 ^ place q ≤ q) :
    k * 2 ^ place q ≤ r := by
  obtain ⟨m, hm, rfl⟩ := h
  have hpos := two_zpow_pos (place q)
  have hle : (k : ℚ) ≤ q / 2 ^ place q := by rwa [le_div_iff₀ hpos]
  have hkm : k ≤ m := (nearestWhole_natCast k).mono hm hle
  exact mul_le_mul_of_nonneg_right (by exact_mod_cast hkm) hpos.le

/-- The result is not above a multiple of the last place that the magnitude is not above. -/
theorem RoundsTo.le_mul (h : RoundsTo q r) {k : ℕ} (hk : q ≤ k * 2 ^ place q) :
    r ≤ k * 2 ^ place q := by
  obtain ⟨m, hm, rfl⟩ := h
  have hpos := two_zpow_pos (place q)
  have hle : q / 2 ^ place q ≤ k := by rwa [div_le_iff₀ hpos]
  have hmk : m ≤ k := hm.mono (nearestWhole_natCast k) hle
  exact mul_le_mul_of_nonneg_right (by exact_mod_cast hmk) hpos.le

/-- **Rounding keeps the order of magnitudes.**

**Proof sketch.** Two magnitudes with one last place are counted in its multiples. Otherwise the
least power of two with the higher last place is between the two, and is a multiple of both last
places. -/
theorem RoundsTo.mono {q' r' : ℚ} (h : RoundsTo q r) (h' : RoundsTo q' r') (hq : 0 < q)
    (hle : q ≤ q') : r ≤ r' := by
  rcases (place_mono hq hle).eq_or_lt with hplace | hplace
  · obtain ⟨m, hm, rfl⟩ := h
    obtain ⟨n, hn, rfl⟩ := h'
    rw [← hplace] at hn ⊢
    have hpos := two_zpow_pos (place q)
    have hmn : m ≤ n := hm.mono hn (div_le_div_of_nonneg_right hle hpos.le)
    exact mul_le_mul_of_nonneg_right (by exact_mod_cast hmn) hpos.le
  · have hmin : -1074 ≤ place q := le_max_left _ _
    have hpower : ∀ e : ℤ, ((2 ^ 52 : ℕ) : ℚ) * 2 ^ e = 2 ^ (e + 52) := by
      intro e
      rw [add_comm, zpow_add₀ two_ne_zero]
      norm_num
    have hbinade : 2 ^ (place q' + 52) ≤ q' :=
      (place_eq_or_le (hq.trans_le hle)).resolve_left (by omega)
    have hlower : (2 : ℚ) ^ (place q' + 52) ≤ r' := by
      rw [← hpower] at hbinade ⊢
      exact h'.exists_mul_le hbinade
    have hupper : r ≤ 2 ^ (place q + 53) := by
      have hdouble : ((2 ^ 53 : ℕ) : ℚ) * 2 ^ place q = 2 ^ (place q + 53) := by
        rw [add_comm, zpow_add₀ two_ne_zero]
        norm_num
      rw [← hdouble]
      exact h.le_mul (hdouble ▸ (lt_two_zpow_place q).le)
    refine hupper.trans (le_trans (zpow_le_zpow_right₀ (by norm_num) ?_) hlower)
    omega

/-- A magnitude is rounded to one magnitude only. -/
theorem RoundsTo.unique {r' : ℚ} (h : RoundsTo q r) (h' : RoundsTo q r') : r = r' := by
  obtain ⟨m, hm, rfl⟩ := h
  obtain ⟨n, hn, rfl⟩ := h'
  rw [le_antisymm (hm.mono hn le_rfl) (hn.mono hm le_rfl)]

/-- Rounding errs by at most one half of the last place. -/
theorem RoundsTo.abs_sub_le_half (h : RoundsTo q r) : |q - r| ≤ 2 ^ place q / 2 := by
  obtain ⟨m, hm, rfl⟩ := h
  have hpos := two_zpow_pos (place q)
  have hlow := (le_div_iff₀ hpos).1 hm.lower
  have hhigh := (div_le_iff₀ hpos).1 hm.upper
  rw [sub_mul] at hlow
  rw [add_mul] at hhigh
  exact abs_le.2 ⟨by linarith, by linarith⟩

/-- A multiple of the last place is taken when it is less than one half of the place away. -/
theorem roundsTo_of_abs_sub_lt_half {m : ℕ} (hr : r = m * 2 ^ place q)
    (h : |q - r| < 2 ^ place q / 2) : RoundsTo q r := by
  have hpos := two_zpow_pos (place q)
  obtain ⟨hlow, hhigh⟩ := abs_lt.1 h
  refine ⟨m, nearestWhole_of_lt ?_ ?_, hr⟩
  · rw [lt_div_iff₀ hpos, sub_mul]
    linarith
  · rw [div_lt_iff₀ hpos, add_mul]
    linarith

/-- A multiple of its last place is kept. -/
theorem roundsTo_self {m : ℕ} (h : q = m * 2 ^ place q) : RoundsTo q q := by
  refine roundsTo_of_abs_sub_lt_half h ?_
  rw [sub_self, abs_zero]
  exact half_pos (two_zpow_pos _)

/-- Nothing is rounded to nothing. -/
theorem roundsTo_zero : RoundsTo 0 0 :=
  roundsTo_self (m := 0) (by rw [Nat.cast_zero, zero_mul])

/-- **Rounding keeps doubles.** -/
theorem roundsTo_magnitude (x : Binary64) : RoundsTo x.magnitude x.magnitude := by
  cases hx : x.isZero with
  | true =>
    rw [magnitude_of_isZero hx]
    exact roundsTo_zero
  | false =>
    refine roundsTo_self (m := x.mantissa) ?_
    rw [place_magnitude hx, magnitude]

/-- Every magnitude is rounded to some magnitude. -/
theorem exists_roundsTo (hq : 0 ≤ q) : ∃ r, RoundsTo q r := by
  obtain ⟨m, hm⟩ := exists_nearestWhole (div_nonneg hq (two_zpow_pos (place q)).le)
  exact ⟨_, m, hm, rfl⟩

/-- The magnitudes that are rounded to one magnitude have no gaps between them. -/
theorem RoundsTo.between {q₁ q₂ : ℚ} (h₁ : RoundsTo q₁ r) (h₂ : RoundsTo q₂ r) (hpos : 0 < q₁)
    (hlow : q₁ ≤ q) (hhigh : q ≤ q₂) : RoundsTo q r := by
  have hq := hpos.trans_le hlow
  obtain ⟨r', hr'⟩ := exists_roundsTo hq.le
  have heq : r' = r := le_antisymm (hr'.mono h₂ hq hhigh) (h₁.mono hr' hpos hlow)
  exact heq ▸ hr'

/-- What a magnitude with a sign is rounded to: the double with the rounded magnitude, or an
infinity when that is out of range. -/
inductive Rounded (negative : Bool) (q : ℚ) : Extended → Prop where
  | finite {x : Binary64} (sign : x.negative = negative) (h : RoundsTo q x.magnitude) :
    Rounded negative q (.finite x)
  | infinite {r : ℚ} (h : RoundsTo q r) (top : 2 ^ (1024 : ℤ) ≤ r) :
    Rounded negative q (.infinite negative)

section

variable {negative : Bool} {outcome other : Extended}

/-- A magnitude with a sign is rounded to one outcome only. -/
theorem Rounded.unique (h : Rounded negative q outcome) (h' : Rounded negative q other) :
    outcome = other := by
  have hrange : ∀ {x : Binary64} {r : ℚ}, RoundsTo q x.magnitude → RoundsTo q r →
      ¬ 2 ^ (1024 : ℤ) ≤ r := by
    intro x r hx hr
    rw [← hx.unique hr]
    exact x.magnitude_lt_top.not_ge
  cases h with
  | finite sign h =>
    cases h' with
    | finite sign' h' => rw [ext_magnitude (sign.trans sign'.symm) (h.unique h')]
    | infinite h' top => exact absurd top (hrange h h')
  | infinite h top =>
    cases h' with
    | finite sign h' => exact absurd top (hrange h' h)
    | infinite h' top' => rfl

/-- What a magnitude is rounded to is known when one outcome is. -/
theorem Rounded.eq_iff (h : Rounded negative q outcome) :
    outcome = other ↔ Rounded negative q other :=
  ⟨fun heq => heq ▸ h, h.unique⟩

/-- A magnitude is rounded to a double when the sign and the rounded magnitude are its own. -/
theorem rounded_finite_iff :
    Rounded negative q (.finite x) ↔ x.negative = negative ∧ RoundsTo q x.magnitude := by
  constructor
  · rintro (⟨sign, h⟩ | _)
    exact ⟨sign, h⟩
  · rintro ⟨sign, h⟩
    exact .finite sign h

/-- Nothing is rounded to the zero of its sign. -/
theorem rounded_zero (negative : Bool) : Rounded negative 0 (.finite (zero negative)) := by
  have hzero : (zero negative).magnitude = 0 := zero_mul _
  refine .finite rfl ?_
  rw [hzero]
  exact roundsTo_zero

end

/-! ## The double nearest to a fraction -/

variable {negative : Bool} {num den : ℕ}

/-- A scaled fraction is the fraction over the power of two. -/
theorem scale_div (num den : ℕ) (e : ℤ) :
    ((scale num den e).1 / (scale num den e).2 : ℚ) = num / den / 2 ^ e := by
  rw [scale, zpow_eq_div two_ne_zero, Nat.pow_eq, Nat.pow_eq]
  push_cast
  exact (div_div_div_eq _ _ _ _).symm

/-- A scaled fraction has a denominator. -/
theorem scale_pos (hden : 0 < den) (e : ℤ) : 0 < (scale num den e).2 :=
  Nat.mul_pos hden (Nat.two_pow_pos _)

/-- The binade of a fraction is one of the two next to the difference of the binades of its
parts. -/
theorem two_zpow_log2_sub (hnum : 0 < num) (hden : 0 < den) :
    (2 : ℚ) ^ (Nat.log2 num - Nat.log2 den - 1 : ℤ) ≤ num / den
      ∧ (num / den : ℚ) < 2 ^ (Nat.log2 num - Nat.log2 den + 1 : ℤ) := by
  have hdpos : (0 : ℚ) < den := by exact_mod_cast hden
  have hnlow : (2 : ℚ) ^ Nat.log2 num ≤ num := by exact_mod_cast Nat.log2_self_le hnum.ne'
  have hdlow : (2 : ℚ) ^ Nat.log2 den ≤ den := by exact_mod_cast Nat.log2_self_le hden.ne'
  have hnhigh : (num : ℚ) < 2 ^ (Nat.log2 num + 1) := by exact_mod_cast Nat.lt_log2_self
  have hdhigh : (den : ℚ) < 2 ^ (Nat.log2 den + 1) := by exact_mod_cast Nat.lt_log2_self
  constructor
  · have hpower : (2 : ℚ) ^ (Nat.log2 num - Nat.log2 den - 1 : ℤ)
        = 2 ^ Nat.log2 num / 2 ^ (Nat.log2 den + 1) := by
      rw [sub_sub, zpow_sub₀ two_ne_zero, zpow_natCast]
      exact_mod_cast rfl
    rw [hpower]
    exact div_le_div₀ (Nat.cast_nonneg _) hnlow hdpos hdhigh.le
  · have hpower : (2 : ℚ) ^ (Nat.log2 num - Nat.log2 den + 1 : ℤ)
        = 2 ^ (Nat.log2 num + 1) / 2 ^ Nat.log2 den := by
      rw [sub_add_eq_add_sub, zpow_sub₀ two_ne_zero, zpow_natCast]
      exact_mod_cast rfl
    rw [hpower]
    exact div_lt_div₀ hnhigh hdlow (by positivity) (by positivity)

/-- The last place of a fraction is that of its magnitude. -/
theorem lastPlace_eq_place (hnum : 0 < num) (hden : 0 < den) :
    lastPlace num den = place (num / den) := by
  have hpos : (0 : ℚ) < num / den := by positivity
  obtain ⟨hlow, hhigh⟩ := two_zpow_log2_sub hnum hden
  have hlogLow : (Nat.log2 num - Nat.log2 den - 1 : ℤ) ≤ Int.log 2 (num / den : ℚ) := by
    rw [← Int.zpow_le_iff_le_log (by norm_num) hpos]
    exact_mod_cast hlow
  have hlogHigh : Int.log 2 (num / den : ℚ) < (Nat.log2 num - Nat.log2 den + 1 : ℤ) := by
    rw [← Int.lt_zpow_iff_log_lt (by norm_num) hpos]
    exact_mod_cast hhigh
  set e : ℤ := Nat.log2 num - Nat.log2 den - 52 with he
  have hdpos : (0 : ℚ) < (scale num den e).2 := by exact_mod_cast scale_pos hden e
  -- one comparison decides between the two binades that are left
  have hcompare : (scale num den e).1 < bits53 * (scale num den e).2
      ↔ Int.log 2 (num / den : ℚ) < 52 + e := by
    have hcast : ((scale num den e).1 < bits53 * (scale num den e).2)
        ↔ ((scale num den e).1 : ℚ) < bits53 * (scale num den e).2 := by exact_mod_cast Iff.rfl
    have hbits : (bits53 : ℚ) = 2 ^ (52 : ℤ) := by
      rw [bits53]
      norm_num
    rw [← Int.lt_zpow_iff_log_lt (by norm_num) hpos, hcast, ← div_lt_iff₀ hdpos, scale_div,
      div_lt_iff₀ (two_zpow_pos e), hbits, ← zpow_add₀ two_ne_zero, Nat.cast_ofNat]
  rw [lastPlace, place, ← he]
  dsimp only
  by_cases h : (scale num den e).1 < bits53 * (scale num den e).2
  · rw [if_pos h]
    have hlog := hcompare.1 h
    omega
  · rw [if_neg h]
    have hlog := fun hlt => h (hcompare.2 hlt)
    omega

/-- A mantissa of 53 bits, or any smaller one with the least exponent, is packed into a double, as
far as it is in range. -/
theorem rounded_pack {m : ℕ} {e : ℤ} (hq : RoundsTo q (m * 2 ^ e)) (hm : m < 2 * bits53)
    (he : -1074 ≤ e) (hbits : e = -1074 ∨ bits53 ≤ m) :
    Rounded negative q (pack negative m e) := by
  by_cases htop : e ≤ 971
  · have hcanonical : m < 9007199254740992 ∧ -1074 ≤ e ∧ e ≤ 971
        ∧ (4503599627370496 ≤ m ∨ e = -1074) := ⟨hm, he, htop, hbits.symm⟩
    rw [pack, dif_pos hcanonical]
    exact .finite rfl hq
  · have hleast : (2 : ℚ) ^ (52 : ℤ) ≤ m := by
      have hmin : bits53 ≤ m := hbits.resolve_left (by omega)
      norm_num
      exact hmin
    rw [pack, dif_neg fun h => htop h.2.2.1]
    refine .infinite hq ?_
    calc (2 : ℚ) ^ (1024 : ℤ) ≤ 2 ^ (52 + e) := zpow_le_zpow_right₀ (by norm_num) (by omega)
      _ = 2 ^ (52 : ℤ) * 2 ^ e := zpow_add₀ two_ne_zero 52 e
      _ ≤ m * 2 ^ e := mul_le_mul_of_nonneg_right hleast (two_zpow_pos e).le

/-- A fraction is rounded as its magnitude is.

**Proof sketch.** Between `2 ^ 52` and `2 ^ 53` multiples of the last place are in the magnitude, or
fewer when it is the least one, so that the number it is rounded to is a mantissa or `2 ^ 53`; the
latter is written with one bit less and the next exponent. -/
theorem rounded_ofRatio (negative : Bool) (num : ℕ) (hden : 0 < den) :
    Rounded negative (num / den) (ofRatio negative num den) := by
  rcases Nat.eq_zero_or_pos num with rfl | hnum
  · rw [Nat.cast_zero, zero_div]
    exact rounded_zero negative
  have hpos : (0 : ℚ) < num / den := by
    have hdpos : (0 : ℚ) < den := by exact_mod_cast hden
    positivity
  set e := place (num / den : ℚ) with he
  have hleast : -1074 ≤ e := le_max_left _ _
  set m := roundHalfEven (scale num den e).1 (scale num den e).2 with hm
  have hnearest : NearestWhole (num / den / 2 ^ e) m := by
    rw [← scale_div]
    exact nearestWhole_roundHalfEven _ (scale_pos hden e)
  have hhigh : m ≤ 2 * bits53 := by
    refine hnearest.mono (nearestWhole_natCast _) ?_
    rw [div_le_iff₀ (two_zpow_pos e)]
    have hlt := lt_two_zpow_place (num / den : ℚ)
    rw [← he, add_comm, zpow_add₀ two_ne_zero] at hlt
    refine hlt.le.trans_eq ?_
    norm_num [bits53]
  have hlow : e = -1074 ∨ bits53 ≤ m := by
    refine (place_eq_or_le hpos).imp_right fun hbinade => ?_
    refine (nearestWhole_natCast _).mono hnearest ?_
    rw [le_div_iff₀ (two_zpow_pos e)]
    rw [← he, add_comm, zpow_add₀ two_ne_zero] at hbinade
    refine le_trans (le_of_eq ?_) hbinade
    norm_num [bits53]
  have hrounds : RoundsTo (num / den) (m * 2 ^ e) := ⟨m, hnearest, rfl⟩
  rw [ofRatio, if_neg hnum.ne', lastPlace_eq_place hnum hden, ← he]
  dsimp only
  rw [← hm]
  by_cases hcarry : m < 2 * bits53
  · rw [if_pos hcarry]
    exact rounded_pack hrounds hcarry hleast hlow
  · have htop : m = 2 * bits53 := by omega
    have hmagnitude : (m * 2 ^ e : ℚ) = bits53 * 2 ^ (e + 1) := by
      rw [htop, zpow_add₀ two_ne_zero, zpow_one]
      push_cast
      ring
    rw [if_neg hcarry]
    exact rounded_pack (hmagnitude ▸ hrounds) (by decide) (by omega) (Or.inr le_rfl)

/-- **The double nearest to a fraction** is what its magnitude is rounded to. -/
theorem ofRatio_eq_iff (hden : 0 < den) {outcome : Extended} :
    ofRatio negative num den = outcome ↔ Rounded negative (num / den) outcome :=
  (rounded_ofRatio negative num hden).eq_iff

end Stencil.Binary64
