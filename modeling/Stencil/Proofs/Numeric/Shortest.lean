import Stencil.Proofs.Numeric.Grid

/-!
# Shortest digits of doubles

The digits that a double is written with are the fewest ones that read back as it, and the nearest
ones of these. Powers of ten have one digit, so that they tell apart the doubles and their shortest
digits in the same way; and whole numbers below `2 ^ 53` have themselves as shortest digits.

## Main definitions

* `Stencil.Binary64.IsShortest` — the fewest digits that read back as a double, and the nearest.

## Main results

* `Stencil.Binary64.isShortest_shortest` — the search on the grids finds the shortest digits.
* `Stencil.Binary64.IsShortest.zpow_le` — shortest digits are not below the powers of ten that the
  double is not below.
* `Stencil.Binary64.IsShortest.exists_whole` — shortest digits of whole doubles are whole.
* `Stencil.Binary64.IsShortest.magnitude_eq` — they are exact below `2 ^ 53`.
-/

set_option autoImplicit false

namespace Stencil.Binary64

variable {x : Binary64} {s : Scientific} {i j m n : ℕ} {k : ℤ}

/-- The fewest digits that read back as the double; and of as few digits that read back, none are
nearer to it. -/
structure IsShortest (x : Binary64) (s : Scientific) : Prop where
  digits : Nat.toDigits 10 s.coefficient = s.digits
  readsBack : x.ReadsBack s.coefficient s.exponent
  fewest : ∀ {n : ℕ} {k : ℤ}, x.ReadsBack n k → s.digits.length ≤ Decimal.digitCount n
  nearest : ∀ {n : ℕ} {k : ℤ}, x.ReadsBack n k → Decimal.digitCount n = s.digits.length →
    |s.magnitude - x.magnitude| ≤ |n * 10 ^ k - x.magnitude|

/-! ## The search -/

/-- A search in order of the numbers finds what the least number has that has anything. -/
theorem findSome?_range {α : Type} {f : ℕ → Option α} {b : α}
    (h : (List.range n).findSome? f = some b) : ∃ i, f i = some b ∧ ∀ j < i, f j = none := by
  induction n with
  | zero => cases h
  | succ n ih =>
    rw [List.range_succ, List.findSome?_append] at h
    cases hbefore : (List.range n).findSome? f with
    | some c =>
      rw [hbefore, Option.some_or] at h
      exact ih (hbefore.trans h)
    | none =>
      rw [hbefore, Option.none_or, List.findSome?_singleton] at h
      refine ⟨n, h, fun j hj => ?_⟩
      exact List.findSome?_eq_none_iff.1 hbefore j (List.mem_range.2 hj)

/-- The shortest digits are on the coarsest grid, from the decade of the double on, that has a
multiple which reads back. -/
theorem exists_shortest (hx : x.isZero = false) :
    ∃ i m : ℕ, x.onGrid? (Int.log 10 x.magnitude - i) = some m
      ∧ (∀ j < i, x.onGrid? (Int.log 10 x.magnitude - j) = none)
      ∧ x.shortest = Scientific.ofScaled m (Int.log 10 x.magnitude - i) := by
  set place : ℕ → ℤ := fun i => Int.log 10 x.magnitude - i with hplace
  obtain ⟨n, hn⟩ := exists_readsBack_seventeen hx
  obtain ⟨c, hc, -⟩ := hn.exists_onGrid? hx
  have hfound : ((List.range 17).findSome? fun i =>
      (x.onGrid? (place i)).map (Scientific.ofScaled · (place i))).isSome = true := by
    rw [List.findSome?_isSome_iff]
    refine ⟨16, by decide, ?_⟩
    rw [hplace]
    dsimp only
    rw [Nat.cast_ofNat, hc]
    rfl
  obtain ⟨s, hs⟩ := Option.isSome_iff_exists.1 hfound
  have hsearch : x.grids.findSome? (fun k => (x.onGrid? k).map (Scientific.ofScaled · k))
      = some s := by
    rw [grids_eq hx, List.findSome?_map]
    exact hs
  have hshortest : x.shortest = s := by
    rw [shortest, hx, if_neg Bool.false_ne_true, hsearch]
  obtain ⟨i, hi, hleast⟩ := findSome?_range hs
  obtain ⟨m, hm, hms⟩ := Option.map_eq_some_iff.1 hi
  exact ⟨i, m, hm, fun j hj => Option.map_eq_none_iff.1 (hleast j hj), hshortest.trans hms.symm⟩

/-- What reads back with at most `j + 1` digits is on the grid `j` places below the decade of the
double, or else a power of ten on that grid reads back that is nearer. -/
theorem ReadsBack.exists_on_grid (h : x.ReadsBack n k) (hx : x.isZero = false)
    (hj : Decimal.digitCount n ≤ j + 1) :
    ∃ c, x.ReadsBack c (Int.log 10 x.magnitude - j)
      ∧ |c * 10 ^ (Int.log 10 x.magnitude - j) - x.magnitude| ≤ |n * 10 ^ k - x.magnitude| := by
  set e := Int.log 10 x.magnitude with he
  rcases le_or_gt (e - j) k with hk | hk
  · have hexponent : e - j + (k - (e - j)).toNat = k := by omega
    refine ⟨n * 10 ^ (k - (e - j)).toNat, ?_, ?_⟩
    · rwa [readsBack_mul_pow, hexponent]
    · rw [mul_pow_mul_zpow, hexponent]
  · have hpower : ((10 ^ j : ℕ) : ℚ) * 10 ^ (e - j) = 10 ^ e := by
      rw [pow_mul_zpow, sub_add_cancel]
    have hbelow : (n * 10 ^ k : ℚ) ≤ 10 ^ e := by
      refine (Decimal.mul_zpow_lt n k).le.trans (zpow_le_zpow_right₀ (by norm_num) ?_)
      omega
    have hhigh := zpow_log_le hx
    refine ⟨10 ^ j, ?_, ?_⟩
    · rw [readsBack_iff, hpower]
      exact h.between hx (Or.inl ⟨hbelow, hhigh⟩)
    · rw [hpower, abs_of_nonpos (sub_nonpos.2 hhigh),
        abs_of_nonpos (sub_nonpos.2 (hbelow.trans hhigh))]
      linarith

section

variable (hm : x.onGrid? (Int.log 10 x.magnitude - i) = some m)
  (hleast : ∀ j < i, x.onGrid? (Int.log 10 x.magnitude - j) = none)

include hm hleast

/-- On the coarsest grid that has a multiple which reads back, no digits end in a zero, apart from
the next power of ten on the first grid. -/
theorem mod_ten_of_coarsest (hx : x.isZero = false) : m % 10 ≠ 0 ∨ i = 0 ∧ m = 10 := by
  obtain ⟨hlow, hhigh⟩ := (isNeighbour_of_onGrid? hm).bounds hx
  by_cases hten : m % 10 = 0
  · right
    cases i with
    | zero => exact ⟨rfl, by omega⟩
    | succ i =>
      have hback := readsBack_of_onGrid? hm
      have hcoarser : Int.log 10 x.magnitude - ((i + 1 : ℕ) : ℤ) + ((1 : ℕ) : ℤ)
          = Int.log 10 x.magnitude - i := by
        push_cast
        ring
      rw [show m = m / 10 * 10 ^ 1 by omega, readsBack_mul_pow, hcoarser] at hback
      obtain ⟨c, hc, -⟩ := hback.exists_onGrid? hx
      rw [hleast i (Nat.lt_succ_self i)] at hc
      cases hc
  · exact Or.inl hten

/-- On the coarsest grid there are as many digits as places. -/
theorem length_of_coarsest (hx : x.isZero = false) :
    (Scientific.ofScaled m (Int.log 10 x.magnitude - i)).digits.length = i + 1 := by
  obtain ⟨hlow, hhigh⟩ := (isNeighbour_of_onGrid? hm).bounds hx
  have hpos : 0 < m := Nat.lt_of_lt_of_le (Nat.pow_pos (by decide)) hlow
  rcases mod_ten_of_coarsest hm hleast hx with hten | ⟨rfl, rfl⟩
  · rw [Scientific.length_ofScaled hten, Decimal.digitCount_eq_iff hpos]
    refine ⟨hlow, lt_of_le_of_ne hhigh ?_⟩
    rintro rfl
    rw [pow_succ, Nat.mul_mod_left] at hten
    exact hten rfl
  · rfl

end

/-- **The search on the grids finds the shortest digits.**

**Proof sketch.** Fewer digits that read back would be on a coarser grid, or a power of ten between
them and the double would; but on these grids nothing reads back. As many digits that read back are
on the same grid, or a nearer power of ten is. -/
theorem isShortest_shortest (hx : x.isZero = false) : x.IsShortest x.shortest := by
  obtain ⟨i, m, hm, hleast, heq⟩ := exists_shortest hx
  have hpos := (readsBack_of_onGrid? hm).pos hx
  have hmagnitude := Scientific.magnitude_ofScaled hpos (Int.log 10 x.magnitude - i)
  have hlength := length_of_coarsest hm hleast hx
  rw [heq]
  refine ⟨Scientific.toDigits_coefficient_ofScaled hpos _, ?_, ?_, ?_⟩
  · rw [readsBack_iff, ← Scientific.magnitude, hmagnitude]
    exact readsBack_iff.1 (readsBack_of_onGrid? hm)
  · intro n k h
    by_contra hfewer
    rw [hlength] at hfewer
    obtain ⟨j, hj⟩ : ∃ j, Decimal.digitCount n = j + 1 :=
      ⟨_, (Nat.succ_pred_eq_of_pos (Decimal.digitCount_pos n)).symm⟩
    obtain ⟨c, hc, -⟩ := h.exists_on_grid hx hj.le
    obtain ⟨c', hc', -⟩ := hc.exists_onGrid? hx
    rw [hleast j (by omega)] at hc'
    cases hc'
  · intro n k h hcount
    obtain ⟨c, hc, hnear⟩ := h.exists_on_grid hx (hcount.trans hlength).le
    obtain ⟨c', hc', hnearest⟩ := hc.exists_onGrid? hx
    rw [hm, Option.some_inj] at hc'
    rw [hmagnitude, hc']
    exact hnearest.trans hnear

/-! ## Powers of ten -/

namespace IsShortest

variable {e : ℤ}

theorem length_digits (h : x.IsShortest s) :
    s.digits.length = Decimal.digitCount s.coefficient := by
  rw [Decimal.digitCount, h.digits]

theorem length_pos (h : x.IsShortest s) : 0 < s.digits.length :=
  h.length_digits ▸ Decimal.digitCount_pos _

theorem roundsTo (h : x.IsShortest s) : RoundsTo s.magnitude x.magnitude :=
  readsBack_iff.1 h.readsBack

/-- The decade of shortest digits is that of the magnitude they stand for. -/
theorem le_decade_iff (h : x.IsShortest s) (hx : x.isZero = false) :
    e ≤ s.decade ↔ 10 ^ e ≤ s.magnitude := by
  have hdecade : Decimal.digitCount s.coefficient + s.exponent = s.decade + 1 := by
    rw [Scientific.exponent, ← h.length_digits]
    ring
  constructor
  · intro he
    refine le_trans (zpow_le_zpow_right₀ (by norm_num) ?_)
      (Decimal.zpow_le_mul (h.readsBack.pos hx) s.exponent)
    omega
  · intro he
    have hlt := he.trans_lt (Decimal.mul_zpow_lt s.coefficient s.exponent)
    rw [hdecade] at hlt
    have := (zpow_lt_zpow_iff_right₀ (by norm_num : (1 : ℚ) < 10)).1 hlt
    omega

/-- Where a power of ten reads back, one digit suffices. -/
theorem length_eq_one (h : x.IsShortest s) (hpow : RoundsTo (10 ^ e) x.magnitude) :
    s.digits.length = 1 :=
  le_antisymm (h.fewest (readsBack_one_iff.2 hpow)) h.length_pos

/-- **Shortest digits are not below the powers of ten that the double is not below.** Otherwise the
power of ten would read back, and be nearer with only one digit. -/
theorem zpow_le (h : x.IsShortest s) (hx : x.isZero = false) (he : 10 ^ e ≤ x.magnitude) :
    10 ^ e ≤ s.magnitude := by
  by_contra hlt
  rw [not_le] at hlt
  have hpow : RoundsTo (10 ^ e) x.magnitude := h.readsBack.between hx (Or.inl ⟨hlt.le, he⟩)
  have hnearest := h.nearest (readsBack_one_iff.2 hpow) (h.length_eq_one hpow).symm
  rw [Nat.cast_one, one_mul, abs_of_nonpos (sub_nonpos.2 he),
    abs_of_nonpos (sub_nonpos.2 (hlt.le.trans he))] at hnearest
  linarith

/-! ## Whole doubles -/

/-- **Shortest digits of whole doubles are whole**: the double itself reads back, with no more
digits than are in front of the point. -/
theorem exists_whole (h : x.IsShortest s) (hx : x.isZero = false) (hwhole : x.isWhole = true) :
    ∃ t : ℕ, s.exponent = t := by
  have hmagnitude := isWhole_iff.1 hwhole
  have hpos := wholeMagnitude_pos hx hwhole
  have hself : (x.wholeMagnitude * 10 ^ (0 : ℤ) : ℚ) = x.magnitude := by
    rw [zpow_zero, mul_one, hmagnitude]
  have hfew : s.digits.length ≤ Decimal.digitCount x.wholeMagnitude := by
    refine h.fewest (k := 0) (readsBack_iff.2 ?_)
    rw [hself]
    exact x.roundsTo_magnitude
  have hdecade : (Decimal.digitCount x.wholeMagnitude + 0 - 1 : ℤ) ≤ s.decade := by
    refine (h.le_decade_iff hx).2 (h.zpow_le hx ?_)
    exact hself ▸ Decimal.zpow_le_mul hpos 0
  refine ⟨s.exponent.toNat, ?_⟩
  rw [Scientific.exponent]
  omega

/-- Digits without any behind the point stand for a whole number. -/
theorem magnitude_eq_natCast {t : ℕ} (ht : s.exponent = t) :
    s.magnitude = (s.coefficient * 10 ^ t : ℕ) := by
  rw [Scientific.magnitude, ht, zpow_natCast]
  push_cast
  rfl

/-- What is rounded to less than `2 ^ 53` is less than it. -/
theorem lt_of_wholeMagnitude_le (h : x.IsShortest s) (hsafe : x.wholeMagnitude ≤ Number.maxSafe) :
    s.magnitude < 2 ^ (53 : ℤ) := by
  by_contra hge
  have hle := h.roundsTo.two_zpow_le (by decide) (not_lt.1 hge)
  have hfloor : x.magnitude < (x.wholeMagnitude + 1 : ℕ) := by
    rw [wholeMagnitude_eq_floor]
    push_cast
    exact Nat.lt_floor_add_one _
  have hnat : x.wholeMagnitude + 1 ≤ 2 ^ 53 := Nat.succ_le_succ hsafe
  have hcast : ((x.wholeMagnitude + 1 : ℕ) : ℚ) ≤ 2 ^ (53 : ℤ) := by exact_mod_cast hnat
  exact absurd hle (hfloor.trans_le hcast).not_ge

/-- **Shortest digits are exact below `2 ^ 53`** for whole doubles: no other whole number reads back
there. -/
theorem magnitude_eq (h : x.IsShortest s) (hx : x.isZero = false) (hwhole : x.isWhole = true)
    (hsafe : x.wholeMagnitude ≤ Number.maxSafe) : s.magnitude = x.magnitude := by
  obtain ⟨t, ht⟩ := h.exists_whole hx hwhole
  have hlt := h.lt_of_wholeMagnitude_le hsafe
  have hrounds := h.roundsTo
  rw [magnitude_eq_natCast ht] at hlt hrounds ⊢
  have hnat : s.coefficient * 10 ^ t < 2 ^ 53 := by exact_mod_cast hlt
  exact (hrounds.unique (roundsTo_natCast (Nat.le_of_lt_succ hnat))).symm

/-! ## Doubles with a fraction -/

/-- Shortest digits of doubles that are not whole have some behind the point, and no more than
sixteen in front of it. -/
theorem bounds_of_fraction (h : x.IsShortest s) (hx : x.isZero = false)
    (hwhole : x.isWhole = false) : s.exponent < 0 ∧ s.decade ≤ 15 := by
  constructor
  · by_contra hnonneg
    have ht : s.exponent = (s.exponent.toNat : ℤ) := by omega
    have hrounds := h.roundsTo
    rw [magnitude_eq_natCast ht] at hrounds
    obtain ⟨c, hc⟩ := hrounds.exists_natCast
    rw [(isWhole_of_magnitude_eq hc).1] at hwhole
    cases hwhole
  · have hsafe : x.wholeMagnitude ≤ Number.maxSafe := by
      by_contra hlt
      rw [isWhole_of_maxSafe_lt (not_le.1 hlt)] at hwhole
      cases hwhole
    by_contra hlt
    have hten : (10 : ℚ) ^ (16 : ℤ) ≤ s.magnitude := (h.le_decade_iff hx).1 (by omega)
    have htwo := h.lt_of_wholeMagnitude_le hsafe
    norm_num at hten htwo
    linarith

end IsShortest

end Stencil.Binary64
