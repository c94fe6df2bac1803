import Stencil.Proofs.Numeric.Reading

/-!
# Decimal grids

The multiples of a power of ten that read back as a double. The decimals that read back have no
gaps, and the double itself is among them, so that if any multiple reads back, then one of the two
next to the double does. On the grid of seventeen digits the nearer one always reads back.

## Main results

* `Stencil.Binary64.exists_onGrid?` — a grid yields a multiple that reads back, if it has one, and
  none that reads back is nearer.
* `Stencil.Binary64.decade_eq_log` — the decade of a double.
* `Stencil.Binary64.roundsTo_of_abs_sub_lt` — what is near enough to a double reads back.
* `Stencil.Binary64.exists_readsBack_seventeen` — seventeen digits suffice.
-/

set_option autoImplicit false

namespace Stencil.Binary64

variable {x : Binary64} {q : ℚ} {m n : ℕ} {k : ℤ}

theorem ten_zpow_pos (e : ℤ) : (0 : ℚ) < 10 ^ e := zpow_pos (by norm_num) e

/-! ## Decimals that read back -/

/-- Zeros at the end of a coefficient can be counted in the exponent. -/
theorem mul_pow_mul_zpow (n t : ℕ) (k : ℤ) :
    ((n * 10 ^ t : ℕ) : ℚ) * 10 ^ k = n * 10 ^ (k + t) := by
  rw [zpow_add₀ (by norm_num), zpow_natCast]
  push_cast
  ring

/-- A power of ten on a grid of smaller ones. -/
theorem pow_mul_zpow (t : ℕ) (k : ℤ) : ((10 ^ t : ℕ) : ℚ) * 10 ^ k = 10 ^ (k + t) := by
  have hone := mul_pow_mul_zpow 1 t k
  rwa [one_mul, Nat.cast_one, one_mul] at hone

/-- A decimal reads back with zeros at its end as it does without them. -/
theorem readsBack_mul_pow (n t : ℕ) (k : ℤ) :
    x.ReadsBack (n * 10 ^ t) k ↔ x.ReadsBack n (k + t) := by
  rw [readsBack_iff, readsBack_iff, mul_pow_mul_zpow]

/-- A power of ten reads back with one digit. -/
theorem readsBack_one_iff : x.ReadsBack 1 k ↔ RoundsTo (10 ^ k) x.magnitude := by
  rw [readsBack_iff, Nat.cast_one, one_mul]

/-- Zero reads back as no other double. -/
theorem ReadsBack.pos (h : x.ReadsBack n k) (hx : x.isZero = false) : 0 < n := by
  rcases Nat.eq_zero_or_pos n with rfl | hn
  · rw [readsBack_iff, Nat.cast_zero, zero_mul] at h
    exact absurd (h.unique roundsTo_zero) (magnitude_pos hx).ne'
  · exact hn

/-- The magnitude of a decimal that reads back is positive. -/
theorem ReadsBack.decimal_pos (h : x.ReadsBack n k) (hx : x.isZero = false) :
    (0 : ℚ) < n * 10 ^ k :=
  mul_pos (Nat.cast_pos.2 (h.pos hx)) (ten_zpow_pos k)

/-- What is between a double and a decimal that reads back as it reads back too. -/
theorem ReadsBack.between (h : x.ReadsBack n k) (hx : x.isZero = false)
    (hq : n * 10 ^ k ≤ q ∧ q ≤ x.magnitude ∨ x.magnitude ≤ q ∧ q ≤ n * 10 ^ k) :
    RoundsTo q x.magnitude := by
  rcases hq with ⟨hlow, hhigh⟩ | ⟨hlow, hhigh⟩
  · exact (readsBack_iff.1 h).between x.roundsTo_magnitude (h.decimal_pos hx) hlow hhigh
  · exact x.roundsTo_magnitude.between (readsBack_iff.1 h) (magnitude_pos hx) hlow hhigh

/-! ## Neighbours on a grid -/

/-- A multiple of `10 ^ k` is next to the magnitude, below or above it. -/
def IsNeighbour (x : Binary64) (k : ℤ) (n : ℕ) : Prop :=
  n = ⌊x.magnitude / 10 ^ k⌋₊ ∨ n = ⌊x.magnitude / 10 ^ k⌋₊ + 1

/-- Distances from the magnitude are the same in multiples of `10 ^ k`. -/
theorem abs_mul_zpow_sub (x : Binary64) (n : ℕ) (k : ℤ) :
    |n * 10 ^ k - x.magnitude| = |n - x.magnitude / 10 ^ k| * 10 ^ k := by
  have hpos := ten_zpow_pos k
  rw [← abs_of_pos hpos, ← abs_mul, abs_of_pos hpos, sub_mul, div_mul_cancel₀ _ hpos.ne']

/-- The fraction that a grid rounds is the magnitude in multiples of `10 ^ k`. -/
theorem div_onGrid (x : Binary64) (k : ℤ) :
    ((x.numerator * Nat.pow 10 (-k).toNat : ℕ) : ℚ) / (x.denominator * Nat.pow 10 k.toNat : ℕ)
      = x.magnitude / 10 ^ k := by
  rw [magnitude_eq_div, zpow_eq_div (b := (10 : ℚ)) (by norm_num), Nat.pow_eq, Nat.pow_eq]
  push_cast
  rw [div_div_div_eq]

/-- A grid tries the two neighbours, the nearest multiple first. -/
theorem onGrid?_eq (x : Binary64) (k : ℤ) :
    ∃ nearer other, NearestWhole (x.magnitude / 10 ^ k) nearer
      ∧ (∀ n, x.IsNeighbour k n ↔ n = nearer ∨ n = other)
      ∧ x.onGrid? k = if x.ReadsBack nearer k then some nearer
          else if x.ReadsBack other k then some other else none := by
  have hden : 0 < x.denominator * Nat.pow 10 k.toNat :=
    Nat.mul_pos x.denominator_pos (Nat.pow_pos (by decide))
  refine ⟨_, _, ?_, ?_, rfl⟩
  · rw [← div_onGrid]
    exact nearestWhole_roundHalfEven _ hden
  · intro n
    rw [IsNeighbour, ← div_onGrid, Nat.floor_div_eq_div]
    unfold roundHalfEven
    dsimp only
    split <;> grind

/-- What a grid yields is a neighbour of the double. -/
theorem isNeighbour_of_onGrid? (h : x.onGrid? k = some m) : x.IsNeighbour k m := by
  obtain ⟨nearer, other, -, hneighbour, heq⟩ := x.onGrid?_eq k
  rw [heq] at h
  rw [hneighbour]
  split at h
  · exact Or.inl (Option.some_inj.1 h).symm
  · split at h
    · exact Or.inr (Option.some_inj.1 h).symm
    · cases h

/-- Either neighbour that reads back makes the grid yield one that is no farther. -/
theorem IsNeighbour.exists_onGrid? (hn : x.IsNeighbour k n) (h : x.ReadsBack n k) :
    ∃ m, x.onGrid? k = some m ∧ |m * 10 ^ k - x.magnitude| ≤ |n * 10 ^ k - x.magnitude| := by
  obtain ⟨nearer, other, hnearer, hneighbour, heq⟩ := x.onGrid?_eq k
  rw [heq]
  by_cases hback : x.ReadsBack nearer k
  · refine ⟨nearer, if_pos hback, ?_⟩
    rw [abs_mul_zpow_sub, abs_mul_zpow_sub]
    exact mul_le_mul_of_nonneg_right (hnearer.closest n) (ten_zpow_pos k).le
  · have hother : n = other := by
      refine ((hneighbour n).1 hn).resolve_left fun hsame => ?_
      exact hback (hsame ▸ h)
    rw [if_neg hback, ← hother, if_pos h]
    exact ⟨n, rfl, le_rfl⟩

/-- A multiple that reads back has a neighbour of the double between itself and the double, which
reads back too. -/
theorem ReadsBack.exists_neighbour (h : x.ReadsBack n k) (hx : x.isZero = false) :
    ∃ m, x.IsNeighbour k m ∧ x.ReadsBack m k
      ∧ |m * 10 ^ k - x.magnitude| ≤ |n * 10 ^ k - x.magnitude| := by
  have hpos := ten_zpow_pos k
  set t := x.magnitude / 10 ^ k with ht
  have htpos : 0 ≤ t := div_nonneg x.magnitude_nonneg hpos.le
  have hmagnitude : x.magnitude = t * 10 ^ k := (div_mul_cancel₀ _ hpos.ne').symm
  rcases Nat.lt_or_ge ⌊t⌋₊ n with hn | hn
  · -- the double is below the multiple, and so is the neighbour above it
    have habove : t ≤ (⌊t⌋₊ + 1 : ℕ) := by
      push_cast
      exact (Nat.lt_floor_add_one t).le
    have hbelow : ((⌊t⌋₊ + 1 : ℕ) : ℚ) ≤ n := by exact_mod_cast hn
    have hleft : x.magnitude ≤ (⌊t⌋₊ + 1 : ℕ) * 10 ^ k := by
      rw [hmagnitude]
      exact mul_le_mul_of_nonneg_right habove hpos.le
    have hright : ((⌊t⌋₊ + 1 : ℕ) : ℚ) * 10 ^ k ≤ n * 10 ^ k :=
      mul_le_mul_of_nonneg_right hbelow hpos.le
    refine ⟨⌊t⌋₊ + 1, Or.inr rfl, readsBack_iff.2 (h.between hx (Or.inr ⟨hleft, hright⟩)), ?_⟩
    rw [abs_of_nonneg (sub_nonneg.2 hleft), abs_of_nonneg (sub_nonneg.2 (hleft.trans hright))]
    linarith
  · have hbelow : (⌊t⌋₊ : ℚ) ≤ t := Nat.floor_le htpos
    have habove : (n : ℚ) ≤ ⌊t⌋₊ := by exact_mod_cast hn
    have hright : (⌊t⌋₊ : ℚ) * 10 ^ k ≤ x.magnitude := by
      rw [hmagnitude]
      exact mul_le_mul_of_nonneg_right hbelow hpos.le
    have hleft : (n : ℚ) * 10 ^ k ≤ ⌊t⌋₊ * 10 ^ k := mul_le_mul_of_nonneg_right habove hpos.le
    refine ⟨⌊t⌋₊, Or.inl rfl, readsBack_iff.2 (h.between hx (Or.inl ⟨hleft, hright⟩)), ?_⟩
    rw [abs_of_nonpos (sub_nonpos.2 hright), abs_of_nonpos (sub_nonpos.2 (hleft.trans hright))]
    linarith

/-- **A grid yields a multiple that reads back, if it has one**, and none that reads back is nearer
to the double. -/
theorem ReadsBack.exists_onGrid? (h : x.ReadsBack n k) (hx : x.isZero = false) :
    ∃ m, x.onGrid? k = some m ∧ |m * 10 ^ k - x.magnitude| ≤ |n * 10 ^ k - x.magnitude| := by
  obtain ⟨c, hneighbour, hback, hc⟩ := h.exists_neighbour hx
  obtain ⟨m, hm, hle⟩ := hneighbour.exists_onGrid? hback
  exact ⟨m, hm, hle.trans hc⟩

/-! ## The decade -/

/-- The decade of a positive fraction is its logarithm. -/
theorem decade_eq_log {num den : ℕ} (hnum : 0 < num) (hden : 0 < den) :
    decade num den = Int.log 10 (num / den : ℚ) := by
  have hn : (0 : ℚ) < num := by exact_mod_cast hnum
  have hd : (0 : ℚ) < den := by exact_mod_cast hden
  rw [decade]
  split
  · next hle =>
    have hone : (1 : ℚ) ≤ num / den := (one_le_div hd).2 (by exact_mod_cast hle)
    rw [Int.log_of_one_le_right 10 hone, Nat.floor_div_eq_div,
      Decimal.digitCount_eq_log (Nat.div_pos hle hden)]
    omega
  · next hlt =>
    -- `c` is the greatest whole number with `c * num < den`
    set c := (den - 1) / num with hc
    have hcpos : 0 < c := Nat.div_pos (by omega) hnum
    obtain ⟨e, he⟩ : ∃ e, Decimal.digitCount c = e + 1 :=
      ⟨_, (Nat.succ_pred_eq_of_pos (Decimal.digitCount_pos c)).symm⟩
    obtain ⟨hlow, hhigh⟩ := (Decimal.digitCount_eq_iff hcpos).1 he
    have hdiv := Nat.div_mul_le_self (den - 1) num
    have hmod := Nat.lt_div_mul_add (a := den - 1) hnum
    rw [← hc] at hdiv hmod
    have hbelow : 10 ^ e * num < den := by
      have := Nat.mul_le_mul_right num hlow
      omega
    have habove : den ≤ 10 ^ (e + 1) * num := by
      have := Nat.mul_le_mul_right num hhigh
      rw [Nat.succ_mul] at this
      omega
    have hpos : (0 : ℚ) < num / den := div_pos hn hd
    have hleast : (10 : ℚ) ^ (-(e + 1 : ℕ) : ℤ) ≤ num / den := by
      rw [zpow_neg, zpow_natCast, le_div_iff₀ hd, inv_mul_le_iff₀ (by positivity)]
      exact_mod_cast habove
    have hgreatest : (num / den : ℚ) < 10 ^ (-(e : ℕ) : ℤ) := by
      rw [zpow_neg, zpow_natCast, div_lt_iff₀ hd, lt_inv_mul_iff₀ (by positivity)]
      exact_mod_cast hbelow
    have hlogLow : -((e + 1 : ℕ) : ℤ) ≤ Int.log 10 (num / den : ℚ) := by
      rw [← Int.zpow_le_iff_le_log (by norm_num) hpos]
      exact_mod_cast hleast
    have hlogHigh : Int.log 10 (num / den : ℚ) < -(e : ℤ) := by
      rw [← Int.lt_zpow_iff_log_lt (by norm_num) hpos]
      exact_mod_cast hgreatest
    rw [he]
    omega

/-- The grids of a double begin with its logarithm. -/
theorem grids_eq (hx : x.isZero = false) :
    x.grids = (List.range 17).map fun i : ℕ => Int.log 10 x.magnitude - i := by
  have hnum : 0 < x.numerator := by
    have hm : x.mantissa ≠ 0 := by simpa [isZero] using hx
    exact Nat.mul_pos (Nat.pos_of_ne_zero hm) (Nat.two_pow_pos _)
  rw [grids, decade_eq_log hnum x.denominator_pos, magnitude_eq_div]

theorem zpow_log_le (hx : x.isZero = false) : 10 ^ Int.log 10 x.magnitude ≤ x.magnitude := by
  exact_mod_cast Int.zpow_log_le_self (R := ℚ) (b := 10) (by norm_num) (magnitude_pos hx)

theorem lt_zpow_log_add_one (x : Binary64) : x.magnitude < 10 ^ (Int.log 10 x.magnitude + 1) := by
  exact_mod_cast Int.lt_zpow_succ_log_self (R := ℚ) (b := 10) (by norm_num) x.magnitude

/-- On a grid `i` places below the decade, neighbours have `i + 1` digits, or one more if they are
the next power of ten. -/
theorem IsNeighbour.bounds {i : ℕ} (h : x.IsNeighbour (Int.log 10 x.magnitude - i) n)
    (hx : x.isZero = false) : 10 ^ i ≤ n ∧ n ≤ 10 ^ (i + 1) := by
  set k := Int.log 10 x.magnitude - i with hk
  have hpos := ten_zpow_pos k
  have hlow : 10 ^ i ≤ ⌊x.magnitude / 10 ^ k⌋₊ := by
    refine Nat.le_floor ?_
    rw [le_div_iff₀ hpos, pow_mul_zpow, hk, sub_add_cancel]
    exact zpow_log_le hx
  have hhigh : ⌊x.magnitude / 10 ^ k⌋₊ < 10 ^ (i + 1) := by
    rw [Nat.floor_lt (div_nonneg x.magnitude_nonneg hpos.le), div_lt_iff₀ hpos, pow_mul_zpow, hk]
    push_cast
    rw [← add_assoc, sub_add_cancel]
    exact x.lt_zpow_log_add_one
  rcases h with rfl | rfl <;> omega

/-! ## Seventeen digits -/

/-- **What is near enough to a double reads back**, by less than the 54th bit of the double.

**Proof sketch.** The distance is less than half of the last place of the double. The last place of
what is rounded is the same, unless that is below the least double of the binade: then there the
last place is half as much, and so is half of it. -/
theorem roundsTo_of_abs_sub_lt (h : |q - x.magnitude| * 2 ^ 54 < x.magnitude) :
    RoundsTo q x.magnitude := by
  have hp := two_zpow_pos x.exponent
  set p : ℚ := 2 ^ x.exponent with hpdef
  have hmagnitude : x.magnitude = x.mantissa * p := rfl
  have hpower : ∀ e : ℤ, (2 : ℚ) ^ (x.exponent + e) = 2 ^ e * p := by
    intro e
    rw [add_comm, zpow_add₀ two_ne_zero]
  have hmantissa : (x.mantissa : ℚ) ≤ 2 ^ 53 - 1 := by
    have hlt : x.mantissa + 1 ≤ 2 ^ 53 := x.canonical.1
    have hcast : (x.mantissa : ℚ) + 1 ≤ 2 ^ 53 := by exact_mod_cast hlt
    linarith
  have hbound : x.magnitude ≤ (2 ^ 53 - 1) * p := by
    rw [hmagnitude]
    exact mul_le_mul_of_nonneg_right hmantissa hp.le
  have hhalf : |q - x.magnitude| < p / 2 := by
    have hlt : |q - x.magnitude| * 2 ^ 54 < p / 2 * 2 ^ 54 := h.trans (by linarith)
    exact lt_of_mul_lt_mul_right hlt (by positivity)
  obtain ⟨hlow, hhigh⟩ := abs_lt.1 hhalf
  have hq : 0 < q := by
    have hself := neg_abs_le (q - x.magnitude)
    have hnonneg := abs_nonneg (q - x.magnitude)
    linarith
  have hbelow : q < 2 ^ (x.exponent + 53) := by
    rw [hpower]
    norm_num
    linarith
  by_cases hbinade : x.exponent = -1074 ∨ 2 ^ (x.exponent + 52) ≤ q
  · have hplace : place q = x.exponent := place_eq hq x.canonical.2.1 hbinade hbelow
    refine roundsTo_of_abs_sub_lt_half (m := x.mantissa) ?_ ?_
    · rw [hplace, magnitude]
    · rw [hplace]
      exact hhalf
  · obtain ⟨hexponent, hlt⟩ := not_or.1 hbinade
    have hleast := x.canonical.2.1
    rw [not_le, hpower] at hlt
    norm_num at hlt
    have hbits : 2 ^ 52 ≤ x.mantissa := x.canonical.2.2.2.resolve_right hexponent
    have hsame : x.mantissa = 2 ^ 52 := by
      have hle : (x.mantissa : ℚ) < 2 ^ 52 + 1 := by
        refine lt_of_mul_lt_mul_right ?_ hp.le
        linarith
      have hnat : x.mantissa < 2 ^ 52 + 1 := by exact_mod_cast hle
      omega
    have heq : x.magnitude = 2 ^ 52 * p := by
      rw [hmagnitude, hsame]
      norm_num
    have hquarter : |q - x.magnitude| < p / 4 := by
      refine lt_of_mul_lt_mul_right (a := (2 : ℚ) ^ 54) (h.trans_eq ?_) (by positivity)
      rw [heq]
      ring
    have hhalfPlace : (2 : ℚ) ^ (x.exponent - 1) = p / 2 := by
      rw [zpow_sub₀ two_ne_zero, zpow_one]
    have hplace : place q = x.exponent - 1 := by
      refine place_eq hq (by omega) (Or.inr ?_) ?_
      · rw [sub_add_eq_add_sub, add_sub_assoc, hpower]
        norm_num
        linarith
      · rw [sub_add_eq_add_sub, add_sub_assoc, hpower]
        norm_num
        linarith
    refine roundsTo_of_abs_sub_lt_half (m := 2 ^ 53) ?_ ?_
    · rw [hplace, hhalfPlace, heq]
      push_cast
      ring
    · rw [hplace, hhalfPlace]
      linarith

/-- **Seventeen digits suffice**: the nearest multiple on the grid with that many reads back. -/
theorem exists_readsBack_seventeen (hx : x.isZero = false) :
    ∃ n, x.ReadsBack n (Int.log 10 x.magnitude - 16) := by
  set k := Int.log 10 x.magnitude - 16 with hk
  have hpos := ten_zpow_pos k
  obtain ⟨n, hn⟩ := exists_nearestWhole (div_nonneg x.magnitude_nonneg hpos.le)
  have hhalf : |n * 10 ^ k - x.magnitude| ≤ 10 ^ k / 2 := by
    have hlow := hn.lower
    have hhigh := hn.upper
    have hle : |n - x.magnitude / 10 ^ k| ≤ 1 / 2 := abs_le.2 ⟨by linarith, by linarith⟩
    rw [abs_mul_zpow_sub]
    refine (mul_le_mul_of_nonneg_right hle hpos.le).trans_eq ?_
    rw [one_div_mul_eq_div]
  have hgrid : (10 : ℚ) ^ k * 10 ^ 16 ≤ x.magnitude := by
    have hpower : (10 : ℚ) ^ k * 10 ^ 16 = 10 ^ Int.log 10 x.magnitude := by
      rw [← zpow_natCast, ← zpow_add₀ (by norm_num), hk]
      congr 1
      push_cast
      ring
    rw [hpower]
    exact zpow_log_le hx
  refine ⟨n, readsBack_iff.2 (roundsTo_of_abs_sub_lt ?_)⟩
  calc |n * 10 ^ k - x.magnitude| * 2 ^ 54 ≤ 10 ^ k / 2 * 2 ^ 54 :=
        mul_le_mul_of_nonneg_right hhalf (by positivity)
    _ < 10 ^ k * 10 ^ 16 := by linarith
    _ ≤ x.magnitude := hgrid

end Stencil.Binary64
