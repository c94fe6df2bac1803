import Stencil.Proofs.Numeric.Numeral
import Stencil.Proofs.Numeric.Shortest
import Stencil.Proofs.Value.Places
import Stencil.Value.Display

/-!
# Texts of doubles in scripts

JavaScript's `String()` writes the shortest digits of a number, without a point when none are behind
it, and with a power of ten below `1e-6` and from `1e21` on; zero has no sign. The text of a double
among other text is that text, but for three kinds of doubles: negative zero, which keeps its sign,
the decade from `1e-6` to `1e-5`, which is written with a power of ten, and whole doubles from
`2 ^ 53` on whose shortest digits are not exact, which are written exactly.

## Main definitions

* `Stencil.Binary64.Reaches` — a double is not below the one nearest to a power of ten.
* `Stencil.Binary64.IsScriptText` — the text of a double in a script.

## Main results

* `Stencil.Binary64.IsShortest.le_decade_iff_reaches` — the decade of shortest digits is known from
  the doubles nearest to powers of ten.
* `Stencil.Binary64.exists_isScriptText` — every double has a text in a script.
* `Stencil.Value.isScriptText_display_iff` — which doubles have it among other text.
-/

set_option autoImplicit false

namespace Stencil

/-- In a script the decades from -6 to 20 are positional, whole numbers end with their digits, and
an exponent always has a sign. -/
def Layout.script : Layout := ⟨-6, 20, [], ['+']⟩

namespace Binary64

variable {x : Binary64} {s : Scientific} {e : ℤ} {text : List Char}

/-- The double is in magnitude not below the one nearest to `10 ^ e`. -/
def Reaches (x : Binary64) (e : ℤ) : Prop :=
  ∃ t, Decimal.nearest ⟨false, 1, e⟩ = .finite t ∧ t.magnitude ≤ x.magnitude

/-- The text of a double in a script: a zero without a sign, or shortest digits behind the sign,
positionally from `1e-6` on and below `1e21`, else with a power of ten. Of two decimals of
as few digits that are equally near, either may be taken. -/
inductive IsScriptText (x : Binary64) : List Char → Prop where
  | zero (h : x.isZero = true) : IsScriptText x ['0']
  | positional {s : Scientific} (h : x.isZero = false) (shortest : x.IsShortest s)
    (low : x.Reaches (-6)) (high : ¬ x.Reaches 21) :
    IsScriptText x (x.sign ++ Layout.script.positional s)
  | scientific {s : Scientific} (h : x.isZero = false) (shortest : x.IsShortest s)
    (outside : ¬ (x.Reaches (-6) ∧ ¬ x.Reaches 21)) :
    IsScriptText x (x.sign ++ Layout.script.scientific s)

/-! ## Powers of ten as doubles -/

/-- The powers of ten up to `10 ^ 300` are in range. -/
theorem ten_zpow_le_two_zpow : (10 : ℚ) ^ (300 : ℤ) ≤ 2 ^ (1000 : ℤ) := by
  calc (10 : ℚ) ^ (300 : ℤ) = (10 ^ (3 : ℤ)) ^ (100 : ℤ) := by rw [← zpow_mul]; rfl
    _ ≤ (2 ^ (10 : ℤ)) ^ (100 : ℤ) := zpow_le_zpow_left₀ (by norm_num) (by norm_num) (by norm_num)
    _ = 2 ^ (1000 : ℤ) := by rw [← zpow_mul]; rfl

/-- The double nearest to a power of ten. -/
theorem exists_nearest_pow_ten (he : e ≤ 300) :
    ∃ t : Binary64, Decimal.nearest ⟨false, 1, e⟩ = .finite t ∧ RoundsTo (10 ^ e) t.magnitude := by
  have hrounded := Decimal.rounded_nearest ⟨false, 1, e⟩
  rw [Decimal.magnitude, Nat.cast_one, one_mul] at hrounded
  cases hnearest : Decimal.nearest ⟨false, 1, e⟩ with
  | finite t => exact ⟨t, rfl, (rounded_finite_iff.1 (hnearest ▸ hrounded)).2⟩
  | infinite negative =>
    rw [hnearest] at hrounded
    cases hrounded with
    | infinite h top =>
      have hle : (10 : ℚ) ^ e ≤ 2 ^ (1000 : ℤ) :=
        (zpow_le_zpow_right₀ (by norm_num) he).trans ten_zpow_le_two_zpow
      have hbelow := h.mono (roundsTo_two_zpow (by decide)) (ten_zpow_pos e) hle
      have hlt : (2 : ℚ) ^ (1000 : ℤ) < 2 ^ (1024 : ℤ) :=
        zpow_lt_zpow_right₀ (by norm_num) (by norm_num)
      exact absurd top (hbelow.trans_lt hlt).not_ge
  | nan =>
    rw [hnearest] at hrounded
    cases hrounded

/-- To reach a power of ten is not to be below the one double nearest to it. -/
theorem exists_reaches_iff_le (he : e ≤ 300) :
    ∃ t : Binary64, RoundsTo (10 ^ e) t.magnitude
      ∧ ∀ x : Binary64, x.Reaches e ↔ t.magnitude ≤ x.magnitude := by
  obtain ⟨t, hnearest, ht⟩ := exists_nearest_pow_ten he
  refine ⟨t, ht, fun x => ⟨?_, fun hle => ⟨t, hnearest, hle⟩⟩⟩
  rintro ⟨t', hnearest', hle⟩
  rwa [Extended.finite.inj (hnearest.symm.trans hnearest')]

/-- A double reaches a power of ten when it is not below it, or is the double nearest to it. -/
theorem reaches_iff (he : e ≤ 300) :
    x.Reaches e ↔ 10 ^ e ≤ x.magnitude ∨ RoundsTo (10 ^ e) x.magnitude := by
  obtain ⟨t, ht, hreaches⟩ := exists_reaches_iff_le he
  rw [hreaches]
  constructor
  · intro hle
    rcases le_or_gt (10 ^ e) x.magnitude with hpow | hpow
    · exact Or.inl hpow
    · have hge : x.magnitude ≤ t.magnitude := by
        rcases x.magnitude_nonneg.eq_or_lt with hzero | hpos
        · exact hzero ▸ t.magnitude_nonneg
        · exact x.roundsTo_magnitude.mono ht hpos hpow.le
      exact Or.inr (le_antisymm hle hge ▸ ht)
  · rintro (hpow | hpow)
    · exact ht.mono x.roundsTo_magnitude (ten_zpow_pos e) hpow
    · exact (ht.unique hpow).le

/-- The powers of ten from `10 ^ -300` on are not too small for 53 bits. -/
theorem two_zpow_le_ten_zpow (he : -300 ≤ e) : (2 : ℚ) ^ (-1000 : ℤ) ≤ 10 ^ e := by
  calc (2 : ℚ) ^ (-1000 : ℤ) = (2 ^ (1000 : ℤ))⁻¹ := zpow_neg 2 1000
    _ ≤ (10 ^ (300 : ℤ))⁻¹ := inv_anti₀ (ten_zpow_pos 300) ten_zpow_le_two_zpow
    _ = 10 ^ (-300 : ℤ) := (zpow_neg 10 300).symm
    _ ≤ 10 ^ e := zpow_le_zpow_right₀ (by norm_num) he

/-- A power of ten has 53 bits in front of its last place, as far as it is not too small. -/
theorem two_zpow_place_le (he : -300 ≤ e) : (2 : ℚ) ^ (52 : ℤ) * 2 ^ place (10 ^ e) ≤ 10 ^ e := by
  rw [← zpow_add₀ two_ne_zero, add_comm]
  rcases place_eq_or_le (ten_zpow_pos e) with hleast | hbits
  · rw [hleast]
    exact (zpow_le_zpow_right₀ (by norm_num) (by norm_num)).trans (two_zpow_le_ten_zpow he)
  · exact hbits

/-- Zero does not reach any power of ten. -/
theorem Reaches.isZero_eq_false (h : x.Reaches e) (hlow : -300 ≤ e) (hhigh : e ≤ 300) :
    x.isZero = false := by
  obtain ⟨t, ht, hreaches⟩ := exists_reaches_iff_le hhigh
  by_contra hx
  have hle := (hreaches x).1 h
  rw [magnitude_of_isZero (eq_true_of_ne_false hx)] at hle
  have hmin := ht.two_zpow_le (by decide) (two_zpow_le_ten_zpow hlow)
  exact absurd (hmin.trans hle) (two_zpow_pos _).not_ge

/-- Shortest digits are not below a power of ten that reads back. Being one digit below it, they
would be too far from it to read back as the same double. -/
theorem IsShortest.zpow_le_of_roundsTo (h : x.IsShortest s) (hx : x.isZero = false) (he : -300 ≤ e)
    (hpow : RoundsTo (10 ^ e) x.magnitude) : 10 ^ e ≤ s.magnitude := by
  by_contra hlt
  have hone := h.length_eq_one hpow
  have hdigit : s.coefficient < 10 ^ 1 := by
    rw [← hone, h.length_digits]
    exact Decimal.lt_pow_digitCount _
  have hdecade : s.exponent ≤ e - 1 := by
    have hnot : ¬ e ≤ s.decade := fun hle => hlt ((h.le_decade_iff hx).1 hle)
    rw [Scientific.exponent, hone]
    omega
  have hgap : s.magnitude ≤ 9 * 10 ^ (e - 1) := by
    have hnine : (s.coefficient : ℚ) ≤ 9 := by exact_mod_cast Nat.le_of_lt_succ hdigit
    exact mul_le_mul hnine (zpow_le_zpow_right₀ (by norm_num) hdecade) (ten_zpow_pos _).le
      (by norm_num)
  have hten : (10 : ℚ) ^ e = 10 * 10 ^ (e - 1) := by
    rw [zpow_sub_one₀ (by norm_num)]
    ring
  have hplace : (2 : ℚ) ^ place s.magnitude ≤ 2 ^ place (10 ^ e) :=
    zpow_le_zpow_right₀ (by norm_num)
      (place_mono (h.readsBack.decimal_pos hx) (not_le.1 hlt).le)
  have hpower := (abs_le.1 hpow.abs_sub_le_half).2
  have hdigits := (abs_le.1 h.roundsTo.abs_sub_le_half).1
  have hbits := two_zpow_place_le he
  have hpos := ten_zpow_pos (e - 1)
  rw [hten] at hpower
  rw [show (2 : ℚ) ^ (52 : ℤ) = 2 ^ 52 from rfl, hten] at hbits
  rw [hten] at hplace
  linarith

/-- **The decade of shortest digits is known from the doubles nearest to powers of ten.** -/
theorem IsShortest.le_decade_iff_reaches (h : x.IsShortest s) (hx : x.isZero = false)
    (hlow : -300 ≤ e) (hhigh : e ≤ 300) : e ≤ s.decade ↔ x.Reaches e := by
  rw [h.le_decade_iff hx]
  constructor
  · intro he
    obtain ⟨t, ht, hreaches⟩ := exists_reaches_iff_le hhigh
    exact (hreaches x).2 (ht.mono h.roundsTo (ten_zpow_pos e) he)
  · intro he
    rcases (reaches_iff hhigh).1 he with hpow | hpow
    · exact h.zpow_le hx hpow
    · exact h.zpow_le_of_roundsTo hx hlow hpow

/-- The double nearest to `10 ^ 21` is that power itself. -/
theorem roundsTo_ten_zpow_21 : RoundsTo (10 ^ (21 : ℤ)) (10 ^ (21 : ℤ)) := by
  have hplace : place (10 ^ (21 : ℤ)) = 17 := by
    refine place_eq (ten_zpow_pos 21) (by decide) (Or.inr ?_) ?_ <;> norm_num
  refine roundsTo_self (m := 5 ^ 21 * 2 ^ 4) ?_
  rw [hplace]
  norm_num

/-- The doubles below `10 ^ 21` are those whose whole part is. -/
theorem not_reaches_21_iff : ¬ x.Reaches 21 ↔ x.wholeMagnitude < Nat.pow 10 21 := by
  have hpow : x.Reaches 21 ↔ 10 ^ (21 : ℤ) ≤ x.magnitude := by
    rw [reaches_iff (by decide)]
    exact or_iff_left_of_imp fun h => (h.unique roundsTo_ten_zpow_21).ge
  have hcast : (10 ^ (21 : ℤ) : ℚ) = (Nat.pow 10 21 : ℕ) := by norm_num
  rw [hpow, not_le, hcast, wholeMagnitude_eq_floor, Nat.floor_lt x.magnitude_nonneg]

end Binary64

/-! ## Layouts -/

namespace Layout

variable {layout other : Layout} {s : Scientific}

/-- Digits without any behind the point are those of a whole number, and nothing follows them. -/
theorem positional_of_whole (htail : layout.wholeTail = [])
    (hdigits : Nat.toDigits 10 s.coefficient = s.digits) (hpos : 0 < s.coefficient) {t : ℕ}
    (ht : s.exponent = t) : layout.positional s = Nat.toDigits 10 (s.coefficient * 10 ^ t) := by
  have hlength : 0 < s.digits.length := hdigits ▸ Decimal.digitCount_pos s.coefficient
  rw [Scientific.exponent] at ht
  have hnonneg : ¬ s.decade < 0 := by omega
  have hbefore : s.digits.length ≤ s.decade.toNat + 1 := by omega
  have hzeros : s.decade.toNat + 1 - s.digits.length = t := by omega
  rw [positional, if_neg hnonneg]
  dsimp only
  rw [if_pos hbefore, hzeros, htail, List.append_nil, Decimal.toDigits_mul_pow hpos, hdigits, zeros]

/-- Digits with some behind the point are laid out alike. -/
theorem positional_of_fraction (h : s.exponent < 0) : layout.positional s = other.positional s := by
  rw [Scientific.exponent] at h
  rw [positional, positional]
  dsimp only
  split
  · rfl
  · rw [if_neg (by omega), if_neg (by omega)]

/-- Digits with a power of ten behind them are laid out alike, but for the sign of the exponent. -/
theorem scientific_congr (h : layout.exponentSign = other.exponentSign) :
    layout.scientific s = other.scientific s := by
  rw [scientific, scientific, h]

/-- A power of ten is seen behind its digits, and nowhere else. -/
theorem positional_ne_scientific (hdigits : ∀ c ∈ s.digits, c.isDigit = true)
    (htail : layout.wholeTail = []) {s' : Scientific} :
    layout.positional s ≠ other.scientific s' := by
  intro heq
  have hnone : ∀ c ∈ layout.positional s, c ≠ 'e' := by
    refine forall_mem_positional (by decide) (by decide) (fun c hc => ?_) ?_
    · rintro rfl
      exact absurd (hdigits _ hc) (by decide)
    · rw [htail]
      exact fun c hc => absurd hc List.not_mem_nil
  have hmem : 'e' ∈ other.scientific s' := by
    rw [scientific]
    exact List.mem_append_right _ List.mem_cons_self
  exact hnone 'e' (heq ▸ hmem) rfl

end Layout

namespace Binary64

variable {x : Binary64} {s : Scientific} {text : List Char}

/-! ## Texts in scripts -/

/-- The text of a zero has no sign. -/
theorem IsScriptText.eq_of_isZero (h : x.IsScriptText text) (hx : x.isZero = true) :
    text = ['0'] := by
  cases h with
  | zero => rfl
  | positional h | scientific h =>
    rw [hx] at h
    cases h

/-- The text of any other double is its shortest digits, laid out. -/
theorem isScriptText_iff (hx : x.isZero = false) :
    x.IsScriptText text ↔ ∃ s, x.IsShortest s ∧ text = x.sign ++ Layout.script.magnitude s := by
  have hrange : ∀ {s : Scientific}, x.IsShortest s →
      (Layout.script.lowest ≤ s.decade ∧ s.decade ≤ Layout.script.highest
        ↔ x.Reaches (-6) ∧ ¬ x.Reaches 21) := by
    intro s hs
    rw [← hs.le_decade_iff_reaches hx (by decide) (by decide),
      ← hs.le_decade_iff_reaches hx (by decide) (by decide), not_le, ← Int.le_sub_one_iff]
    rfl
  constructor
  · intro h
    cases h with
    | zero h =>
      rw [hx] at h
      cases h
    | @positional s h hs hlow hhigh =>
      exact ⟨s, hs, by rw [Layout.magnitude, if_pos ((hrange hs).2 ⟨hlow, hhigh⟩)]⟩
    | @scientific s h hs houtside =>
      exact ⟨s, hs, by rw [Layout.magnitude, if_neg (mt (hrange hs).1 houtside)]⟩
  · rintro ⟨s, hs, rfl⟩
    rw [Layout.magnitude]
    split
    · next hinside =>
      obtain ⟨hlow, hhigh⟩ := (hrange hs).1 hinside
      exact .positional hx hs hlow hhigh
    · next houtside => exact .scientific hx hs (mt (hrange hs).2 houtside)

/-- **Every double has a text in a script.** -/
theorem exists_isScriptText (x : Binary64) : ∃ text, x.IsScriptText text := by
  cases hx : x.isZero with
  | true => exact ⟨_, .zero hx⟩
  | false => exact ⟨_, (isScriptText_iff hx).2 ⟨x.shortest, isShortest_shortest hx, rfl⟩⟩

/-! ## Texts among other text -/

/-- A whole double below `10 ^ 21` is written with the digits of its whole part. -/
theorem plainText_of_isWhole (hwhole : x.isWhole = true) (hbelow : ¬ x.Reaches 21) :
    x.plainText = x.sign ++ Nat.toDigits 10 x.wholeMagnitude :=
  if_pos ⟨hwhole, not_reaches_21_iff.1 hbelow⟩

/-- Zero is written as a digit, behind its sign. -/
theorem plainText_of_isZero (hx : x.isZero = true) : x.plainText = x.sign ++ ['0'] := by
  obtain ⟨hwhole, hnone⟩ := isWhole_of_magnitude_eq (n := 0) (magnitude_of_isZero hx)
  have hbelow : ¬ x.Reaches 21 := not_reaches_21_iff.2 (hnone ▸ by decide)
  rw [plainText_of_isWhole hwhole hbelow, hnone]
  rfl

/-- A zero has its text in a script when it is not negative. -/
theorem isScriptText_plainText_of_isZero (hx : x.isZero = true) :
    x.IsScriptText x.plainText ↔ x.negative = false := by
  rw [plainText_of_isZero hx, sign]
  cases hsign : x.negative with
  | true => exact iff_of_false (fun h => by cases h.eq_of_isZero hx) Bool.true_eq_false.mp
  | false => exact iff_of_true (.zero hx) rfl

/-- The decade that JSON writes with a power of ten and a script does not. -/
theorem IsShortest.decade_eq_iff (h : x.IsShortest s) (hx : x.isZero = false) :
    s.decade = -6 ↔ x.Reaches (-6) ∧ ¬ x.Reaches (-5) := by
  rw [← h.le_decade_iff_reaches hx (by decide) (by decide),
    ← h.le_decade_iff_reaches hx (by decide) (by decide)]
  omega

/-- In a script a whole double below `10 ^ 21` is written with the digits of a whole number, the one
that its shortest digits stand for. -/
theorem IsShortest.exists_script_eq (h : x.IsShortest s) (hx : x.isZero = false)
    (hwhole : x.isWhole = true) (hbelow : ¬ x.Reaches 21) :
    ∃ n : ℕ, s.magnitude = n ∧ Layout.script.magnitude s = Nat.toDigits 10 n := by
  obtain ⟨t, ht⟩ := h.exists_whole hx hwhole
  have hlength := h.length_pos
  have hlow : -6 ≤ s.decade := by
    rw [Scientific.exponent] at ht
    omega
  have hhigh : s.decade ≤ 20 := by
    rw [← h.le_decade_iff_reaches hx (by decide) (by decide)] at hbelow
    omega
  refine ⟨s.coefficient * 10 ^ t, IsShortest.magnitude_eq_natCast ht, ?_⟩
  rw [Layout.magnitude, if_pos ⟨hlow, hhigh⟩,
    Layout.positional_of_whole rfl h.digits (h.readsBack.pos hx) ht]

/-- A whole double below `10 ^ 21` has its text in a script when its shortest digits are exact. -/
theorem isScriptText_plainText_of_isWhole (hx : x.isZero = false) (hwhole : x.isWhole = true)
    (hbelow : ¬ x.Reaches 21) :
    x.IsScriptText x.plainText ↔ ∃ s, x.IsShortest s ∧ s.magnitude = x.magnitude := by
  rw [plainText_of_isWhole hwhole hbelow, isScriptText_iff hx]
  refine exists_congr fun s => and_congr_right fun hs => ?_
  obtain ⟨n, hn, htext⟩ := hs.exists_script_eq hx hwhole hbelow
  rw [htext, hn, isWhole_iff.1 hwhole, List.append_cancel_left_eq, Nat.cast_inj]
  exact ⟨fun heq => (toDigits_injective heq).symm, fun heq => heq ▸ rfl⟩

/-- Shortest digits that are not written as those of a whole number are written alike in JSON and in
a script, but for one decade, which JSON writes with a power of ten. -/
theorem IsShortest.json_eq (h : x.IsShortest s) (hx : x.isZero = false)
    (hother : x.isWhole = true → x.Reaches 21) :
    Layout.json.magnitude s
      = if s.decade = -6 then Layout.script.scientific s else Layout.script.magnitude s := by
  have hscientific : Layout.json.scientific s = Layout.script.scientific s :=
    Layout.scientific_congr rfl
  have hjson : Layout.json.magnitude s
      = if -5 ≤ s.decade ∧ s.decade ≤ 15 then Layout.json.positional s
        else Layout.json.scientific s := rfl
  have hscript : Layout.script.magnitude s
      = if -6 ≤ s.decade ∧ s.decade ≤ 20 then Layout.script.positional s
        else Layout.script.scientific s := rfl
  rw [hjson, hscript, hscientific]
  cases hwhole : x.isWhole with
  | true =>
    have hhigh := (h.le_decade_iff_reaches hx (by decide) (by decide)).2 (hother hwhole)
    rw [if_neg (by omega), if_neg (by omega), if_neg (by omega)]
  | false =>
    obtain ⟨hexponent, hhigh⟩ := h.bounds_of_fraction hx hwhole
    have hpositional : Layout.json.positional s = Layout.script.positional s :=
      Layout.positional_of_fraction hexponent
    rw [hpositional]
    grind

/-- Any other double than these is written with its shortest digits, as in JSON. -/
theorem plainText_of_other (hx : x.isZero = false) (hother : x.isWhole = true → x.Reaches 21) :
    x.plainText = x.sign ++ if x.shortest.decade = -6 then Layout.script.scientific x.shortest
      else Layout.script.magnitude x.shortest := by
  rw [← (isShortest_shortest hx).json_eq hx hother]
  refine if_neg fun h => ?_
  exact not_reaches_21_iff.2 h.2 (hother h.1)

/-- Any other double has its text in a script unless it is in the decade that JSON writes with a
power of ten. -/
theorem isScriptText_plainText_of_other (hx : x.isZero = false)
    (hother : x.isWhole = true → x.Reaches 21) :
    x.IsScriptText x.plainText ↔ ¬ (x.Reaches (-6) ∧ ¬ x.Reaches (-5)) := by
  have hshortest := isShortest_shortest hx
  rw [plainText_of_other hx hother, ← hshortest.decade_eq_iff hx, isScriptText_iff hx]
  constructor
  · rintro ⟨s, hs, htext⟩ hdecade
    have hsame : s.decade = -6 := (hs.decade_eq_iff hx).2 ((hshortest.decade_eq_iff hx).1 hdecade)
    have hinside : Layout.script.lowest ≤ s.decade ∧ s.decade ≤ Layout.script.highest := by
      rw [hsame]
      decide
    rw [if_pos hdecade, Layout.magnitude, if_pos hinside, List.append_cancel_left_eq] at htext
    refine Layout.positional_ne_scientific (fun c hc => ?_) rfl htext.symm
    rw [← hs.digits] at hc
    exact Nat.isDigit_of_mem_toDigits (by decide) (by decide) hc
  · intro hdecade
    exact ⟨x.shortest, hshortest, by rw [if_neg hdecade]⟩

/-- Whole doubles that are not zero are not in that decade. -/
theorem reaches_of_isWhole (hx : x.isZero = false) (hwhole : x.isWhole = true) :
    x.Reaches (-5) := by
  have hone : 1 ≤ x.wholeMagnitude := wholeMagnitude_pos hx hwhole
  have hle : (1 : ℚ) ≤ x.magnitude := by
    rw [isWhole_iff.1 hwhole]
    exact_mod_cast hone
  refine (reaches_iff (by decide)).2 (Or.inl (le_trans ?_ hle))
  norm_num

/-- **Which doubles have their text in a script**: not negative zero, the doubles in the decade that
JSON writes with a power of ten, and whole ones from `2 ^ 53` on, written with all their digits, as
far as these are not the shortest ones with zeros. -/
theorem isScriptText_plainText_iff (x : Binary64) :
    x.IsScriptText x.plainText ↔
      ¬ (x.isZero = true ∧ x.negative = true)
      ∧ ¬ (x.Reaches (-6) ∧ ¬ x.Reaches (-5))
      ∧ (x.isWhole = true → ¬ x.Reaches 21 → Number.maxSafe < x.wholeMagnitude →
        ∃ s, x.IsShortest s ∧ s.magnitude = x.magnitude) := by
  cases hx : x.isZero with
  | true =>
    obtain ⟨-, hnone⟩ := isWhole_of_magnitude_eq (n := 0) (magnitude_of_isZero hx)
    rw [isScriptText_plainText_of_isZero hx]
    constructor
    · intro hsign
      refine ⟨fun h => ?_, fun h => ?_, fun _ _ hlarge => ?_⟩
      · exact absurd (hsign.symm.trans h.2) Bool.false_ne_true
      · have hx' : x.isZero = false := h.1.isZero_eq_false (by decide) (by decide)
        exact absurd (hx'.symm.trans hx) Bool.false_ne_true
      · exact absurd (hnone ▸ hlarge) (Nat.not_lt_zero _)
    · rintro ⟨h, -, -⟩
      exact eq_false_of_ne_true fun hsign => h ⟨rfl, hsign⟩
  | false =>
    have hshortest := isShortest_shortest hx
    by_cases hwhole : x.isWhole = true ∧ ¬ x.Reaches 21
    · obtain ⟨hwhole, hbelow⟩ := hwhole
      rw [isScriptText_plainText_of_isWhole hx hwhole hbelow]
      constructor
      · intro h
        exact ⟨fun hzero => absurd hzero.1 Bool.false_ne_true,
          fun hdecade => hdecade.2 (reaches_of_isWhole hx hwhole), fun _ _ _ => h⟩
      · rintro ⟨-, -, h⟩
        rcases Nat.lt_or_ge Number.maxSafe x.wholeMagnitude with hlarge | hsafe
        · exact h hwhole hbelow hlarge
        · exact ⟨x.shortest, hshortest, hshortest.magnitude_eq hx hwhole hsafe⟩
    · have hother : x.isWhole = true → x.Reaches 21 := by
        intro h
        by_contra hbelow
        exact hwhole ⟨h, hbelow⟩
      rw [isScriptText_plainText_of_other hx hother]
      constructor
      · intro h
        exact ⟨fun hzero => absurd hzero.1 Bool.false_ne_true, h,
          fun hwhole hbelow => absurd (hother hwhole) hbelow⟩
      · rintro ⟨-, h, -⟩
        exact h

end Binary64

namespace Value

open Binary64

/-- **Doubles among other text are written as in a script, with three exceptions**: negative zero
has its sign; the doubles from `1e-6` on and below `1e-5` have a power of ten; and the whole doubles
from `2 ^ 53` on and below `1e21` have all their digits, which are not always the shortest ones with
zeros behind them. -/
theorem isScriptText_display_iff (x : Binary64) :
    (x.IsScriptText (Value.num (.float x)).display ↔
      ¬ (x.isZero = true ∧ x.negative = true)
      ∧ ¬ (x.Reaches (-6) ∧ ¬ x.Reaches (-5))
      ∧ (x.isWhole = true → ¬ x.Reaches 21 → Number.maxSafe < x.wholeMagnitude →
        ∃ s, x.IsShortest s ∧ s.magnitude = x.magnitude))
    ∧ (x.isZero = true → x.negative = true → (Value.num (.float x)).display = ['-', '0'])
    ∧ (x.Reaches (-6) → ¬ x.Reaches (-5) →
      ∃ s, x.IsShortest s
        ∧ (Value.num (.float x)).display = x.sign ++ Layout.script.scientific s)
    ∧ (x.isWhole = true → ¬ x.Reaches 21 →
      (Value.num (.float x)).display = x.sign ++ Nat.toDigits 10 x.wholeMagnitude) := by
  have hdisplay : (Value.num (.float x)).display = x.plainText := rfl
  rw [hdisplay]
  refine ⟨isScriptText_plainText_iff x, fun hx hsign => ?_, fun hlow hhigh => ?_,
    plainText_of_isWhole⟩
  · rw [plainText_of_isZero hx, sign, if_pos hsign]
    rfl
  · have hx : x.isZero = false := hlow.isZero_eq_false (by decide) (by decide)
    have hshortest := isShortest_shortest hx
    refine ⟨x.shortest, hshortest, ?_⟩
    rw [plainText_of_other hx fun hwhole => absurd (reaches_of_isWhole hx hwhole) hhigh,
      if_pos ((hshortest.decade_eq_iff hx).2 ⟨hlow, hhigh⟩)]

/-- Negative zero keeps its sign, which it does not have in a script. -/
theorem not_isScriptText_display_negative_zero :
    (Value.num (.float (.zero true))).display = "-0".toList
      ∧ (Binary64.zero true).IsScriptText "0".toList
      ∧ ¬ (Binary64.zero true).IsScriptText (Value.num (.float (.zero true))).display := by
  refine ⟨by decide +kernel, .zero rfl, fun h => ?_⟩
  have htext := h.eq_of_isZero rfl
  revert htext
  decide +kernel

/-- One millionth has a power of ten, and a great whole double all its digits, where the shortest
ones are fewer. -/
example :
    let millionth : Binary64 := ⟨false, 4722366482869645, -72, by decide⟩
    let great : Binary64 := ⟨false, 7535204407491802, 14, by decide⟩
    (Value.num (.float millionth)).display = "1e-6".toList
      ∧ (Value.num (.float great)).display = "123456789012345683968".toList
      ∧ great.shortest = ⟨"12345678901234568".toList, 20⟩ := by decide +kernel

end Value

end Stencil
