/-!
# Double-precision numbers

Finite numbers of the binary64 format held exactly, as a sign, a whole mantissa and a power of two,
so that each question about them is a question about natural numbers.

## Main definitions

* `Stencil.Binary64` — a finite number `± mantissa · 2 ^ exponent` in its one canonical form.
* `Stencil.Extended` — a finite number, an infinity or not a number.
* `Stencil.Binary64.ofRatio` — the number nearest to a fraction, ties to the even mantissa.
* `Stencil.Binary64.times`, `Stencil.Binary64.dividedBy` — products with and quotients by
  whole numbers.
* `Stencil.Binary64.truncate` — the whole part, toward zero.

## Main results

* `Stencil.Binary64.roundHalfEven_le` — rounding a quotient errs by at most one half.
* `Stencil.Binary64.abs_truncate` — the whole part of a number is that of its magnitude.
-/

set_option autoImplicit false

namespace Stencil

/-- A finite number `± mantissa · 2 ^ exponent`: the mantissa has at most 53 bits, and it has all
of them unless the exponent is already the least one. -/
structure Binary64 where
  negative : Bool
  mantissa : Nat
  exponent : Int
  /-- The mantissa is below `2 ^ 53`, and not below `2 ^ 52` unless the exponent is the least. -/
  canonical : mantissa < 9007199254740992 ∧ -1074 ≤ exponent ∧ exponent ≤ 971
    ∧ (4503599627370496 ≤ mantissa ∨ exponent = -1074)
deriving DecidableEq

/-- The outcome of an arithmetic rule: a finite number, an infinity or not a number. -/
inductive Extended where
  | finite (x : Binary64)
  | infinite (negative : Bool)
  | nan
deriving DecidableEq

/-- The finite number, if it is one. -/
def Extended.finite? : Extended → Option Binary64
  | .finite x => some x
  | .infinite _ | .nan => none

namespace Binary64

/-- The zero of the given sign. -/
def zero (negative : Bool) : Binary64 := ⟨negative, 0, -1074, by decide⟩

instance : Inhabited Binary64 := ⟨zero false⟩

/-! ## Magnitude as a fraction -/

/-- The numerator of the magnitude over `x.denominator`. -/
def numerator (x : Binary64) : Nat := x.mantissa * Nat.pow 2 x.exponent.toNat

/-- The denominator of the magnitude, a power of two. -/
def denominator (x : Binary64) : Nat := Nat.pow 2 (-x.exponent).toNat

theorem denominator_pos (x : Binary64) : 0 < x.denominator := Nat.two_pow_pos _

/-- The number is zero, of either sign. -/
def isZero (x : Binary64) : Bool := x.mantissa == 0

/-- The number has no fractional part. -/
def isWhole (x : Binary64) : Bool := x.numerator % x.denominator == 0

/-- The whole part of the magnitude. -/
def wholeMagnitude (x : Binary64) : Nat := x.numerator / x.denominator

/-- The whole part, toward zero. -/
def truncate (x : Binary64) : Int :=
  if x.negative then -(x.wholeMagnitude : Int) else x.wholeMagnitude

theorem abs_truncate (x : Binary64) : x.truncate.natAbs = x.wholeMagnitude := by
  unfold truncate
  split <;> simp

/-! ## Rounding -/

/-- The whole number nearest to `num / den`; a half goes to the even neighbour. -/
def roundHalfEven (num den : Nat) : Nat :=
  let quotient := num / den
  let twice := 2 * (num % den)
  if twice < den ∨ (twice = den ∧ quotient % 2 = 0) then quotient else quotient + 1

theorem roundHalfEven_le {num den : Nat} (h : 0 < den) :
    2 * (roundHalfEven num den * den) ≤ 2 * num + den
      ∧ 2 * num ≤ 2 * (roundHalfEven num den * den) + den := by
  have hdiv := Nat.div_add_mod num den
  have hmod := Nat.mod_lt num h
  have hcomm : den * (num / den) = num / den * den := Nat.mul_comm _ _
  unfold roundHalfEven
  dsimp only
  split
  · omega
  · rw [Nat.add_mul]
    omega

/-- The least mantissa of 53 bits, `2 ^ 52`. -/
def bits53 : Nat := 4503599627370496

/-- The fraction `num / den / 2 ^ e`. -/
def scale (num den : Nat) (e : Int) : Nat × Nat :=
  (num * Nat.pow 2 (-e).toNat, den * Nat.pow 2 e.toNat)

/-- The exponent of the last place of `num / den`: the least one, not below -1074, at which the
fraction has no more than 53 bits before the point. -/
def lastPlace (num den : Nat) : Int :=
  let e : Int := Nat.log2 num - Nat.log2 den - 52
  let (n, d) := scale num den e
  max (-1074) (if n < bits53 * d then e - 1 else e)

/-- The number with this mantissa and exponent, or an infinity when the exponent is out of range. -/
def pack (negative : Bool) (mantissa : Nat) (exponent : Int) : Extended :=
  if h : mantissa < 9007199254740992 ∧ -1074 ≤ exponent ∧ exponent ≤ 971
      ∧ (4503599627370496 ≤ mantissa ∨ exponent = -1074) then
    .finite ⟨negative, mantissa, exponent, h⟩
  else .infinite negative

/-- The number nearest to `num / den`, a tie going to the even mantissa; an infinity when the
rounded magnitude is out of range. -/
def ofRatio (negative : Bool) (num den : Nat) : Extended :=
  if num = 0 then .finite (zero negative)
  else
    let e := lastPlace num den
    let (n, d) := scale num den e
    let m := roundHalfEven n d
    if m < 2 * bits53 then pack negative m e else pack negative bits53 (e + 1)

/-- The number nearest to a whole number. -/
def ofInt (n : Int) : Extended := ofRatio (n < 0) n.natAbs 1

/-- The product with a whole number, rounded. -/
def times (x : Binary64) (n : Nat) : Extended :=
  ofRatio x.negative (x.numerator * n) x.denominator

/-- The quotient by a whole number, rounded. -/
def dividedBy (x : Binary64) (n : Nat) : Extended :=
  ofRatio x.negative x.numerator (x.denominator * n)

/-- Halves and ties: one half is exact, and `2 ^ 53 + 1` goes to the even neighbour `2 ^ 53`. -/
example : ofRatio false 1 2 = pack false bits53 (-53)
    ∧ ofInt 9007199254740993 = pack false bits53 1 := by decide +kernel

end Binary64

end Stencil
