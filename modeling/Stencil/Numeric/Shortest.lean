import Stencil.Numeric.Decimal

/-!
# Shortest digits

The fewest decimal digits that read back as a given double: on each decimal grid, coarsest first,
the two neighbours of the number are tried, the nearer one before the other.

## Main definitions

* `Stencil.Scientific` — decimal digits `d₁ d₂ …` that stand for `d₁.d₂… · 10 ^ decade`.
* `Stencil.Binary64.onGrid?` — the neighbour of a double on a decimal grid that reads back as it.
* `Stencil.Binary64.shortest` — the fewest digits that read back.

## Main results

* `Stencil.Binary64.readsBack_of_onGrid?` — what a grid yields reads back.
-/

set_option autoImplicit false

namespace Stencil

/-- Decimal digits `d₁ d₂ …` that stand for the magnitude `d₁.d₂… · 10 ^ decade`. -/
structure Scientific where
  digits : List Char
  decade : Int
deriving DecidableEq, Inhabited

namespace Scientific

/-- The digits of `n · 10 ^ k`, trailing zeros dropped. -/
def ofScaled (n : Nat) (k : Int) : Scientific :=
  let ds := Nat.toDigits 10 n
  let significant := (ds.reverse.dropWhile (· == '0')).reverse
  ⟨if significant = [] then ['0'] else significant, k + ds.length - 1⟩

end Scientific

namespace Binary64

/-- The decade of a positive fraction: the `e` with `10 ^ e ≤ num / den < 10 ^ (e + 1)`. -/
def decade (num den : Nat) : Int :=
  if den ≤ num then Decimal.digitCount (num / den) - 1
  else -(Decimal.digitCount ((den - 1) / num) : Int)

/-- The decimal `n · 10 ^ k`, with the sign of `x`, rounds to `x`. -/
def ReadsBack (x : Binary64) (n : Nat) (k : Int) : Prop :=
  Decimal.nearest ⟨x.negative, n, k⟩ = .finite x

instance (x : Binary64) (n : Nat) (k : Int) : Decidable (x.ReadsBack n k) :=
  inferInstanceAs (Decidable (_ = _))

/-- The multiple of `10 ^ k` next to the magnitude of `x` that reads back as `x`: the nearer one of
the two if it does, else the other if that does; the even one is the nearer of two equally near. -/
def onGrid? (x : Binary64) (k : Int) : Option Nat :=
  let n := x.numerator * Nat.pow 10 (-k).toNat
  let d := x.denominator * Nat.pow 10 k.toNat
  let nearer := roundHalfEven n d
  let other := if nearer = n / d then n / d + 1 else n / d
  if x.ReadsBack nearer k then some nearer
  else if x.ReadsBack other k then some other
  else none

theorem readsBack_of_onGrid? {x : Binary64} {k : Int} {n : Nat} (h : x.onGrid? k = some n) :
    x.ReadsBack n k := by
  unfold onGrid? at h
  grind

/-- The grids with one, two, … seventeen digits for the magnitude of `x`, coarsest first. -/
def grids (x : Binary64) : List Int :=
  (List.range 17).map fun (i : Nat) => decade x.numerator x.denominator - i

/-- The fewest digits that read back as `x`. Seventeen always suffice. -/
def shortest (x : Binary64) : Scientific :=
  if x.isZero then ⟨['0'], 0⟩
  else
    match x.grids.findSome? fun k => (x.onGrid? k).map (Scientific.ofScaled · k) with
    | some s => s
    | none => Scientific.ofScaled x.wholeMagnitude 0

/-- One tenth has one digit, and a tie goes to the even one. -/
example : ((Decimal.nearest ⟨false, 1, -1⟩), (Decimal.nearest ⟨false, 112589990684262425, -2⟩)) =
    (pack false 7205759403792794 (-56), pack false 4503599627370497 (-2)) := by decide +kernel

end Binary64

end Stencil
