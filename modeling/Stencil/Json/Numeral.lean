import Stencil.Numeric.Number

/-!
# JSON numerals

A whole number of 64 bits is held exactly. Of any other numeral the leading digits are gathered as
long as they fit 64 bits, the double nearest to them is taken, and it is scaled by powers of ten
that are doubles themselves. Each step rounds, so the outcome may be a neighbour of the double that
is nearest to the numeral.

## Main definitions

* `Stencil.Json.takeMinus`, `Stencil.Json.takeWhole?`, `Stencil.Json.takeTail?` — the parts of a
  numeral.
* `Stencil.Json.gather` — the leading digits that fit 64 bits.
* `Stencil.Json.scale?` — a double scaled by a power of ten.
* `Stencil.Json.double?` — the double for the parts of a numeral.
* `Stencil.Json.number?` — the number that a JSON numeral writes.
-/

set_option autoImplicit false

namespace Stencil.Json

/-! ## The parts of a numeral -/

/-- A leading minus, read as "is negative", and the rest. -/
def takeMinus : List Char → Bool × List Char
  | '-' :: r => (true, r)
  | s => (false, s)

/-- The whole part of a numeral, zero or digits that do not start with zero, and the rest. -/
def takeWhole? (s : List Char) : Option (List Char × List Char) :=
  match Decimal.takeDigits s with
  | ([], _) => none
  | (['0'], rest) => some (['0'], rest)
  | ('0' :: _, _) => none
  | (ds, rest) => some (ds, rest)

/-- The digits of the fraction and the exponent that end a numeral behind its whole part. -/
def takeTail? (rest : List Char) : Option (List Char × Int) := do
  let (fraction, rest) ←
    match rest with
    | '.' :: r =>
      match Decimal.takeDigits r with
      | ([], _) => none
      | found => some found
    | r => some ([], r)
  match Decimal.takeExponent rest with
  | (e, []) => some (fraction, e)
  | _ => none

/-- The whole number that the digits write behind `n`, as far as it fits 64 bits, and the digits
from the first one on with which it does not. -/
def gather (n : Nat) : List Char → Nat × List Char
  | [] => (n, [])
  | c :: r =>
    let next := 10 * n + (c.toNat - '0'.toNat)
    if fitsUnsigned next then gather next r else (n, c :: r)

/-! ## Scaling -/

/-- The double nearest to `10 ^ k`, a whole number. The greatest `k` with such a double is 308. -/
def powerOfTen (k : Nat) : Nat :=
  match Decimal.nearest ⟨false, 1, k⟩ with
  | .finite x => x.wholeMagnitude
  | .infinite _ | .nan => 0

/-- The double is divided by the greatest power of ten so many times, or until it is zero. -/
def shrink? (x : Binary64) : Nat → Option Binary64
  | 0 => some x
  | steps + 1 =>
    if x.isZero then some x
    else (x.dividedBy (powerOfTen 308)).finite?.bind fun y => shrink? y steps

/-- The double scaled by `10 ^ exponent`, unless it becomes infinite. -/
def scale? (x : Binary64) (exponent : Int) : Option Binary64 :=
  if x.isZero then some x
  else if 308 < exponent then none
  else if 0 ≤ exponent then (x.times (powerOfTen exponent.toNat)).finite?
  else
    let decades := (-exponent).toNat
    let steps := (decades - 1) / 308
    (shrink? x steps).bind fun y => (y.dividedBy (powerOfTen (decades - 308 * steps))).finite?

/-! ## Numbers -/

/-- The double for the digits of a numeral and its exponent. Digits of the whole part that are not
gathered count as zeros, and those of the fraction are cut off. -/
def double? (negative : Bool) (whole fraction : List Char) (exponent : Int) : Option Binary64 :=
  let (leading, dropped) := gather 0 whole
  let (significand, cut) := gather leading fraction
  (Binary64.ofRatio negative significand 1).finite?.bind fun x =>
    scale? x (exponent + dropped.length - (fraction.length - cut.length))

/-- The number that a numeral writes: a whole number of at most 64 bits stays whole, except the
negative zero; any other is a double, and there is none beyond the greatest double. -/
def number? (s : List Char) : Option Number := do
  let (negative, r) := takeMinus s
  let (whole, rest) ← takeWhole? r
  let magnitude := Decimal.ofDigits whole
  let n : Int := if negative then -magnitude else magnitude
  if rest = [] ∧ (fitsSigned n ∨ fitsUnsigned n) ∧ ¬(negative ∧ magnitude = 0) then
    return .int n
  let (fraction, exponent) ← takeTail? rest
  return .float (← double? negative whole fraction exponent)

/-- A numeral that is read as the double next to the nearest one. -/
example : (number? "51.248178375505404".toList).map (Number.text .json)
    = some "51.24817837550541".toList := by decide +kernel

end Stencil.Json
