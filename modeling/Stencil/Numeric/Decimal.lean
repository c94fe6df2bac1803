import Stencil.Numeric.Binary64

/-!
# Decimal numerals

Decimal numbers as they are written, the double nearest to each, and the scan for the longest
numeral at the start of a text.

## Main definitions

* `Stencil.Decimal` — a number `± coefficient · 10 ^ exponent`.
* `Stencil.Decimal.nearest` — the double nearest to it.
* `Stencil.Decimal.wholeText` — the decimal text of a whole number.
* `Stencil.Decimal.scanWhole?` — the longest signed run of digits at the start of a text.
* `Stencil.Decimal.scan?` — the longest numeral with optional fraction and exponent at the start of
  a text.

## Main results

* `Stencil.Decimal.takeDigits_append` — taking digits off a text loses nothing.
-/

set_option autoImplicit false

namespace Stencil

/-- A number `± coefficient · 10 ^ exponent`. -/
structure Decimal where
  negative : Bool
  coefficient : Nat
  exponent : Int
deriving DecidableEq, Inhabited

namespace Decimal

/-- The number of decimal digits of a whole number, one for zero. -/
def digitCount (n : Nat) : Nat := (Nat.toDigits 10 n).length

/-- The double nearest to the decimal. A magnitude from `10 ^ 309` on is infinite and one below
`10 ^ -324` is zero, so no power beyond these is ever formed. -/
def nearest (d : Decimal) : Extended :=
  if d.coefficient = 0 then .finite (.zero d.negative)
  else if 310 ≤ digitCount d.coefficient + d.exponent then .infinite d.negative
  else if digitCount d.coefficient + d.exponent ≤ -324 then .finite (.zero d.negative)
  else
    Binary64.ofRatio d.negative (d.coefficient * Nat.pow 10 d.exponent.toNat)
      (Nat.pow 10 (-d.exponent).toNat)

/-! ## Digits -/

/-- The whole number that a run of digits writes. -/
def ofDigits (ds : List Char) : Nat := Nat.ofDigitChars 10 ds 0

/-- The decimal text of a whole number. -/
def wholeText (n : Int) : List Char :=
  if n < 0 then '-' :: Nat.toDigits 10 n.natAbs else Nat.toDigits 10 n.natAbs

/-- The leading digits of a text and the rest. -/
def takeDigits (s : List Char) : List Char × List Char :=
  (s.takeWhile Char.isDigit, s.dropWhile Char.isDigit)

theorem takeDigits_append (s : List Char) : (takeDigits s).1 ++ (takeDigits s).2 = s :=
  List.takeWhile_append_dropWhile

/-- A leading sign, read as "is negative", and the rest. -/
def takeSign : List Char → Bool × List Char
  | '-' :: r => (true, r)
  | '+' :: r => (false, r)
  | s => (false, s)

/-! ## Numerals at the start of a text -/

/-- The longest optionally signed run of digits at the start of a text, with what follows it. -/
def scanWhole? (s : List Char) : Option (Int × List Char) :=
  let (negative, r) := takeSign s
  match takeDigits r with
  | ([], _) => none
  | (ds, rest) => some (if negative then -(ofDigits ds : Int) else ofDigits ds, rest)

/-- An exponent part, `e` with an optionally signed run of digits; without digits nothing is taken
and the exponent is zero. -/
def takeExponent : List Char → Int × List Char
  | c :: r => if c = 'e' ∨ c = 'E' then (scanWhole? r).getD (0, c :: r) else (0, c :: r)
  | [] => (0, [])

/-- The longest numeral at the start of a text, with what follows it: an optional sign; digits with
an optional point and further digits, or a point and digits; and an optional exponent part. -/
def scan? (s : List Char) : Option (Decimal × List Char) :=
  let (negative, r) := takeSign s
  let (whole, r) := takeDigits r
  let (fraction, r) :=
    match r with
    | '.' :: t =>
      let (fraction, t) := takeDigits t
      if whole = [] ∧ fraction = [] then ([], r) else (fraction, t)
    | _ => ([], r)
  if whole = [] ∧ fraction = [] then none
  else
    let (exponent, rest) := takeExponent r
    some (⟨negative, ofDigits (whole ++ fraction), exponent - fraction.length⟩, rest)

/-- The decimal that a text writes, when it is one numeral from end to end. -/
def ofText? (s : List Char) : Option Decimal :=
  match scan? s with
  | some (d, []) => some d
  | _ => none

end Decimal

/-! ## Reading doubles -/

/-- The text in lower case, for names that are read in any case. -/
def Extended.lower (s : List Char) : List Char := s.map Char.toLower

/-- The double that a text writes: a numeral, or an optionally signed name of infinity or of not a
number, in any case. -/
def Extended.ofText? (s : List Char) : Option Extended :=
  match Decimal.ofText? s with
  | some d => some d.nearest
  | none =>
    let (negative, r) := Decimal.takeSign s
    let name := Extended.lower r
    if name = "inf".toList ∨ name = "infinity".toList then some (.infinite negative)
    else if name = "nan".toList then some .nan
    else none

end Stencil
