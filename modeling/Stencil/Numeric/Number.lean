import Stencil.Numeric.Layout

/-!
# Numbers

The numbers of a document: whole numbers held exactly, and doubles. The two classes stay apart, so
`1` and `1.0` are different numbers.

## Main definitions

* `Stencil.Number` — a whole number or a double.
* `Stencil.Number.ofExtended?` — the number for a computed double, whole when that is exact.
* `Stencil.Number.truncate?` — the number without its fractional part.
* `Stencil.Number.wholeStart?`, `Stencil.Number.start?` — the number that a text starts with.
-/

set_option autoImplicit false

namespace Stencil

/-- A whole number, or a double. -/
inductive Number where
  | int (n : Int)
  | float (x : Binary64)
deriving DecidableEq, Inhabited

/-- The whole number fits 64 bits with a sign. -/
def fitsSigned (n : Int) : Bool := -9223372036854775808 ≤ n && n ≤ 9223372036854775807

/-- The whole number fits 64 bits without a sign. -/
def fitsUnsigned (n : Int) : Bool := 0 ≤ n && n ≤ 18446744073709551615

namespace Number

/-- The greatest magnitude up to which every whole number is a double, `2 ^ 53 - 1`. -/
def maxSafe : Nat := 9007199254740991

/-- The number for a double: a whole number when it has no fraction and is not beyond `maxSafe`,
else the double itself. -/
def ofBinary64 (x : Binary64) : Number :=
  if x.isWhole ∧ x.wholeMagnitude ≤ maxSafe then .int x.truncate else .float x

/-- The number for a computed double; infinities and not-a-number have none. -/
def ofExtended? : Extended → Option Number
  | .finite x => some (ofBinary64 x)
  | .infinite _ | .nan => none

/-- A double without its fractional part, as a number. -/
def truncate (x : Binary64) : Number :=
  if x.wholeMagnitude ≤ maxSafe then .int x.truncate else .float x

/-- The whole number that a text starts with: exact within 64 bits, else the number for the nearest
double. -/
def wholeStart? (s : List Char) : Option Number :=
  (Decimal.scanWhole? s).bind fun (n, _) =>
    if fitsSigned n then some (.int n) else ofExtended? (Binary64.ofInt n)

/-- The double nearest to the longest numeral that a text starts with. -/
def floatStart? (s : List Char) : Option Extended :=
  (Decimal.scan? s).map fun (d, _) => d.nearest

/-- The number that a text starts with. -/
def start? (s : List Char) : Option Number := (floatStart? s).bind ofExtended?

/-- The text of a number in a layout for doubles. -/
def text (layout : Layout) : Number → List Char
  | .int n => Decimal.wholeText n
  | .float x => x.text layout

/-- The text of a number among other text. -/
def plainText : Number → List Char
  | .int n => Decimal.wholeText n
  | .float x => x.plainText

end Number

end Stencil
