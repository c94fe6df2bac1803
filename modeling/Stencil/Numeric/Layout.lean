import Stencil.Numeric.Shortest

/-!
# Written forms of doubles

How the shortest digits of a double are laid out. Every output format is one `Layout`: the decades
it writes positionally, the tail it gives whole numbers, and the sign of its exponents.

## Main definitions

* `Stencil.Layout` — the decisions of one written form.
* `Stencil.Binary64.text` — the text of a double in a layout.
* `Stencil.Binary64.plainText` — the text of a double among other text, whole numbers in plain
  digits.
-/

set_option autoImplicit false

namespace Stencil

/-- The decisions of one written form of doubles. -/
structure Layout where
  /-- The least decade that is written positionally. -/
  lowest : Int
  /-- The greatest decade that is written positionally. -/
  highest : Int
  /-- What follows the digits of a whole number. -/
  wholeTail : List Char
  /-- What stands before an exponent that is not negative. -/
  exponentSign : List Char

namespace Layout

/-- In JSON text the decades from -5 to 15 are positional, whole numbers end in a point and a zero,
and an exponent always has a sign. -/
def json : Layout := ⟨-5, 15, ['.', '0'], ['+']⟩

/-- In YAML text an exponent that is not negative has no sign; all else is as in JSON. -/
def yaml : Layout := ⟨-5, 15, ['.', '0'], []⟩

/-- In TOML text every double is positional. -/
def toml : Layout := ⟨-324, 308, ['.', '0'], []⟩

/-- A run of `n` zeros. -/
def zeros (n : Nat) : List Char := List.replicate n '0'

/-- Digits with the point after the place of ones. -/
def positional (layout : Layout) (s : Scientific) : List Char :=
  if s.decade < 0 then '0' :: '.' :: (zeros (-s.decade - 1).toNat ++ s.digits)
  else
    let before := s.decade.toNat + 1
    if s.digits.length ≤ before then
      s.digits ++ zeros (before - s.digits.length) ++ layout.wholeTail
    else s.digits.take before ++ '.' :: s.digits.drop before

/-- One digit before the point, and the power of ten behind. -/
def scientific (layout : Layout) (s : Scientific) : List Char :=
  let point := if s.digits.length ≤ 1 then [] else '.' :: s.digits.drop 1
  let sign := if s.decade < 0 then ['-'] else layout.exponentSign
  s.digits.take 1 ++ point ++ 'e' :: (sign ++ Nat.toDigits 10 s.decade.natAbs)

/-- The text of a magnitude given by its digits. -/
def magnitude (layout : Layout) (s : Scientific) : List Char :=
  if layout.lowest ≤ s.decade ∧ s.decade ≤ layout.highest then layout.positional s
  else layout.scientific s

/-- Decade 15 is the last positional one in JSON, and decade -6 the first that is not. -/
example : json.magnitude ⟨['1', '5'], 15⟩ = "1500000000000000.0".toList
    ∧ json.magnitude ⟨['1', '5'], 16⟩ = "1.5e+16".toList
    ∧ json.magnitude ⟨['1'], -6⟩ = "1e-6".toList
    ∧ yaml.magnitude ⟨['1', '5'], 16⟩ = "1.5e16".toList
    ∧ toml.magnitude ⟨['1', '5'], 17⟩ = "150000000000000000.0".toList := by decide +kernel

end Layout

namespace Binary64

/-- The minus sign of a negative number, negative zero included. -/
def sign (x : Binary64) : List Char := if x.negative then ['-'] else []

/-- The text of a double in the given layout: its shortest digits, laid out. -/
def text (layout : Layout) (x : Binary64) : List Char := x.sign ++ layout.magnitude x.shortest

/-- The text of a double among other text: whole numbers below `10 ^ 21` in plain digits, any other
as in JSON. -/
def plainText (x : Binary64) : List Char :=
  if x.isWhole ∧ x.wholeMagnitude < Nat.pow 10 21 then x.sign ++ Nat.toDigits 10 x.wholeMagnitude
  else x.text .json

end Binary64

end Stencil
