import Stencil.Text.Digit
import Stencil.Value.Basic

/-!
# YAML scalars

What an unquoted word of a YAML document stands for: null, a boolean, a number, or a text.

## Main definitions

* `Stencil.Yaml.Meaning`, `Stencil.Yaml.meaning` — what an unquoted word stands for.
* `Stencil.Yaml.isPaddedDigits` — digits with needless zeros in front, which are a text.
-/

set_option autoImplicit false

namespace Stencil.Yaml

/-- What an unquoted word stands for. -/
inductive Meaning where
  | null
  | bool (b : Bool)
  | int (n : Int)
  | float (x : Extended)
  | text
deriving DecidableEq, Inhabited

/-- The words for null; no word at all is another. -/
def isNull (s : List Char) : Bool :=
  ["", "~", "null", "Null", "NULL"].contains (String.ofList s)

/-- The boolean that a word names. -/
def bool? (s : List Char) : Option Bool :=
  let word := String.ofList s
  if ["true", "True", "TRUE"].contains word then some true
  else if ["false", "False", "FALSE"].contains word then some false
  else none

/-- The text after a plus sign, if there is one. -/
def dropPlus : List Char → List Char
  | '+' :: r => r
  | s => s

/-- The text after a sign, if there is one. -/
def dropSign (s : List Char) : List Char := (Decimal.takeSign s).2

/-- Digits with a zero in front of others are a text, not a number. -/
def isPaddedDigits (s : List Char) : Bool :=
  match dropSign s with
  | '0' :: d :: rest => (d :: rest).all Char.isDigit
  | _ => false

/-! ## Numbers -/

/-- The whole number that digits write, in hexadecimal, octal or binary after a mark and else in
decimal. -/
def magnitude? : List Char → Option Nat
  | '0' :: 'x' :: ds => Text.ofDigits? 16 ds
  | '0' :: 'o' :: ds => Text.ofDigits? 8 ds
  | '0' :: 'b' :: ds => Text.ofDigits? 2 ds
  | ds => Text.ofDigits? 10 ds

/-- The whole number that a word writes, if it fits 128 bits. -/
def int? (s : List Char) : Option Int :=
  if isPaddedDigits s then none
  else
    match s with
    | '-' :: r =>
      (magnitude? r).bind fun n => if n ≤ Nat.pow 2 127 then some (-(n : Int)) else none
    | r => (magnitude? (dropPlus r)).bind fun n => if n < Nat.pow 2 128 then some (n : Int) else none

/-- The double that a word writes, as a numeral or by the name of an infinity or of not-a-number. A
numeral beyond the greatest double is none. -/
def float? (s : List Char) : Option Extended :=
  let named (words : List String) (r : List Char) : Bool := words.contains (String.ofList r)
  if named [".inf", ".Inf", ".INF"] (dropPlus s) then some (.infinite false)
  else if named ["-.inf", "-.Inf", "-.INF"] s then some (.infinite true)
  else if named [".nan", ".NaN", ".NAN"] s then some .nan
  else
    match (Decimal.ofText? s).map Decimal.nearest with
    | some (.finite x) => some (.finite x)
    | _ => none

/-- What an unquoted word stands for. -/
def meaning (s : List Char) : Meaning :=
  if isNull s then .null
  else
    match bool? s with
    | some b => .bool b
    | none =>
      match int? s with
      | some n => .int n
      | none =>
        if isPaddedDigits s then .text
        else
          match float? s with
          | some x => .float x
          | none => .text

end Stencil.Yaml
