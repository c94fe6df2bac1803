import Stencil.Text.Digit
import Stencil.Value.Object

/-!
# TOML scalars

The values that TOML writes as a bare word: booleans, whole numbers in four bases, doubles, dates
and times.

## Main definitions

* `Stencil.Toml.whole?`, `Stencil.Toml.float?` — the number that a word writes.
* `Stencil.Toml.moment?` — the date or time that a word writes, in its one standard form.
* `Stencil.Toml.scalar?` — the value that a word writes.
-/

set_option autoImplicit false

namespace Stencil.Toml

/-! ## Numbers -/

/-- The digits of a run in which single underscores may stand between digits. -/
def digits? (isDigit : Char → Bool) (s : List Char) : Option (List Char) :=
  let groups := s.splitOn '_'
  if groups.all fun group => group ≠ [] ∧ group.all isDigit then some groups.flatten else none

/-- The whole number that digits of a base write. -/
def ofBase? (base : Nat) (s : List Char) : Option Nat :=
  (digits? (fun c => (Text.digitValue? base c).isSome) s).bind (Text.ofDigits? base)

/-- Decimal digits that do not start with a zero, unless it is the only one. -/
def decimalDigits? (s : List Char) : Option (List Char) :=
  match digits? Char.isDigit s with
  | some ('0' :: _ :: _) => none
  | found => found

/-- The whole number that a word writes: decimal with an optional sign, or hexadecimal, octal or
binary without one. It must fit 64 bits. -/
def whole? (s : List Char) : Option Int := do
  let n : Int ← match s with
    | '0' :: 'x' :: ds => (ofBase? 16 ds).map Int.ofNat
    | '0' :: 'o' :: ds => (ofBase? 8 ds).map Int.ofNat
    | '0' :: 'b' :: ds => (ofBase? 2 ds).map Int.ofNat
    | s =>
      let (negative, r) := Decimal.takeSign s
      (decimalDigits? r).map fun ds =>
        if negative then -(Decimal.ofDigits ds : Int) else Decimal.ofDigits ds
  if fitsSigned n then some n else none

/-- The exponent that follows the letter `e`. -/
def exponent? (s : List Char) : Option Int :=
  let (negative, r) := Decimal.takeSign s
  (digits? Char.isDigit r).map fun ds =>
    if negative then -(Decimal.ofDigits ds : Int) else Decimal.ofDigits ds

/-- The decimal that a word writes with a fraction, an exponent or both. -/
def decimal? (s : List Char) : Option Decimal := do
  let (negative, r) := Decimal.takeSign s
  let (mantissa, rest) := r.span fun c => c ≠ 'e' ∧ c ≠ 'E'
  let e ← match rest with
    | [] => some 0
    | _ :: e => exponent? e
  match mantissa.span (· ≠ '.') with
  | (_, []) =>
    if rest = [] then none
    else return ⟨negative, Decimal.ofDigits (← decimalDigits? mantissa), e⟩
  | (whole, _ :: fraction) =>
    let whole ← decimalDigits? whole
    let fraction ← digits? Char.isDigit fraction
    return ⟨negative, Decimal.ofDigits (whole ++ fraction), e - fraction.length⟩

/-- The double that a word writes. A numeral may not be beyond the greatest double; infinities and
not-a-number have names. -/
def float? (s : List Char) : Option Extended :=
  match decimal? s with
  | some d => if d.nearest = .infinite false then none else some d.nearest
  | none =>
    let (negative, r) := Decimal.takeSign s
    if r = "inf".toList then some (.infinite negative)
    else if r = "nan".toList then some .nan
    else none

/-! ## Dates and times -/

/-- The number that exactly `n` digits write. -/
def fixed? (n : Nat) (s : List Char) : Option Nat :=
  if s.length = n ∧ s.all Char.isDigit then some (Decimal.ofDigits s) else none

/-- The year has a leap day. -/
def isLeap (year : Nat) : Bool := year % 4 == 0 && (year % 100 != 0 || year % 400 == 0)

/-- The number of days of a month. -/
def daysIn (year month : Nat) : Nat :=
  if month = 2 then (if isLeap year then 29 else 28)
  else if month = 4 ∨ month = 6 ∨ month = 9 ∨ month = 11 then 30
  else 31

/-- The text is a date. -/
def isDate (s : List Char) : Bool :=
  match s.splitOn '-' with
  | [y, m, d] =>
    match fixed? 4 y, fixed? 2 m, fixed? 2 d with
    | some y, some m, some d => 1 ≤ m && m ≤ 12 && 1 ≤ d && d ≤ daysIn y m
    | _, _, _ => false
  | _ => false

/-- The fraction of a second in its standard form: nine digits at most, trailing zeros dropped. -/
def fraction (ds : List Char) : List Char :=
  let significant := ((ds.take 9).reverse.dropWhile (· == '0')).reverse
  if significant = [] then [] else '.' :: significant

/-- A time of day in its standard form. -/
def time? (s : List Char) : Option (List Char) := do
  let (clock, rest) := s.span (· ≠ '.')
  match clock.splitOn ':' with
  | [h, m, sec] =>
    if 23 < (← fixed? 2 h) ∨ 59 < (← fixed? 2 m) ∨ 60 < (← fixed? 2 sec) then none
    else
      match rest with
      | [] => some clock
      | _ :: ds => if ds ≠ [] ∧ ds.all Char.isDigit then some (clock ++ fraction ds) else none
  | _ => none

/-- An offset from universal time in its standard form. -/
def offset? (s : List Char) : Option (List Char) :=
  match s with
  | ['z'] | ['Z'] => some ['Z']
  | sign :: r =>
    match r.splitOn ':' with
    | [h, m] =>
      match fixed? 2 h, fixed? 2 m with
      | some hours, some minutes =>
        if 23 < hours ∨ 59 < minutes then none
        else if hours = 0 ∧ minutes = 0 then some "+00:00".toList
        else some (sign :: r)
      | _, _ => none
    | _ => none
  | [] => none

/-- The date, time, or both, that a word writes, in the standard form: a capital letter between
date and time. -/
def moment? (s : List Char) : Option (List Char) :=
  if isDate s then some s
  else
    match time? s with
    | some t => some t
    | none =>
      let date := s.take 10
      match s.drop 10 with
      | separator :: r =>
        let (clock, offset) := r.span fun c => c ≠ 'z' ∧ c ≠ 'Z' ∧ c ≠ '+' ∧ c ≠ '-'
        if isDate date ∧ (separator = 'T' ∨ separator = 't' ∨ separator = ' ') then do
          let clock ← time? clock
          let offset ← if offset = [] then some [] else offset? offset
          return date ++ 'T' :: (clock ++ offset)
        else none
      | [] => none

/-- The key under which a date or time becomes the member of an object. -/
def momentKey : String := "$__toml_private_datetime"

/-! ## Words -/

/-- The value that a word writes. -/
def scalar? (s : List Char) : Option Value :=
  if s = "true".toList then some (.bool true)
  else if s = "false".toList then some (.bool false)
  else
    match whole? s with
    | some n => some (.num (.int n))
    | none =>
      match float? s with
      | some x => some (Value.ofExtended x)
      | none => (moment? s).map fun t => .obj [(momentKey, .str (String.ofList t))]

end Stencil.Toml
