import Stencil.Json.Reader
import Stencil.Tag
import Stencil.Text.Basic
import Stencil.Value.Display

/-!
# Casts

A tag casts a value that has been found. Casts never fail: a value that cannot be converted stays
as it is, and null always does.

## Main definitions

* `Stencil.Mode` — whether a placeholder is a whole template or stands in a text.
* `Stencil.Value.cast` — the cast of a value by a tag.
* `Stencil.Value.toBool` — the cast that turns the texts of booleans into booleans at every depth.

## Main results

* `Stencil.Value.cast_null` — null is kept by every cast.
-/

set_option autoImplicit false

namespace Stencil

/-- A placeholder is the whole template, or it is embedded in a text. -/
inductive Mode where
  | whole
  | embedded
deriving DecidableEq, Inhabited

namespace Value

/-- The whole number that a value converts to: a text by its leading digits, a double without its
fraction. -/
def toInt? : Value → Option Value
  | .str s => (Number.wholeStart? (Text.trim s.toList)).map .num
  | .num (.float x) => some (.num (Number.truncate x))
  | .num (.int n) => some (.num (.int n))
  | _ => none

/-- The number that a value converts to: a text by its leading numeral. -/
def toNumber? : Value → Option Value
  | .str s => (Number.start? (Text.trim s.toList)).map .num
  | .num n => some (.num n)
  | _ => none

/-- The boolean that a text names, blanks around it aside; any other text as it is. -/
def boolOfText (s : String) : Value :=
  let t := Text.trim s.toList
  if t = "true".toList then .bool true
  else if t = "false".toList then .bool false
  else .str s

mutual

/-- The value with every text that names a boolean turned into it, at every depth. -/
def toBool : Value → Value
  | .str s => boolOfText s
  | .arr items => .arr (toBoolItems items)
  | .obj members => .obj (toBoolMembers members)
  | v => v

/-- The items with every text that names a boolean turned into it. -/
def toBoolItems : List Value → List Value
  | [] => []
  | v :: rest => toBool v :: toBoolItems rest

/-- The members with every text that names a boolean turned into it. -/
def toBoolMembers : List (String × Value) → List (String × Value)
  | [] => []
  | (k, v) :: rest => (k, toBool v) :: toBoolMembers rest

end

/-- The value of the JSON text that a text holds, blanks around it aside; any other value as it
is. -/
def parsed : Value → Value
  | .str s => (Json.read? (Text.trim s.toList)).getD (.str s)
  | v => v

/-- The value is a text that names null, blanks around it aside. -/
def namesNull : Value → Bool
  | .str s => Text.trim s.toList = "null".toList
  | _ => false

/-- The cast of a value by a tag. Inside a text, the tag `json` keeps the value and the tag `null`
gives the text of null. -/
def cast (mode : Mode) (tag : Tag) (v : Value) : Value :=
  match v with
  | .null => .null
  | v =>
    match tag with
    | .str => .str (String.ofList v.display)
    | .int => v.toInt?.getD v
    | .num => v.toNumber?.getD v
    | .bool => v.toBool
    | .json =>
      match mode with
      | .whole => v.parsed
      | .embedded => v
    | .null =>
      if v.namesNull then .null
      else
        match mode with
        | .whole => v
        | .embedded => .str "null"
    | .any | .undefined | .ignoreEmptyStr => v

@[simp] theorem cast_null (mode : Mode) (tag : Tag) : cast mode tag .null = .null := rfl

end Value

end Stencil
