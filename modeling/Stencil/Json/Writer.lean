import Stencil.Value.Basic

/-!
# Writing JSON

The compact text of a value, without spaces, and the indented one.

## Main definitions

* `Stencil.Json.quote` — a text in quotes.
* `Stencil.Json.compact` — the text of a value without spaces.
* `Stencil.Json.pretty` — the text of a value with one item or member a line.
-/

set_option autoImplicit false

namespace Stencil.Json

/-- How a character is written inside quotes: the quote, the backslash and the characters below
the space are escaped, all others stand as they are. -/
def escape (c : Char) : List Char :=
  match c with
  | '"' => ['\\', '"']
  | '\\' => ['\\', '\\']
  | '\x08' => ['\\', 'b']
  | '\x0c' => ['\\', 'f']
  | '\n' => ['\\', 'n']
  | '\r' => ['\\', 'r']
  | '\t' => ['\\', 't']
  | c =>
    if c.toNat < 0x20 then
      ['\\', 'u', '0', '0', Nat.digitChar (c.toNat / 16), Nat.digitChar (c.toNat % 16)]
    else [c]

/-- A text in quotes. -/
def quote (s : String) : List Char := '"' :: (s.toList.flatMap escape ++ ['"'])

/-- The text of a value that is no container. -/
def scalar : Value → List Char
  | .bool b => if b then "true".toList else "false".toList
  | .num n => n.text .json
  | .str s => quote s
  | _ => "null".toList

/-! ## Compact text -/

mutual

/-- The text of a value without spaces. -/
def compact : Value → List Char
  | .arr items => '[' :: (List.intercalate [','] (compactItems items) ++ [']'])
  | .obj members => '\x7b' :: (List.intercalate [','] (compactMembers members) ++ ['\x7d'])
  | v => scalar v

/-- The texts of the items of an array. -/
def compactItems : List Value → List (List Char)
  | [] => []
  | v :: rest => compact v :: compactItems rest

/-- The texts of the members of an object. -/
def compactMembers : List (String × Value) → List (List Char)
  | [] => []
  | (k, v) :: rest => (quote k ++ ':' :: compact v) :: compactMembers rest

end

/-! ## Indented text -/

/-- A line feed and two spaces for each level. -/
def newLine (level : Nat) : List Char := '\n' :: List.replicate (2 * level) ' '

/-- Parts between brackets, each on a line of its own at `level + 1`. -/
def block (level : Nat) (opening closing : Char) (parts : List (List Char)) : List Char :=
  if parts = [] then [opening, closing]
  else
    opening :: (newLine (level + 1)
      ++ List.intercalate (',' :: newLine (level + 1)) parts ++ newLine level ++ [closing])

mutual

/-- The text of a value at a level of indentation, with one item or member a line. -/
def prettyAt (level : Nat) : Value → List Char
  | .arr items => block level '[' ']' (prettyItems (level + 1) items)
  | .obj members => block level '\x7b' '\x7d' (prettyMembers (level + 1) members)
  | v => scalar v

/-- The indented texts of the items of an array. -/
def prettyItems (level : Nat) : List Value → List (List Char)
  | [] => []
  | v :: rest => prettyAt level v :: prettyItems level rest

/-- The indented texts of the members of an object. -/
def prettyMembers (level : Nat) : List (String × Value) → List (List Char)
  | [] => []
  | (k, v) :: rest => (quote k ++ ':' :: ' ' :: prettyAt level v) :: prettyMembers level rest

end

/-- The text of a value with one item or member a line. -/
def pretty (v : Value) : List Char := prettyAt 0 v

end Stencil.Json
