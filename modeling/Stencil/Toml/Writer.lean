import Stencil.Toml.Quoted
import Stencil.Value.Basic

/-!
# Writing TOML

A table is written as its plain members first, then its tables, each under a header of its own.
Null and whole numbers beyond 64 bits with a sign have no written form.

## Main definitions

* `Stencil.Toml.isWritable` — the values that TOML can hold.
* `Stencil.Toml.inline` — the text of a value on the right of an equals sign.
* `Stencil.Toml.sections` — the tables below a table, each with its header.
* `Stencil.Toml.write?` — the text of a document.
-/

set_option autoImplicit false

namespace Stencil.Toml

mutual

/-- TOML can hold the value. -/
def isWritable : Value → Bool
  | .null => false
  | .num (.int n) => fitsSigned n
  | .bool _ | .num (.float _) | .str _ => true
  | .arr items => isWritableItems items
  | .obj members => isWritableMembers members

/-- TOML can hold all the items. -/
def isWritableItems : List Value → Bool
  | [] => true
  | v :: rest => isWritable v && isWritableItems rest

/-- TOML can hold the values of all the members. -/
def isWritableMembers : List (String × Value) → Bool
  | [] => true
  | (_, v) :: rest => isWritable v && isWritableMembers rest

end

/-! ## Values -/

/-- An array from the texts of its items. When `pretty`, two or more items stand on lines of their
own, four spaces in at every depth. -/
def array (pretty : Bool) (items : List (List Char)) : List Char :=
  if pretty ∧ 2 ≤ items.length then
    '[' :: (items.flatMap fun item => "\n    ".toList ++ item ++ [',']) ++ ['\n', ']']
  else '[' :: (List.intercalate [',', ' '] items ++ [']'])

/-- An inline table from the texts of its members. -/
def inlineTable (members : List (List Char)) : List Char :=
  if members = [] then ['\x7b', '\x7d']
  else "\x7b ".toList ++ List.intercalate [',', ' '] members ++ " \x7d".toList

/-- A key and a value with an equals sign between them. -/
def assign (key : String) (value : List Char) : List Char :=
  quoteKey key.toList ++ " = ".toList ++ value

mutual

/-- The text of a value on the right of an equals sign. -/
def inline (pretty : Bool) : Value → List Char
  | .null => []
  | .bool b => if b then "true".toList else "false".toList
  | .num n => n.text .toml
  | .str s => quoteText s.toList
  | .arr items => array pretty (inlineItems pretty items)
  | .obj members => inlineTable (inlineMembers pretty members)

/-- The texts of the items of an array. -/
def inlineItems (pretty : Bool) : List Value → List (List Char)
  | [] => []
  | v :: rest => inline pretty v :: inlineItems pretty rest

/-- The texts of the members of an inline table. -/
def inlineMembers (pretty : Bool) : List (String × Value) → List (List Char)
  | [] => []
  | (k, v) :: rest => assign k (inline pretty v) :: inlineMembers pretty rest

end

/-! ## Tables -/

/-- The value is a table. -/
def isTable : Value → Bool
  | .obj _ => true
  | _ => false

/-- The value gets headers of its own: a table, or an array of tables that is not empty. -/
def hasHeader : Value → Bool
  | .obj _ => true
  | .arr (v :: rest) => isTable v && rest.all isTable
  | _ => false

/-- The lines of the members of a table that get no headers. -/
def body (pretty : Bool) (members : List (String × Value)) : List Char :=
  (members.filter fun m => !hasHeader m.2).flatMap fun m => assign m.1 (inline pretty m.2) ++ ['\n']

/-- The path of a header. -/
def path (keys : List String) : List Char :=
  List.intercalate ['.'] (keys.map fun k => quoteKey k.toList)

mutual

/-- The sections for the members of the table at `keys` that get headers. -/
def sections (pretty : Bool) (keys : List String) : List (String × Value) → List (List Char)
  | [] => []
  | (k, v) :: rest => memberSections pretty (keys ++ [k]) v ++ sections pretty keys rest

/-- The sections for the member at `keys`. The header of a table that holds nothing but tables is
left out. -/
def memberSections (pretty : Bool) (keys : List String) : Value → List (List Char)
  | .obj members =>
    let lines := body pretty members
    let own :=
      if lines = [] ∧ members ≠ [] then []
      else ['[' :: (path keys ++ ']' :: '\n' :: lines)]
    own ++ sections pretty keys members
  | .arr items => if hasHeader (.arr items) then itemSections pretty keys items else []
  | _ => []

/-- The sections for the tables of the array at `keys`. -/
def itemSections (pretty : Bool) (keys : List String) : List Value → List (List Char)
  | [] => []
  | .obj members :: rest =>
    ("[[".toList ++ path keys ++ "]]\n".toList ++ body pretty members)
      :: sections pretty keys members ++ itemSections pretty keys rest
  | _ :: rest => itemSections pretty keys rest

end

/-- The text of a document, which must be a table that TOML can hold; a line is left empty between
sections. -/
def write? (pretty : Bool) : Value → Option (List Char)
  | .obj members =>
    if isWritableMembers members then
      let lines := body pretty members
      let parts := (if lines = [] then [] else [lines]) ++ sections pretty [] members
      some (List.intercalate ['\n'] parts)
    else none
  | _ => none

end Stencil.Toml
