import Stencil.Value.Basic

/-!
# Values among other text

The text that a value turns into when it is put into a text around it. Arrays are the texts of
their items with commas between them, an item that is null being empty, and objects have one fixed
text.

## Main definitions

* `Stencil.Value.display` — the text of a value among other text.
-/

set_option autoImplicit false

namespace Stencil.Value

mutual

/-- The text of a value among other text. -/
def display : Value → List Char
  | .null => "null".toList
  | .bool b => if b then "true".toList else "false".toList
  | .num n => n.plainText
  | .str s => s.toList
  | .arr items => List.intercalate [','] (displayItems items)
  | .obj _ => "[object Object]".toList

/-- The texts of the items of an array, empty for null. -/
def displayItems : List Value → List (List Char)
  | [] => []
  | .null :: rest => [] :: displayItems rest
  | v :: rest => display v :: displayItems rest

end

end Stencil.Value
