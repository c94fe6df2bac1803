import Stencil.Template.Render

/-!
# The placeholders of a tree

Every placeholder in the texts of a tree, in document order, with the place of its text.

## Main definitions

* `Stencil.Inspect.Leaf`, `Stencil.Inspect.leaves` — the texts of a tree and their places.
* `Stencil.Inspect.Entry`, `Stencil.Inspect.entries` — the placeholders in them.
-/

set_option autoImplicit false

namespace Stencil.Inspect

/-- A text of a tree. -/
structure Leaf where
  /-- The keys and positions that lead to it, with dots between them; empty for the root. -/
  location : List Char
  text : List Char
deriving DecidableEq, Inhabited

/-- The place of a child: a dot and its key or position behind the place of its parent, unless that
is empty. -/
def childLocation (parent child : List Char) : List Char :=
  if parent = [] then child else parent ++ '.' :: child

mutual

/-- The texts of a tree in document order. -/
def leaves (location : List Char) : Value → List Leaf
  | .str s => [⟨location, s.toList⟩]
  | .arr items => leavesItems location 0 items
  | .obj members => leavesMembers location members
  | .null | .bool _ | .num _ => []

/-- The texts of items, the first of which is at position `i`. -/
def leavesItems (location : List Char) (i : Nat) : List Value → List Leaf
  | [] => []
  | v :: rest =>
    leaves (childLocation location (Nat.toDigits 10 i)) v ++ leavesItems location (i + 1) rest

/-- The texts of members. -/
def leavesMembers (location : List Char) : List (String × Value) → List Leaf
  | [] => []
  | (k, v) :: rest =>
    leaves (childLocation location k.toList) v ++ leavesMembers location rest

end

/-- A placeholder in a text of a tree. -/
structure Entry where
  location : List Char
  /-- The placeholder as it is written, with its braces. -/
  text : List Char
  placeholder : Placeholder
deriving DecidableEq, Inhabited

/-- The placeholder with the given body in a text. -/
def entry (leaf : Leaf) (body : List Char) : Except RenderError Entry := do
  return ⟨leaf.location, Template.wrap body, ← Placeholder.parse body⟩

/-- The placeholders of a tree in document order. The first one that cannot be read is the error of
the whole. -/
def entries (node : Value) : Except RenderError (List Entry) :=
  ((leaves [] node).flatMap fun leaf =>
    (Template.segments leaf.text).bodies.map fun body => (leaf, body)).mapM
      fun (leaf, body) => entry leaf body

end Stencil.Inspect
