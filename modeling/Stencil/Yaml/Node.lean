import Stencil.Value.Object
import Stencil.Yaml.Scalar
import Stencil.Yaml.Token

/-!
# YAML nodes

The tree that a YAML document writes, before its scalars are given a meaning.

## Main definitions

* `Stencil.Yaml.Node` — a text, a sequence, a mapping, or a reference to another node.
* `Stencil.Yaml.Document` — a node and the nodes that it refers to.
* `Stencil.Yaml.Document.value?` — the value of a document.
-/

set_option autoImplicit false

namespace Stencil.Yaml

/-- A node of a YAML document. -/
inductive Node where
  /-- A text, by its form unless it is in quotes or the tag says otherwise. -/
  | text (tag : Option Tag) (plain : Bool) (s : List Char)
  | sequence (tag : Option Tag) (items : List Node)
  | mapping (tag : Option Tag) (members : List (Node × Node))
  /-- The node with a number. -/
  | alias (number : Nat)
deriving Inhabited

/-- A node without any text. -/
def Node.empty : Node := .text none true []

/-- A whole number that fits 64 bits. -/
def ofInt? (n : Int) : Option Value :=
  if fitsSigned n || fitsUnsigned n then some (.num (.int n)) else none

/-- The value of a text by its form. -/
def plainValue? (s : List Char) : Option Value :=
  match meaning s with
  | .null => some .null
  | .bool b => some (.bool b)
  | .int n => ofInt? n
  | .float x => some (Value.ofExtended x)
  | .text => some (.str (String.ofList s))

/-- The value of a text. A tag of the author is refused. -/
def textValue? (tag : Option Tag) (plain : Bool) (s : List Char) : Option Value :=
  match tag with
  | none => if plain then plainValue? s else some (.str (String.ofList s))
  | some .null => if isNull s && s ≠ [] then some .null else none
  | some .bool => (bool? s).map .bool
  | some .int => (int? s).bind ofInt?
  | some .float => (float? s).map Value.ofExtended
  | some .custom => none
  | some .other => some (.str (String.ofList s))

/-! ## Documents -/

/-- A node and the nodes that it refers to. -/
structure Document where
  root : Node
  /-- The nodes that have numbers. -/
  named : List (Nat × Node)
  /-- The number of texts and references, and of starts and ends of collections. -/
  size : Nat

/-- A step that may follow further references, of which the state is the number. -/
abbrev Visit := StateT Nat Option

namespace Document

/-- The node itself, or the one that it refers to. -/
def follow (d : Document) : Node → Visit Node
  | .alias number => do
    let left ← get
    if left = 0 then failure
    set (left - 1)
    d.named.lookup number
  | node => return node

/-- The text of a node that is a key; its tag does not matter. -/
def keyOf (d : Document) (node : Node) : Visit String := do
  match ← d.follow node with
  | .text _ _ s => return String.ofList s
  | _ => failure

/-- The value of a node from those of the nodes inside it, if it may have any. Keys are texts; a
repeated key keeps its first place and its last value. -/
def valueBy (d : Document) (inner : Option (Node → Visit Value)) (node : Node) : Visit Value := do
  match ← d.follow node, inner with
  | .text tag plain s, _ => textValue? tag plain s
  | .sequence tag items, some inner =>
    if tag = some .custom then failure
    return .arr (← items.mapM inner)
  | .mapping tag members, some inner =>
    if tag = some .custom then failure
    let pairs ← members.mapM fun (k, v) => do
      let key ← d.keyOf k
      return (key, ← inner v)
    return .obj (Members.ofList pairs)
  | _, _ => failure

/-- The value of a node in which at most `levels` collections are inside one another. -/
def valueOf (d : Document) : (levels : Nat) → Node → Visit Value
  | 0, node => d.valueBy none node
  | levels + 1, node => d.valueBy (some (d.valueOf levels)) node

/-- The greatest number of collections inside one another. -/
def maxNesting : Nat := 128

/-- The greatest number of references that are followed in a document. -/
def maxReferences (d : Document) : Nat := 100 * d.size

/-- The value of a document. -/
def value? (d : Document) : Option Value :=
  ((d.valueOf maxNesting d.root).run d.maxReferences).map (·.1)

end Document

end Stencil.Yaml
