import Stencil.Template.Render

/-!
# Substitution in a tree

Every text of a tree is rendered. An undefined outcome is null among the items of an array and no
member at all in an object; what lies below the depth limit is dropped.

## Main definitions

* `Stencil.Tree.Visit` — what becomes of a node.
* `Stencil.Tree.substitute` — a tree with every text rendered.
-/

set_option autoImplicit false

namespace Stencil.Tree

/-- What becomes of a node. -/
inductive Visit where
  | value (v : Value)
  /-- A text that is one placeholder was undefined. -/
  | undefined
  /-- The node lies below the depth limit. -/
  | excised

namespace Visit

/-- What is left of a text that rendered to an outcome. -/
def ofOutcome : Option Value → Visit
  | some v => .value v
  | none => .undefined

/-- What is left of an item. -/
def item? : Visit → Option Value
  | .value v => some v
  | .undefined => some .null
  | .excised => none

/-- What is left of the value of a member. -/
def member? : Visit → Option Value
  | .value v => some v
  | .undefined | .excised => none

end Visit

/-- A tree with every text rendered, when `levels` levels are left for it. -/
def substitute (context : Value) (options : Options) :
    (levels : Nat) → Value → Except RenderError Visit
  | 0, _ => .ok .excised
  | _ + 1, .str s => do
    return .ofOutcome (← Template.render context options s.toList)
  | levels + 1, .arr items => do
    let visits ← items.mapM (substitute context options levels)
    return .value (.arr (visits.filterMap Visit.item?))
  | levels + 1, .obj members => do
    let visits ← members.mapM fun (key, v) => do
      return (key, ← substitute context options levels v)
    return .value (.obj (visits.filterMap fun (key, visit) =>
      visit.member?.map fun v => (key, v)))
  | _ + 1, v => .ok (.value v)

end Stencil.Tree
