import Stencil.Tree.Directives
import Stencil.Tree.Substitute

/-!
# Rendering a tree

A tree is rendered in two passes: every text is rendered, then the merge directives are applied.

## Main definitions

* `Stencil.Tree.replace` — a text, array or object with its placeholders replaced.
-/

set_option autoImplicit false

namespace Stencil.Tree

/-- A text, array or object with its placeholders replaced and its merge directives applied. An
undefined text is null; any other kind of value is refused. -/
def replace (context : Value) (options : Options) (node : Value) : Except RenderError Value :=
  match node with
  | .str s => do
    return (← Template.render context options s.toList).getD .null
  | .arr _ | .obj _ => do
    let levels := options.maxDepth + 1
    let visit ← substitute context options levels node
    return ((visit.member?.bind (applyMerges? options levels))).getD .null
  | _ => .error (.unrenderable node.kind)

end Stencil.Tree
