import Stencil.Placeholder.Parse
import Stencil.Template.Segments

/-!
# Rendering one template

A template that is one placeholder renders to its outcome as it is. Any other placeholder is
replaced in the text by the text of its outcome.

## Main definitions

* `Stencil.Template.prepare` — the placeholder of a body, if the options allow it.
* `Stencil.Template.fill` — puts the outcome of one placeholder into the text.
* `Stencil.Template.render` — the value of a template; none is undefined.
-/

set_option autoImplicit false

namespace Stencil.Template

/-- The placeholder that a body writes, its tags checked against the options. -/
def prepare (options : Options) (body : List Char) : Except RenderError Placeholder := do
  let p ← Placeholder.parse body
  p.check options
  return p

/-- The text of an outcome inside a text; undefined is empty. -/
def insertion (outcome : Option Value) : List Char := (outcome.map Value.display).getD []

/-- The text after the first place where a body is written has been replaced by its outcome. -/
def fill (context : Value) (options : Options) (text body : List Char) :
    Except RenderError (List Char) := do
  let p ← prepare options body
  return Text.replaceFirst (wrap body) (insertion (p.outcome? (wrap body) context .embedded)) text

/-- The value of a template in a context; none is undefined. -/
def render (context : Value) (options : Options) (template : List Char) :
    Except RenderError (Option Value) := do
  let parts := segments template
  match parts.whole? with
  | some body =>
    let p ← prepare options body
    return p.outcome? (wrap body) context .whole
  | none =>
    let text ← parts.bodies.foldlM (fill context options) template
    return some (.str (String.ofList text))

end Stencil.Template
