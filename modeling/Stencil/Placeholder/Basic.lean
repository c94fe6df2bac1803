import Stencil.Cast
import Stencil.Options
import Stencil.Path

/-!
# Placeholders

A placeholder lists alternatives, each a path with tags, and may end in a fallback text. Against a
context it has an outcome: the first alternative that resolves, else the fallback, else what its
modifiers say.

## Main definitions

* `Stencil.Clause` — an alternative.
* `Stencil.Fallback` — the text that stands in when no alternative resolves.
* `Stencil.Placeholder` — alternatives and a fallback.
* `Stencil.Placeholder.resolve?` — the value of the first alternative that resolves.
* `Stencil.Placeholder.outcome?` — the value that the placeholder stands for; none is undefined.
* `Stencil.Placeholder.check` — refuses tags that the options do not allow.
-/

set_option autoImplicit false

namespace Stencil

/-- An alternative of a placeholder. -/
structure Clause where
  /-- The path to the value, without blanks around it. -/
  path : String
  /-- The tags in the order in which they are written. -/
  tags : List Tag
deriving DecidableEq, Inhabited

/-- The text that stands in when no alternative resolves. -/
structure Fallback where
  /-- The text as it is written, blanks included. -/
  literal : String
  /-- The first tag that is written behind it. -/
  tag : Option Tag
deriving DecidableEq, Inhabited

/-- Alternatives, and the text that stands in for them. -/
structure Placeholder where
  clauses : List Clause
  fallback : Option Fallback
deriving DecidableEq, Inhabited

namespace Clause

/-- The tag that casts the value: the first one, or `str`. -/
def castTag (c : Clause) : Tag := c.tags.headD .str

/-- The value of an alternative in a context. A path that leads nowhere has none, and neither has
an empty text where empty texts are ignored. -/
def resolve? (c : Clause) (context : Value) (ignoreEmpty : Bool) (mode : Mode) : Option Value :=
  match context.get? c.path with
  | none => none
  | some v => if ignoreEmpty ∧ v = .str "" then none else some (v.cast mode c.castTag)

end Clause

namespace Fallback

/-- The tag that casts the text: its own, or `str`. -/
def castTag (f : Fallback) : Tag := f.tag.getD .str

/-- The value of the fallback. -/
def value (f : Fallback) (mode : Mode) : Value := (Value.str f.literal).cast mode f.castTag

end Fallback

namespace Placeholder

/-- All tags of a placeholder: those of the alternatives in order, then that of the fallback. -/
def tags (p : Placeholder) : List Tag :=
  p.clauses.flatMap Clause.tags ++ (p.fallback.bind Fallback.tag).toList

/-- Some alternative has the tag. -/
def hasTag (p : Placeholder) (tag : Tag) : Bool := p.clauses.any fun c => c.tags.contains tag

/-- Null stands in when nothing resolves. -/
def allowsNull (p : Placeholder) : Bool := p.hasTag .null

/-- Undefined stands in when nothing resolves. -/
def allowsUndefined (p : Placeholder) : Bool := p.hasTag .undefined

/-- Empty texts count as missing, for every alternative. -/
def ignoresEmptyStr (p : Placeholder) : Bool := p.hasTag .ignoreEmptyStr

/-- The value of the first alternative that resolves. -/
def resolve? (p : Placeholder) (context : Value) (mode : Mode) : Option Value :=
  p.clauses.findSome? fun c => c.resolve? context p.ignoresEmptyStr mode

/-- The value that a placeholder written as `text` stands for; none is undefined. Alternatives come
first, then the fallback, then undefined or null where a modifier allows it; else the written text
stays. -/
def outcome? (p : Placeholder) (text : List Char) (context : Value) (mode : Mode) :
    Option Value :=
  match p.resolve? context mode with
  | some v => some v
  | none =>
    match p.fallback with
    | some f => some (f.value mode)
    | none =>
      if p.allowsUndefined then none
      else if p.allowsNull then some .null
      else some (.str (String.ofList text))

/-- Refuses the first tag that the options do not allow. -/
def check (p : Placeholder) (options : Options) : Except RenderError Unit :=
  match p.tags.find? fun t => !options.allows t with
  | some t => .error (.disallowedTag t)
  | none => .ok ()

end Placeholder

end Stencil
