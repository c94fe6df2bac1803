import Stencil.Tag
import Stencil.Value.Basic

/-!
# Causes of failure

Why a template cannot be rendered and why options are refused, with the texts that say so.

## Main definitions

* `Stencil.Account` — what a reader or a writer says about its own failure.
* `Stencil.RenderError` — why a template cannot be rendered.
* `Stencil.OptionsError` — why options are refused.
-/

set_option autoImplicit false

namespace Stencil

/-- What a reader or a writer says about its own failure, if it says anything. -/
abbrev Account := Option String

/-- The text of a failure of this kind, with the account of it behind a colon. -/
def Account.under (kind : String) : Account → String
  | none => kind
  | some reason => kind ++ ": " ++ reason

/-- Why a template cannot be rendered. -/
inductive RenderError where
  /-- A placeholder has a tag that does not exist. -/
  | unknownTag (name : String)
  /-- A placeholder has a tag that the options do not allow. -/
  | disallowedTag (tag : Tag)
  /-- The template is a value of a kind that has no placeholders. -/
  | unrenderable (kind : Value.Kind)
deriving DecidableEq, Inhabited

/-- The text of a failure to render. -/
def RenderError.message : RenderError → String
  | .unknownTag name => "Unsupported type: " ++ name
  | .disallowedTag tag => "Type not allowed: " ++ tag.name
  | .unrenderable kind =>
    "Invalid type: expected a string, array, or object, got " ++ kind.name

/-- Why options are refused. -/
inductive OptionsError where
  /-- The document cannot be read, or a member has the wrong type. -/
  | malformed {account : Account}
  | emptyMergeKey
  | zeroDepth
deriving DecidableEq, Inhabited

/-- The text of a refusal of options. -/
def OptionsError.message : OptionsError → String
  | @malformed account => account.under "Failed to parse configuration"
  | .emptyMergeKey => "Invalid configuration: merge_key must not be empty"
  | .zeroDepth => "Invalid configuration: max_depth must be at least 1"

end Stencil
