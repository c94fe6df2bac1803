import Stencil.Options
import Stencil.Toml.Reader

/-!
# Options in a TOML document

## Main definitions

* `Stencil.Options.ofValue?` — the options that a table holds.
* `Stencil.Options.read` — the options of a TOML document, as they are.
* `Stencil.Options.ofToml` — the options of a TOML document, validated.
-/

set_option autoImplicit false

namespace Stencil.Options

/-- The name that a value chooses: a text, or a table whose only member is empty. -/
def choice? : Value → Option String
  | .str s => some s
  | .obj [(name, .arr [])] | .obj [(name, .obj [])] => some name
  | _ => none

/-- The array policy with this name. -/
def policy? : String → Option ArrayPolicy
  | "concat" => some .concat
  | "replace" => some .replace
  | _ => none

/-- What `read` makes of the member with this key, or the default when there is no such member. -/
def member? {α : Type} (members : Members) (key : String) (missing : α)
    (read : Value → Option α) : Option α :=
  match Members.get? members key with
  | some v => read v
  | none => some missing

/-- A text. -/
def text? : Value → Option String
  | .str s => some s
  | _ => none

/-- A whole number that is not negative. -/
def count? : Value → Option Nat
  | .num (.int n) => if n < 0 then none else some n.toNat
  | _ => none

/-- A list of names of tags. -/
def tags? : Value → Option (Option (List Tag))
  | .arr items => (items.mapM fun v => (choice? v).bind Tag.ofName?).map some
  | _ => none

/-- The options that a table holds: members that are missing have their defaults, and members that
are no options are passed over. -/
def ofValue? : Value → Option Options
  | .obj members => do
    let defaults : Options := {}
    return {
      mergeKey := ← member? members "merge_key" defaults.mergeKey text?
      maxDepth := ← member? members "max_depth" defaults.maxDepth count?
      arrays := ← member? members "array_merge" defaults.arrays fun v => (choice? v).bind policy?
      allowedTags := ← member? members "allowed_types" defaults.allowedTags tags? }
  | _ => none

/-- The options of a TOML document, as they are. -/
def read (content : List Char) : Except Account Options :=
  ((Toml.read? content).bind ofValue?).elim (.error none) .ok

/-- The options of a TOML document, validated. -/
def ofToml (content : List Char) : Except OptionsError Options := parse read content

end Stencil.Options
