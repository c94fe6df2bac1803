import Stencil.Document.Format
import Stencil.Error
import Stencil.Json.Reader
import Stencil.Json.Writer
import Stencil.Toml.Reader
import Stencil.Toml.Writer
import Stencil.Yaml.Reader
import Stencil.Yaml.Writer

/-!
# Documents in a format

## Main definitions

* `Stencil.DocumentError` — why a document cannot be read or written.
* `Stencil.Format.parse` — the value of a document.
* `Stencil.Format.render` — the document of a value.
-/

set_option autoImplicit false

namespace Stencil

/-- Why a document cannot be read or written. -/
inductive DocumentError where
  /-- The text is no document of the format. -/
  | unreadable (format : Format) {account : Account}
  /-- The format cannot hold the value. -/
  | unwritable (format : Format) {account : Account}
deriving DecidableEq, Inhabited

namespace DocumentError

/-- What kind of failure it is. -/
def kind : DocumentError → String
  | .unreadable .json | .unwritable .json => "JSON error"
  | .unreadable .yaml | .unwritable .yaml => "YAML error"
  | .unreadable .toml => "TOML parse error"
  | .unwritable .toml => "TOML output error"

/-- What the reader or the writer says about it. -/
def account : DocumentError → Account
  | @unreadable _ account | @unwritable _ account => account

/-- The text of a failure to read or write a document. -/
def message (e : DocumentError) : String := e.account.under e.kind

end DocumentError

namespace Format

/-- The reader of a format. -/
def read? : Format → List Char → Option Value
  | json => Json.read?
  | yaml => Yaml.read?
  | toml => Toml.read?

/-- The writer of a format. Only JSON and TOML have an indented form. -/
def write? (pretty : Bool) : Format → Value → Option (List Char)
  | json, v => some (if pretty then Json.pretty v else Json.compact v)
  | yaml, v => some (Yaml.write v)
  | toml, v => Toml.write? pretty v

/-- The value of a document. -/
def parse (format : Format) (content : List Char) : Except DocumentError Value :=
  match format.read? content with
  | some v => .ok v
  | none => .error (@DocumentError.unreadable format none)

/-- The document of a value. -/
def render (format : Format) (pretty : Bool) (v : Value) : Except DocumentError (List Char) :=
  match format.write? pretty v with
  | some s => .ok s
  | none => .error (@DocumentError.unwritable format none)

end Format

end Stencil
