import Stencil.Cli.Arguments
import Stencil.Document.Codec
import Stencil.Inspect.Report
import Stencil.Toml.Settings

/-!
# What a command is given

Documents are read and written, texts made to stand out, and the work logged by functions that a
command is given. What a command does with them is the same for all of them.

## Main definitions

* `Stencil.Cli.Libraries` — the functions that a command is given.
* `Stencil.Cli.Libraries.own` — the readers and writers of this library, plain texts, and no log.

## Main results

* `Stencil.Cli.Libraries.own_parse` — documents are read by the readers of this library.
-/

set_option autoImplicit false

namespace Stencil.Cli

/-- The functions that a command is given. A reader or a writer that fails may say why. -/
structure Libraries where
  /-- The value of a document. -/
  parse : Format → List Char → Except Account Value
  /-- The document of a value, indented where the format has an indented form and it is wanted. -/
  render : Format → Bool → Value → Except Account (List Char)
  /-- The options of a TOML document, as they are. -/
  options : List Char → Except Account Options
  /-- What makes a text stand out. -/
  paint : Paint
  /-- What is logged while a command runs. -/
  log : Command → List Char
  /-- Every value can be written as JSON. -/
  exists_render_json (pretty : Bool) (v : Value) : ∃ s, render .json pretty v = .ok s

namespace Libraries

/-- The readers and writers of this library, which do not say why they fail, plain texts, and no
log. -/
def own : Libraries where
  parse format content := (format.read? content).elim (.error none) .ok
  render format pretty v := (format.write? pretty v).elim (.error none) .ok
  options := Options.read
  paint _ s := s
  log _ := []
  exists_render_json _ _ := ⟨_, rfl⟩

/-- Documents are read by the readers of this library. -/
theorem own_parse (format : Format) (content : List Char) :
    (own.parse format content).mapError (@DocumentError.unreadable format)
      = format.parse content := by
  simp only [own, Format.parse]
  cases format.read? content <;> rfl

/-- What is logged while a command runs, when a log is wanted. -/
def logged (libraries : Libraries) (verbose : Bool) (command : Command) : List Char :=
  if verbose then libraries.log command else []

end Libraries

end Stencil.Cli
