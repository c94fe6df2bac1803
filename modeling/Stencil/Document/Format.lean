import Stencil.Text.Basic

/-!
# Document formats

The format of a document is taken from the extension of its file name, or else guessed from its
beginning.

## Main definitions

* `Stencil.Format` — the three formats.
* `Stencil.Format.ofExtension?`, `Stencil.Format.sniff` — the format of an extension, and the guess
  from a text.
* `Stencil.Format.fileName?`, `Stencil.Format.extension?` — the parts of a path.
* `Stencil.Format.detect` — the format of a file.
-/

set_option autoImplicit false

namespace Stencil

/-- A document format. -/
inductive Format where
  | json
  | yaml
  | toml
deriving DecidableEq, Inhabited

namespace Format

/-- The name of a format. -/
def name : Format → String
  | json => "json"
  | yaml => "yaml"
  | toml => "toml"

/-- All formats. -/
def all : List Format := [json, yaml, toml]

/-- The format with this name. -/
def ofName? (s : String) : Option Format := all.find? fun f => f.name = s

/-- The format that an extension stands for, in upper or lower case. -/
def ofExtension? (extension : List Char) : Option Format :=
  let s := String.ofList (extension.map Char.toLower)
  if s = "yml" then some yaml else ofName? s

/-- An assignment as TOML writes it: an equals sign between spaces. -/
def assignment : List Char := [' ', '=', ' ']

/-- The format that a text looks like. A brace or a quote begins JSON; a bracket begins TOML if an
assignment follows anywhere, else JSON; a first line that is no comment and has an assignment
begins TOML; all else is YAML. -/
def sniff (content : List Char) : Format :=
  let s := Text.trimStart content
  match s with
  | '\x7b' :: _ | '"' :: _ => json
  | '[' :: _ => if Text.contains assignment s then toml else json
  | '#' :: _ => yaml
  | _ => if Text.contains assignment (s.takeWhile (· ≠ '\n')) then toml else yaml

/-! ## File names -/

/-- The last part of a path: slashes at the end and parts that are a single dot are passed over.
There is none when the path is empty or ends in two dots. -/
def fileName? (path : List Char) : Option (List Char) :=
  match ((path.splitOn '/').filter fun part => part ≠ [] ∧ part ≠ ['.']).getLast? with
  | some ['.', '.'] | none => none
  | some part => some part

/-- What follows the last dot of a file name, when that dot is not the first character. -/
def extension? (name : List Char) : Option (List Char) :=
  match name.reverse.span (· ≠ '.') with
  | (_, []) | (_, [_]) => none
  | (reversed, _) => some reversed.reverse

/-- The format of a file: that of its extension, else the one its content looks like. -/
def detect (path content : List Char) : Format :=
  (((fileName? path).bind extension?).bind ofExtension?).getD (sniff content)

end Format

end Stencil
