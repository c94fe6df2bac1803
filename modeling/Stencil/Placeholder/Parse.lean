import Stencil.Placeholder.Basic

/-!
# Reading placeholders

The body of a placeholder is cut at its first `?:` into alternatives and a fallback, and the
alternatives at every bar. In each part, tags begin at the first colon that a word follows.

## Main definitions

* `Stencil.Placeholder.splitTags` — a part without its tags, and the names of the tags.
* `Stencil.Clause.parse`, `Stencil.Fallback.parse` — one part.
* `Stencil.Placeholder.parse` — a whole body.
-/

set_option autoImplicit false

namespace Stencil

/-- A character of a tag's name: an ASCII letter or digit, an underscore or a hyphen. -/
def Tag.isWordChar (c : Char) : Bool := c.isAlphanum || c == '_' || c == '-'

/-- A text that may be the name of a tag. -/
def Tag.isWord (s : List Char) : Bool := !s.isEmpty && s.all Tag.isWordChar

namespace Placeholder

/-- The text in front of the first colon that a word follows, blanks aside, and the names between
the colons from there on, empty ones left out. -/
def splitTags (text : List Char) : List Char × List (List Char) :=
  match text.splitOn ':' with
  | [] => (text, [])
  | first :: rest =>
    let isPath (piece : List Char) : Bool := !Tag.isWord (Text.trim piece)
    (List.intercalate [':'] (first :: rest.takeWhile isPath),
      ((rest.dropWhile isPath).map Text.trim).filter (· ≠ []))

/-- The tag with this name. -/
def parseTag (name : List Char) : Except RenderError Tag :=
  match Tag.ofName? (String.ofList name) with
  | some t => .ok t
  | none => .error (.unknownTag (String.ofList name))

/-- The tags with these names; the first name that is none of a tag is refused. -/
def parseTags (names : List (List Char)) : Except RenderError (List Tag) := names.mapM parseTag

end Placeholder

/-- The alternative that a text writes. -/
def Clause.parse (text : List Char) : Except RenderError Clause := do
  let (path, names) := Placeholder.splitTags text
  return ⟨String.ofList (Text.trim path), ← Placeholder.parseTags names⟩

/-- The fallback that a text writes. All its tags must exist, and the first one counts. -/
def Fallback.parse (text : List Char) : Except RenderError Fallback := do
  let (literal, names) := Placeholder.splitTags text
  let tags ← Placeholder.parseTags names
  return ⟨String.ofList literal, tags.head?⟩

namespace Placeholder

/-- The text of the alternatives and that of the fallback. -/
def splitFallback (body : List Char) : List Char × Option (List Char) :=
  match Text.cut? ['?', ':'] body with
  | some (clauses, fallback) => (clauses, some fallback)
  | none => (body, none)

/-- The placeholder that a body writes. The fallback is read before the alternatives. -/
def parse (body : List Char) : Except RenderError Placeholder := do
  let (clauses, fallback) := splitFallback body
  let fallback ← fallback.mapM Fallback.parse
  let clauses ← (clauses.splitOn '|').mapM Clause.parse
  return ⟨clauses, fallback⟩

end Placeholder

end Stencil
