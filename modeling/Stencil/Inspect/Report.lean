import Stencil.Inspect.Entry

/-!
# Reports on the placeholders of a tree

## Main definitions

* `Stencil.Emphasis`, `Stencil.Paint` — how texts stand out on a terminal.
* `Stencil.Inspect.debugQuote` — a text in quotes in which every blank but the space shows.
* `Stencil.Inspect.report` — the report as lines of text.
* `Stencil.Inspect.reportValue` — the report as a value.
-/

set_option autoImplicit false

namespace Stencil

/-- How a text stands out on a terminal. -/
inductive Emphasis where
  | bold
  | dimmed
  | cyan
  /-- Bold and red. -/
  | alarm
deriving DecidableEq, Inhabited

/-- What makes a text stand out; where nothing can stand out, it leaves the text as it is. -/
abbrev Paint := Emphasis → List Char → List Char

namespace Inspect

/-! ## Lines of text -/

/-- How a character shows between quotes. -/
def debugEscape (c : Char) : List Char :=
  match c with
  | '"' => ['\\', '"']
  | '\\' => ['\\', '\\']
  | '\t' => ['\\', 't']
  | '\n' => ['\\', 'n']
  | '\r' => ['\\', 'r']
  | ' ' => [' ']
  | c =>
    if Text.isBlank c then '\\' :: 'u' :: '\x7b' :: (Nat.toDigits 16 c.toNat ++ ['\x7d'])
    else [c]

/-- A text in quotes in which every blank but the space shows. -/
def debugQuote (s : String) : List Char := '"' :: (s.toList.flatMap debugEscape ++ ['"'])

/-- The names of tags, each behind a colon. -/
def tagList (tags : List Tag) : List Char := tags.flatMap fun t => ':' :: t.name.toList

section

variable (paint : Paint)

/-- The line of an alternative. -/
def clauseLine (c : Clause) : List Char :=
  let tags := if c.tags = [] then [] else ' ' :: tagList c.tags
  "    ".toList ++ paint .dimmed "path".toList ++ ' ' :: c.path.toList ++ tags ++ ['\n']

/-- The line of a fallback. -/
def fallbackLine (f : Fallback) : List Char :=
  "    ".toList ++ paint .dimmed "default".toList ++ ' ' :: debugQuote f.literal
    ++ ' ' :: tagList [f.castTag] ++ ['\n']

/-- The lines of an entry: its place and text, its alternatives, and its fallback. -/
def entryLines (e : Entry) : List Char :=
  let location := if e.location = [] then "(root)".toList else e.location
  paint .cyan location ++ ' ' :: paint .bold e.text
    ++ '\n' :: e.placeholder.clauses.flatMap (clauseLine paint)
    ++ (e.placeholder.fallback.map (fallbackLine paint)).getD []

/-- The report as lines of text. -/
def report (entries : List Entry) : List Char :=
  if entries = [] then "No placeholders found.\n".toList else entries.flatMap (entryLines paint)

end

/-! ## Values -/

/-- The name of a tag as a value. -/
def tagValue (t : Tag) : Value := .str t.name

/-- An alternative as a value. -/
def clauseValue (c : Clause) : Value :=
  .obj [("path", .str c.path), ("tags", .arr (c.tags.map tagValue))]

/-- A fallback as a value. -/
def fallbackValue (f : Fallback) : Value :=
  .obj [("literal", .str f.literal), ("tag", (f.tag.map tagValue).getD .null)]

/-- An entry as a value. -/
def entryValue (e : Entry) : Value :=
  .obj [("location", .str (String.ofList e.location)), ("text", .str (String.ofList e.text)),
    ("placeholder", .obj [("clauses", .arr (e.placeholder.clauses.map clauseValue)),
      ("default", (e.placeholder.fallback.map fallbackValue).getD .null)])]

/-- The report as a value. -/
def reportValue (entries : List Entry) : Value := .arr (entries.map entryValue)

end Inspect

end Stencil
