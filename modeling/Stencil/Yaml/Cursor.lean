import Stencil.Yaml.Character

/-!
# Places in a YAML document

What is left of a document, and the place at which it starts. Columns decide what belongs together,
and a key must stand on one line.

## Main definitions

* `Stencil.Yaml.Place` — a column, a line, and the number of characters in front.
* `Stencil.Yaml.Cursor` — what is left of a document, and its place.
* `Stencil.Yaml.Scan` — a step that moves the cursor or fails.
-/

set_option autoImplicit false

namespace Stencil.Yaml

/-- A place in a document. -/
structure Place where
  column : Nat := 0
  line : Nat := 0
  /-- The number of characters in front. -/
  index : Nat := 0
deriving DecidableEq, Inhabited

/-- The place behind a character. -/
def Place.past (place : Place) (c : Char) : Place :=
  if isBreak c then ⟨0, place.line + 1, place.index + 1⟩
  else ⟨place.column + 1, place.line, place.index + 1⟩

/-- What is left of a document, and the place at which it starts. -/
structure Cursor where
  rest : List Char
  place : Place := {}
deriving DecidableEq, Inhabited

namespace Cursor

/-- The cursor behind the next `n` characters. -/
def drop : Nat → Cursor → Cursor
  | n + 1, ⟨c :: r, place⟩ => drop n ⟨r, place.past c⟩
  | _, cursor => cursor

/-- The mark of a line that starts or ends a document is here. -/
def isAtMarker (cursor : Cursor) : Bool :=
  cursor.place.column == 0 && Yaml.isAtMarker cursor.rest

end Cursor

/-- A step that moves the cursor or fails. -/
abbrev Scan := StateT Cursor Option

namespace Scan

/-- What is left of the document. -/
def rest : Scan (List Char) := return (← get).rest

/-- The next character. -/
def peek : Scan (Option Char) := return (← get).rest.head?

/-- Moves past `n` characters. -/
def drop (n : Nat) : Scan Unit := modify (·.drop n)

/-- Moves past the characters that satisfy `p`, which are the answer. -/
def takeWhile (p : Char → Bool) : Scan (List Char) := do
  let s := (← rest).takeWhile p
  drop s.length
  return s

/-- Moves on to `rest`, which is an end of what is left. -/
def moveTo (rest : List Char) : Scan Unit :=
  modify fun cursor => cursor.drop (cursor.rest.length - rest.length)

/-- Fails unless `b`. -/
def check (b : Bool) : Scan Unit := if b then pure () else failure

/-- Moves past the next character, which must be `c`. -/
def expect (c : Char) : Scan Unit := do
  check ((← peek) == some c)
  drop 1

/-- Moves past spaces and tabs. -/
def blanks : Scan Unit := do
  let _ ← takeWhile isBlank

/-- Moves past blanks and a comment to the end of the line, where nothing else may stand. -/
def lineEnd : Scan Unit := do
  blanks
  if (← peek) = some '#' then
    let _ ← takeWhile fun c => !isBreak c
  check (isAtBreak (← rest))

end Scan

end Stencil.Yaml
