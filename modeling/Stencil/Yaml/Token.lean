import Stencil.Yaml.Tag
import Stencil.Yaml.Text

/-!
# YAML tokens

The tokens of a YAML document. Columns become tokens that open and close blocks, and what turns out
to be a key, because a colon follows, gets the token of a key in front of it.

## Main definitions

* `Stencil.Yaml.Token` — a mark, a name, a tag or a text.
* `Stencil.Yaml.KeyStart` — a place where a key may have started.
* `Stencil.Yaml.Scanner` — the tokens found so far and what decides about the next ones.
* `Stencil.Yaml.tokens?` — the tokens of a document.

## Implementation notes

`Stencil.Yaml.tokensFrom?` counts down from more than the number of characters. Each step takes at
least one of them, so the steps never run out before the characters do.
-/

set_option autoImplicit false

namespace Stencil.Yaml

/-- A token of a YAML document. -/
inductive Token where
  | version (major minor : Nat)
  | handle (h : Handle)
  | documentStart
  | documentEnd
  | blockSequence
  | blockMapping
  /-- The end of a sequence or mapping in block style. -/
  | blockEnd
  | flowSequence
  | flowSequenceEnd
  | flowMapping
  | flowMappingEnd
  /-- The hyphen in front of an item. -/
  | item
  | comma
  | key
  | value
  | anchor (name : List Char)
  | alias (name : List Char)
  | tag (t : TagText)
  | text (plain : Bool) (s : List Char)
deriving DecidableEq, Inhabited

/-- A place where a key may have started. -/
structure KeyStart where
  place : Place
  /-- The number of tokens in front. -/
  position : Nat
  /-- What starts here can only be a key. -/
  required : Bool
deriving DecidableEq

/-- A key stands on one line and has at most 1024 characters. -/
def KeyStart.isOver (k : KeyStart) (place : Place) : Bool :=
  k.place.line < place.line || k.place.index + 1024 < place.index

/-- The tokens found so far and what decides about the next ones. -/
structure Scanner where
  cursor : Cursor
  /-- The tokens in reverse order. -/
  found : List Token := []
  /-- Their number. -/
  count : Nat := 0
  /-- The columns of the open blocks, the innermost first. -/
  columns : List Nat := []
  /-- A key may start here. -/
  keyAllowed : Bool := true
  /-- Where the latest key inside the innermost brackets may have started. -/
  keyStart : Option KeyStart := none
  /-- The same for the brackets around them and for the blocks outside. -/
  outer : List (Option KeyStart) := []

namespace Scanner

/-- The cursor is between brackets. -/
def inFlow (s : Scanner) : Bool := !s.outer.isEmpty

/-- The scanner with a further token. -/
def emit (t : Token) (s : Scanner) : Scanner :=
  { s with found := t :: s.found, count := s.count + 1 }

/-- The scanner with a further token behind the first `position` ones. -/
def insert (position : Nat) (t : Token) (s : Scanner) : Scanner :=
  { s with found := s.found.insertIdx (s.count - position) t, count := s.count + 1 }

/-- The scanner behind the next `n` characters. -/
def drop (n : Nat) (s : Scanner) : Scanner := { s with cursor := s.cursor.drop n }

/-- The token that `scan` reads, and the scanner behind it. -/
def read (scan : Scan Token) (s : Scanner) : Option Scanner := do
  let (t, cursor) ← scan.run s.cursor
  return { s with cursor := cursor }.emit t

/-! ## Keys -/

/-- Forgets where a key may have started, which must not be needed. -/
def forgetKey (s : Scanner) : Option Scanner :=
  if s.keyStart.any (·.required) then none else some { s with keyStart := none }

/-- Remembers that a key may start here. In block style, what starts at the column of the innermost
block can only be a key. -/
def noteKey (s : Scanner) : Option Scanner :=
  if s.keyAllowed then do
    let s ← s.forgetKey
    let place := s.cursor.place
    let required := !s.inFlow && s.columns.head? == some place.column
    return { s with keyStart := some ⟨place, s.count, required⟩ }
  else some s

/-- What is left of a place where a key may have started once the cursor is at `place`. -/
def keep? (place : Place) : Option KeyStart → Option (Option KeyStart)
  | none => some none
  | some k =>
    if k.isOver place then (if k.required then none else some none) else some (some k)

/-- Forgets the places where a key can no longer have started. -/
def dropOver (s : Scanner) : Option Scanner := do
  let keyStart ← keep? s.cursor.place s.keyStart
  let outer ← s.outer.mapM (keep? s.cursor.place)
  return { s with keyStart := keyStart, outer := outer }

/-! ## Blocks -/

/-- Closes the innermost blocks whose columns satisfy `p`; between brackets there are none. -/
def closeBlocks (p : Nat → Bool) (s : Scanner) : Scanner :=
  if s.inFlow then s
  else
    let ends := (s.columns.takeWhile p).map fun _ => Token.blockEnd
    { s with
      found := ends ++ s.found, count := s.count + ends.length
      columns := s.columns.dropWhile p }

/-- Opens a block at a column, with its token behind the first `position` ones, unless it is open
already. -/
def openBlock (column position : Nat) (t : Token) (s : Scanner) : Scanner :=
  if !s.inFlow && s.columns.head?.all (· < column) then
    { s with columns := column :: s.columns }.insert position t
  else s

/-! ## Between tokens -/

/-- Moves past blanks, comments, line breaks and the mark of the order of bytes. In block style a
tab is no blank where a key may start, and a key may start on a new line. -/
def skipFrom (flow keyAllowed comment : Bool) (place : Place) : List Char → Cursor × Bool
  | [] => (⟨[], place⟩, keyAllowed)
  | c :: r =>
    let next := place.past c
    if isBreak c then skipFrom flow (keyAllowed || !flow) false next r
    else if comment then skipFrom flow keyAllowed true next r
    else if c = ' ' ∨ (c = '\t' ∧ (flow ∨ !keyAllowed)) ∨ (c = byteOrderMark ∧ place.column = 0)
    then skipFrom flow keyAllowed false next r
    else if c = '#' then skipFrom flow keyAllowed true next r
    else (⟨c :: r, place⟩, keyAllowed)

/-- Moves to the next token. -/
def skip (s : Scanner) : Scanner :=
  let (cursor, keyAllowed) :=
    skipFrom s.inFlow s.keyAllowed false s.cursor.place s.cursor.rest
  { s with cursor := cursor, keyAllowed := keyAllowed }

/-! ## Marks -/

/-- A mark at the start of a line, at which all blocks end. -/
def margin (scan : Scan Token) (s : Scanner) : Option Scanner := do
  let s ← (s.closeBlocks fun _ => true).forgetKey
  { s with keyAllowed := false }.read scan

/-- An opening bracket. -/
def openFlow (t : Token) (s : Scanner) : Option Scanner := do
  let s ← s.noteKey
  return { s with outer := s.keyStart :: s.outer, keyStart := none, keyAllowed := true }.emit t
    |>.drop 1

/-- A closing bracket, whether or not there is one to close. -/
def closeFlow (t : Token) (s : Scanner) : Option Scanner := do
  let s ← s.forgetKey
  let s := match s.outer with
    | [] => s
    | keyStart :: outer => { s with keyStart := keyStart, outer := outer }
  return { s with keyAllowed := false }.emit t |>.drop 1

/-- A comma. -/
def comma (s : Scanner) : Option Scanner := do
  let s ← s.forgetKey
  return { s with keyAllowed := true }.emit .comma |>.drop 1

/-- The scanner with a block at this column, which a key may start. -/
def enter (t : Token) (s : Scanner) : Option Scanner :=
  if s.inFlow then some s
  else if s.keyAllowed then some (s.openBlock s.cursor.place.column s.count t)
  else none

/-- The hyphen in front of an item. -/
def item (s : Scanner) : Option Scanner := do
  let s ← (← s.enter .blockSequence).forgetKey
  return { s with keyAllowed := true }.emit .item |>.drop 1

/-- The question mark in front of a key. -/
def key (s : Scanner) : Option Scanner := do
  let s ← (← s.enter .blockMapping).forgetKey
  return { s with keyAllowed := !s.inFlow }.emit .key |>.drop 1

/-- The colon in front of a value. Where a key may have started in front of it, one has. -/
def value (s : Scanner) : Option Scanner := do
  let s ← match s.keyStart with
    | some k =>
      let s := s.insert k.position .key |>.openBlock k.place.column k.position .blockMapping
      pure { s with keyStart := none, keyAllowed := false }
    | none =>
      let s ← s.enter .blockMapping
      pure { s with keyAllowed := !s.inFlow }
  return s.emit .value |>.drop 1

/-! ## Names, tags and texts -/

/-- A name behind its mark. -/
def name : Scan (List Char) := do
  Scan.drop 1
  let s ← Scan.takeWhile isNameChar
  let after ← Scan.rest
  Scan.check (s ≠ [] && (isAtGap after || after.head?.any "?:,]\x7d%@\x60".toList.contains))
  return s

/-- A tag, which ends at a blank or, between brackets, at a comma. -/
def tag (flow : Bool) : Scan Token := do
  let t ← tagText
  let after ← Scan.rest
  Scan.check (isAtGap after || (flow && after.head? == some ','))
  return .tag t

/-- A text in quotes. -/
def quoted (unquote : Cursor → Option (List Char × Cursor)) : Scan Token := do
  Scan.drop 1
  let (s, after) ← unquote (← get)
  set after
  return .text false s

/-- A name, a tag or a text in quotes, all of which may start a key. -/
def word (scan : Scan Token) (s : Scanner) : Option Scanner := do
  let s ← s.noteKey
  { s with keyAllowed := false }.read scan

/-- A text without quotes. A key may start behind a line break. -/
def plain (s : Scanner) : Option Scanner := do
  let s ← s.noteKey
  let p ← plain? s.inFlow (s.columns.head?.elim 0 (· + 1)) s.cursor
  return { s with cursor := p.after, keyAllowed := p.isBroken }.emit (.text true p.text)

/-- A text that is written line by line. -/
def block (s : Scanner) : Option Scanner := do
  let s ← s.forgetKey
  let scan : Scan Token := do
    let b ← Block.mark
    let (text, after) ← b.read? s.columns.head? (← get)
    set after
    return .text false text
  { s with keyAllowed := true }.read scan

/-! ## Directives -/

/-- A number of a version, of at most nine digits. -/
def versionNumber : Scan Nat := do
  let ds ← Scan.takeWhile Char.isDigit
  Scan.check (ds.length ≤ 9)
  Text.ofDigits? 10 ds

/-- A version behind blanks. -/
def version : Scan Token := do
  Scan.blanks
  let major ← versionNumber
  Scan.expect '.'
  return .version major (← versionNumber)

/-- A directive, alone on its line. -/
def directive : Scan Token := do
  Scan.drop 1
  let name ← Scan.takeWhile isNameChar
  Scan.check (isAtGap (← Scan.rest))
  let t ← match String.ofList name with
    | "YAML" => version
    | "TAG" => do
      Scan.blanks
      pure (.handle (← handle))
    | _ => failure
  Scan.lineEnd
  Scan.drop 1
  return t

/-- The three characters of the mark of a document. -/
def marker (t : Token) : Scan Token := do
  Scan.drop 3
  return t

/-! ## All tokens -/

/-- Reads the next token, which starts with the character `c` in front of `r`. -/
def next (c : Char) (r : List Char) (s : Scanner) : Option Scanner :=
  if s.cursor.place.column = 0 ∧ c = '%' then s.margin directive
  else if s.cursor.isAtMarker then
    s.margin (marker (if c = '-' then .documentStart else .documentEnd))
  else
    match c with
    | '[' => s.openFlow .flowSequence
    | '\x7b' => s.openFlow .flowMapping
    | ']' => s.closeFlow .flowSequenceEnd
    | '\x7d' => s.closeFlow .flowMappingEnd
    | ',' => s.comma
    | '*' => s.word (.alias <$> name)
    | '&' => s.word (.anchor <$> name)
    | '!' => s.word (tag s.inFlow)
    | '\'' => s.word (quoted singleQuoted?)
    | '"' => s.word (quoted doubleQuoted?)
    | _ =>
      if c = '-' ∧ isAtGap r then s.item
      else if c = '?' ∧ (s.inFlow ∨ isAtGap r) then s.key
      else if c = ':' ∧ (s.inFlow ∨ isAtGap r) then s.value
      else if (c = '|' ∨ c = '>') ∧ !s.inFlow then s.block
      else if startsPlain s.inFlow c r then s.plain
      else none

/-- The tokens when the document is over, where all blocks end. -/
def finish (s : Scanner) : Option (List Token) :=
  (s.closeBlocks fun _ => true).forgetKey.map (·.found.reverse)

end Scanner

/-- The tokens of the rest of a document. -/
def tokensFrom? : (steps : Nat) → Scanner → Option (List Token)
  | 0, _ => none
  | n + 1, s => do
    let s ← s.skip.dropOver
    let s := s.closeBlocks (s.cursor.place.column < ·)
    match s.cursor.rest with
    | [] => s.finish
    | c :: r => tokensFrom? n (← s.next c r)

/-- The tokens of a document. -/
def tokens? (s : List Char) : Option (List Token) :=
  tokensFrom? (s.length + 1) { cursor := { rest := s } }

end Stencil.Yaml
