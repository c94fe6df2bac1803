import Stencil.Yaml.Cursor
import Stencil.Text.Digit

/-!
# Texts of a YAML document

The four ways in which a YAML document writes a text: without quotes, in single quotes, in double
quotes, and line by line. In the first three a line feed counts as a space, and further ones as
line feeds; a separator of lines or paragraphs stays.

## Main definitions

* `Stencil.Yaml.Gap` — blanks and line breaks between the words of a text.
* `Stencil.Yaml.plain?` — a text without quotes.
* `Stencil.Yaml.singleQuoted?`, `Stencil.Yaml.doubleQuoted?` — a text in quotes.
* `Stencil.Yaml.Block`, `Stencil.Yaml.Block.read?` — a text written line by line.
-/

set_option autoImplicit false

namespace Stencil.Yaml

/-! ## Gaps between words -/

/-- Blanks and line breaks between the words of a text. -/
inductive Gap where
  /-- Blanks on one line, in reverse order. -/
  | blanks (done : List Char)
  /-- Line breaks: the first, unless a backslash takes it away, and the others in reverse order. -/
  | lines (first : Option Char) (others : List Char)

namespace Gap

/-- No gap. -/
def none : Gap := .blanks []

/-- A further blank; at the start of a line it does not count. -/
def blank (c : Char) : Gap → Gap
  | .blanks done => .blanks (c :: done)
  | gap => gap

/-- A further line break; the blanks in front of it do not count. -/
def newline (c : Char) : Gap → Gap
  | .blanks _ => .lines (some c) []
  | .lines first others => .lines first (c :: others)

/-- The gap has a line break. -/
def isBroken : Gap → Bool
  | .blanks _ => false
  | .lines _ _ => true

/-- There is a gap. -/
def isPresent : Gap → Bool
  | .blanks [] => false
  | _ => true

/-- What the gap stands for, put in front of a text in reverse order. -/
def fill (done : List Char) : Gap → List Char
  | .blanks held => held ++ done
  | .lines (some '\n') [] => ' ' :: done
  | .lines (some '\n') others => others ++ done
  | .lines first others => others ++ (first.toList ++ done)

end Gap

/-! ## Without quotes -/

/-- A text without quotes. -/
structure Plain where
  text : List Char
  /-- What follows it and the gap behind it. -/
  after : Cursor
  /-- The gap behind it has a line break. -/
  isBroken : Bool

/-- A colon between brackets must not touch a mark on its right. -/
def isMisplaced (flow : Bool) (c : Char) (r : List Char) : Bool :=
  flow && c == ':' && match r with
    | d :: _ => d == '?' || isFlowMark d
    | [] => false

/-- A text without quotes ends before the character `c`, which `r` follows. -/
def endsPlain (flow : Bool) (c : Char) (r : List Char) : Bool :=
  (c == ':' && isAtGap r) || (flow && isFlowMark c)

/-- The rest of a text without quotes. Between brackets it goes on over lines freely; elsewhere a
further line must start at column `least` or later. A tab must not stand in front of that column.
`done` is the text so far in reverse order. -/
def plainFrom? (flow : Bool) (least : Nat) (done : List Char) (gap : Gap) (place : Place) :
    List Char → Option Plain
  | [] => some ⟨done.reverse, ⟨[], place⟩, gap.isBroken⟩
  | c :: r =>
    if isBreak c then plainFrom? flow least done (gap.newline c) (place.past c) r
    else if isBlank c then
      if gap.isBroken ∧ place.column < least ∧ c = '\t' then none
      else plainFrom? flow least done (gap.blank c) (place.past c) r
    else if (gap.isBroken ∧ !flow ∧ place.column < least)
        ∨ (gap.isBroken ∧ place.column = 0 ∧ isAtMarker (c :: r))
        ∨ (gap.isPresent ∧ c = '#') then some ⟨done.reverse, ⟨c :: r, place⟩, gap.isBroken⟩
    else if isMisplaced flow c r then none
    else if endsPlain flow c r then some ⟨done.reverse, ⟨c :: r, place⟩, gap.isBroken⟩
    else plainFrom? flow least (c :: gap.fill done) .none (place.past c) r

/-- The text without quotes at a cursor. -/
def plain? (flow : Bool) (least : Nat) (cursor : Cursor) : Option Plain :=
  plainFrom? flow least [] .none cursor.place cursor.rest

/-- A text without quotes may start with the character `c`, which `r` follows: not with a mark that
has a meaning of its own. -/
def startsPlain (flow : Bool) (c : Char) (r : List Char) : Bool :=
  if c == '-' then !(r.head?.any isBlank)
  else if c == '?' || c == ':' then !flow && !isAtGap r
  else !(isBlank c || isBreak c || isFlowMark c || "#&*!|>'\"%@\x60".toList.contains c)

/-! ## In quotes -/

/-- The mark of a document may not start a line of a text in quotes. -/
def isForbidden (place : Place) (s : List Char) : Bool := place.column == 0 && isAtMarker s

/-- The rest of a text in single quotes, and what follows the closing one. -/
def singleFrom? (done : List Char) (gap : Gap) (place : Place) :
    List Char → Option (List Char × Cursor)
  | [] => none
  | '\'' :: '\'' :: r =>
    singleFrom? ('\'' :: gap.fill done) .none ((place.past '\'').past '\'') r
  | '\'' :: r => some ((gap.fill done).reverse, ⟨r, place.past '\''⟩)
  | c :: r =>
    if isBreak c then singleFrom? done (gap.newline c) (place.past c) r
    else if isBlank c then singleFrom? done (gap.blank c) (place.past c) r
    else if isForbidden place (c :: r) then none
    else singleFrom? (c :: gap.fill done) .none (place.past c) r

/-- The text in single quotes at a cursor behind the opening one, and what follows it. -/
def singleQuoted? (cursor : Cursor) : Option (List Char × Cursor) :=
  singleFrom? [] .none cursor.place cursor.rest

/-- The character that a one-letter escape stands for. -/
def escaped? : Char → Option Char
  | '0' => some '\x00'
  | 'a' => some '\x07'
  | 'b' => some '\x08'
  | 't' | '\t' => some '\t'
  | 'n' => some '\n'
  | 'v' => some '\x0b'
  | 'f' => some '\x0c'
  | 'r' => some '\r'
  | 'e' => some '\x1b'
  | ' ' => some ' '
  | '"' => some '"'
  | '/' => some '/'
  | '\\' => some '\\'
  | 'N' => some '\u0085'
  | '_' => some '\u00a0'
  | 'L' => some '\u2028'
  | 'P' => some '\u2029'
  | _ => none

/-- The number of digits of a numeric escape. -/
def codeLength? : Char → Option Nat
  | 'x' => some 2
  | 'u' => some 4
  | 'U' => some 8
  | _ => none

/-- What is being read inside double quotes. -/
inductive Escape where
  | none
  /-- After a backslash. -/
  | letter
  /-- Inside a numeric escape, of which `left` digits are to come. -/
  | code (left value : Nat)

/-- The rest of a text in double quotes, and what follows the closing one. -/
def doubleFrom? (done : List Char) (gap : Gap) (escape : Escape) (place : Place) :
    List Char → Option (List Char × Cursor)
  | [] => none
  | c :: r =>
    let next := place.past c
    match escape with
    | .letter =>
      if isBreak c then doubleFrom? done (.lines none []) .none next r
      else
        match codeLength? c with
        | some n => doubleFrom? done .none (.code n 0) next r
        | none => (escaped? c).bind fun e => doubleFrom? (e :: done) .none .none next r
    | .code left value =>
      (Text.digitValue? 16 c).bind fun d =>
        let value := value * 16 + d
        if 1 < left then doubleFrom? done gap (.code (left - 1) value) next r
        else if value.isValidChar then doubleFrom? (Char.ofNat value :: done) .none .none next r
        else none
    | .none =>
      if isBreak c then doubleFrom? done (gap.newline c) .none next r
      else if isBlank c then doubleFrom? done (gap.blank c) .none next r
      else if isForbidden place (c :: r) then none
      else if c = '"' then some ((gap.fill done).reverse, ⟨r, next⟩)
      else if c = '\\' then doubleFrom? (gap.fill done) .none .letter next r
      else doubleFrom? (c :: gap.fill done) .none .none next r

/-- The text in double quotes at a cursor behind the opening one, and what follows it. -/
def doubleQuoted? (cursor : Cursor) : Option (List Char × Cursor) :=
  doubleFrom? [] .none .none cursor.place cursor.rest

/-! ## Line by line -/

/-- What becomes of the line breaks at the end of a text that is written line by line. -/
inductive Chomp where
  | strip
  | clip
  | keep
deriving DecidableEq

/-- The mark of a text that is written line by line. -/
structure Block where
  /-- Line breaks stay as they are. -/
  literal : Bool
  chomp : Chomp := .clip
  /-- The number of columns by which the lines are indented, if it is given. -/
  indent : Option Nat := none

namespace Block

/-- How the marks of the end of a text say to treat its line breaks. -/
def chomp? : Char → Option Chomp
  | '-' => some .strip
  | '+' => some .keep
  | _ => none

/-- The number of columns that a digit names; it is not zero. -/
def indent? (c : Char) : Option Nat :=
  (Text.digitValue? 10 c).bind fun n => if n = 0 then none else some n

/-- The mark with the letters behind its first character: one for the line breaks at the end and a
digit, in either order, and either may be missing. -/
def adjust? (b : Block) : List Char → Option Block
  | [] => some b
  | [x] =>
    match chomp? x with
    | some chomp => some { b with chomp := chomp }
    | none => (indent? x).map fun n => { b with indent := some n }
  | [x, y] =>
    match chomp? x, chomp? y with
    | some chomp, none => (indent? y).map fun n => { b with chomp := chomp, indent := some n }
    | none, some chomp => (indent? x).map fun n => { b with chomp := chomp, indent := some n }
    | _, _ => none
  | _ => none

/-- The mark of a text that is written line by line, up to the end of its line. -/
def mark : Scan Block := do
  let literal := (← Scan.peek) = some '|'
  Scan.drop 1
  let letters ← Scan.takeWhile fun c => c.isDigit || c == '+' || c == '-'
  let b ← ({ literal := literal : Block }.adjust? letters : Option Block)
  Scan.lineEnd
  Scan.drop 1
  return b

/-- A text in the making. -/
structure Lines where
  /-- The column of the lines, once it is known. -/
  indent : Option Nat
  /-- The widest indentation of the lines in front of the first one with a text. -/
  widest : Nat := 0
  /-- The text so far, in reverse order. -/
  done : List Char := []
  /-- The line break behind the last line with a text. -/
  ending : Option Char := none
  /-- The line breaks of the lines without a text after it, in reverse order. -/
  empty : List Char := []
  /-- The last line with a text starts with a blank. -/
  startsBlank : Bool := false
  /-- The cursor is inside a line with a text. -/
  inside : Bool := false

/-- Spaces at the column belong to the indentation. -/
def Lines.isIndentation (l : Lines) (column : Nat) : Bool := l.indent.all (column < ·)

/-- The column of the lines. If the mark does not give it, that of the first line with a text, or
of a longer line of spaces in front of it, and at least `least`. -/
def Lines.column (least : Nat) (l : Lines) : Nat := l.indent.getD (max l.widest least)

/-- The text with the line breaks between its last line and a line that starts with the character
`c`. Next to a line that starts with a blank they stay; in a folded text a line feed elsewhere
counts as a space, or as nothing in front of other line breaks. -/
def Lines.join (b : Block) (l : Lines) (c : Char) : List Char :=
  let folds := !b.literal && l.ending == some '\n' && !l.startsBlank && !isBlank c
  let between := if !folds then l.ending.toList else if l.empty = [] then [' '] else []
  l.empty ++ (between ++ l.done)

/-- The finished text. -/
def Lines.text (b : Block) (l : Lines) : List Char :=
  let ending := l.ending.toList
  match b.chomp with
  | .strip => l.done.reverse
  | .clip => (ending ++ l.done).reverse
  | .keep => (l.empty ++ (ending ++ l.done)).reverse

/-- The rest of a text and what follows it. A tab must not stand in front of the column of the
lines. -/
def linesFrom? (b : Block) (least : Nat) (l : Lines) (place : Place) :
    List Char → Option (List Char × Cursor)
  | [] => some (l.text b, ⟨[], place⟩)
  | c :: r =>
    let next := place.past c
    if l.inside then
      if isBreak c then linesFrom? b least { l with ending := some c, inside := false } next r
      else linesFrom? b least { l with done := c :: l.done } next r
    else if l.isIndentation place.column ∧ c = ' ' then
      linesFrom? b least { l with widest := max l.widest next.column } next r
    else if l.isIndentation place.column ∧ c = '\t' then none
    else if isBreak c then linesFrom? b least { l with empty := c :: l.empty } next r
    else
      let column := l.column least
      if place.column = column then
        let l := { l with
          indent := some column, done := c :: l.join b c, ending := none, empty := []
          startsBlank := isBlank c, inside := true }
        linesFrom? b least l next r
      else some (l.text b, ⟨c :: r, place⟩)

/-- The text that starts on the line after its mark, in a node at column `parent` if there is one,
and what follows it. -/
def read? (b : Block) (parent : Option Nat) (cursor : Cursor) : Option (List Char × Cursor) :=
  let indent := b.indent.map (parent.getD 0 + ·)
  let least := max (parent.elim 0 (· + 1)) 1
  linesFrom? b least { indent := indent } cursor.place cursor.rest

end Block

end Stencil.Yaml
