import Stencil.Text.Basic
import Stencil.Yaml.Character
import Stencil.Yaml.Scalar

/-!
# Writing YAML

Values in block style: members and items on lines of their own, items of a member at the depth of
its key. A text is written without quotes where that is unambiguous, and line by line when it has
several lines.

## Main definitions

* `Stencil.Yaml.Shape`, `Stencil.Yaml.shape` — what the characters of a text allow.
* `Stencil.Yaml.Style`, `Stencil.Yaml.style` — the form in which a text is written.
* `Stencil.Yaml.Line` — a line and the line break behind it.
* `Stencil.Yaml.lines` — the lines of a value.
* `Stencil.Yaml.write` — the text of a document.
-/

set_option autoImplicit false

namespace Stencil.Yaml

/-! ## The characters of a text -/

/-- A character that means something else at the start of an unquoted text. -/
def isIndicator (c : Char) : Bool := "#,[]\x7b\x7d&*!|>'\"%@\x60".toList.contains c

/-- Two neighbours in a text satisfy `p`. -/
def anyPair (p : Char → Char → Bool) (s : List Char) : Bool :=
  (s.zip (s.drop 1)).any fun (a, b) => p a b

/-- A colon before a blank, or a number sign after one, stands somewhere in the text. -/
def hasInnerMark (s : List Char) : Bool :=
  (s.getLast? == some ':')
    || anyPair (fun a b => (a == ':' && isAtGap [b]) || (isAtGap [a] && b == '#')) s

/-- The text cannot stand without quotes because of a mark in it. -/
def hasMark (s : List Char) : Bool :=
  Text.startsWith ['-', '-', '-'] s || Text.startsWith ['.', '.', '.'] s || hasInnerMark s
    || match s with
      | [] => false
      | c :: rest =>
        isIndicator c || ((c == '?' || c == ':' || c == '-') && isAtGap rest)

/-- What the characters of a text allow. -/
structure Shape where
  /-- The text has a line break. -/
  multiline : Bool
  /-- It may stand without quotes. -/
  plain : Bool
  /-- It may stand in single quotes. -/
  single : Bool
  /-- It may be written line by line. -/
  block : Bool
deriving DecidableEq

/-- A blank or a line break. -/
def isEdge : Option Char → Bool
  | some c => c == ' ' || isBreak c
  | none => false

/-- What the characters of a text allow. -/
def shape (s : List Char) : Shape :=
  let multiline := s.any isBreak
  let special := s.any fun c => !isPrintable c
  let spaceBreak := anyPair (fun a b => a == ' ' && isBreak b) s
  let breakSpace := anyPair (fun a b => isBreak a && b == ' ') s
  let edges := isEdge s.head? || isEdge s.getLast?
  { multiline := multiline
    plain := !(multiline || special || edges || hasMark s)
    single := !(special || spaceBreak || breakSpace)
    block := s ≠ [] && !(special || spaceBreak || s.getLast? == some ' ') }

/-! ## The form of a text -/

/-- The form in which a text is written. -/
inductive Style where
  | plain
  | single
  | double
  | block
deriving DecidableEq, Inhabited

/-- Without quotes the text would stand for something else. -/
def isAmbiguous (s : List Char) : Bool := isPaddedDigits s || meaning s != .text

/-- The form in which a text is written: line by line if it has line feeds, else without quotes, in
single quotes or in double quotes, the first that is possible. -/
def style (s : List Char) : Style :=
  let allowed := shape s
  if s.contains '\n' then (if allowed.block then .block else .double)
  else if allowed.plain && !isAmbiguous s then .plain
  else if allowed.single then .single
  else .double

/-- How a character is written between double quotes. -/
def escape (c : Char) : List Char :=
  match c with
  | '\x00' => ['\\', '0']
  | '\x07' => ['\\', 'a']
  | '\x08' => ['\\', 'b']
  | '\t' => ['\\', 't']
  | '\n' => ['\\', 'n']
  | '\x0b' => ['\\', 'v']
  | '\x0c' => ['\\', 'f']
  | '\r' => ['\\', 'r']
  | '\x1b' => ['\\', 'e']
  | '"' => ['\\', '"']
  | '\\' => ['\\', '\\']
  | '\u0085' => ['\\', 'N']
  | '\u2028' => ['\\', 'L']
  | '\u2029' => ['\\', 'P']
  | c =>
    if isPrintable c then [c]
    else if c.toNat ≤ 0xFF then '\\' :: 'x' :: Text.upperHex 2 c.toNat
    else if c.toNat ≤ 0xFFFF then '\\' :: 'u' :: Text.upperHex 4 c.toNat
    else '\\' :: 'U' :: Text.upperHex 8 c.toNat

/-- The text in single quotes; a quote inside is doubled. -/
def singleQuoted (s : List Char) : List Char :=
  '\'' :: (s.flatMap (fun c => if c = '\'' then ['\'', '\''] else [c]) ++ ['\''])

/-- The text in double quotes. -/
def doubleQuoted (s : List Char) : List Char := '"' :: (s.flatMap escape ++ ['"'])

/-! ## Lines -/

/-- A line of a document. -/
structure Line where
  text : List Char
  /-- The line break behind it. -/
  ending : Char := '\n'
deriving DecidableEq, Inhabited

/-- The lines of a text, whose last line breaks off at its end; `done` is the first of them so far
in reverse order. -/
def linesFrom (done : List Char) : List Char → List Line
  | [] => if done = [] then [] else [⟨done.reverse, '\n'⟩]
  | c :: r => if isBreak c then ⟨done.reverse, c⟩ :: linesFrom [] r else linesFrom (c :: done) r

/-- The lines of a text. -/
def linesOf (s : List Char) : List Line := linesFrom [] s

/-- The line behind an indentation of two spaces; an empty line stays empty. -/
def Line.indent (l : Line) : Line :=
  if l.text = [] then l else { l with text := ' ' :: ' ' :: l.text }

/-- The lines with `head` in front of the first one. -/
def attach (head : List Char) : List Line → List Line
  | [] => [⟨head, '\n'⟩]
  | first :: rest => { first with text := head ++ first.text } :: rest

/-- The lines with `head` in front of the first one and two spaces in front of the others. -/
def hang (head : List Char) : List Line → List Line
  | [] => [⟨head, '\n'⟩]
  | first :: rest => { first with text := head ++ first.text } :: rest.map Line.indent

/-- The mark in front of a text written line by line: a number when the text starts with a space or
a line break, a hyphen when it does not end in a line break, a plus sign when it ends in several or
is nothing else. -/
def blockHeader (s : List Char) : List Char :=
  let indent := if isEdge s.head? then ['2'] else []
  let chomp :=
    match s.reverse with
    | c :: rest => if !isBreak c then ['-'] else if rest.head?.all isBreak then ['+'] else []
    | [] => ['-']
  '|' :: (indent ++ chomp)

/-- The lines of a text: the mark or the text itself, then the lines of a text written line by
line. -/
def textLines (s : List Char) : List Line :=
  match style s with
  | .plain => [⟨s, '\n'⟩]
  | .single => hang [] (linesOf (singleQuoted s))
  | .double => [⟨doubleQuoted s, '\n'⟩]
  | .block => ⟨blockHeader s, '\n'⟩ :: (linesOf s).map Line.indent

/-! ## Values -/

/-- A value that takes lines of its own below a key. -/
inductive Layout where
  | beside
  | below
  | indented

/-- Where a value stands: items below their key, members below and indented, all else beside it. -/
def layout : Value → Layout
  | .arr (_ :: _) => .below
  | .obj (_ :: _) => .indented
  | _ => .beside

/-- The key can stand in front of its colon: it has one line of at most 128 bytes. -/
def isSimpleKey (key : List Char) : Bool := !(shape key).multiline && Text.byteSize key ≤ 128

/-- The lines of a member from those of its value. -/
def member (key : List Char) (value : Value) (valueLines : List Line) : List Line :=
  if isSimpleKey key then
    let name := ((textLines key).headD ⟨[], '\n'⟩).text ++ [':']
    match layout value with
    | .beside => attach (name ++ [' ']) valueLines
    | .below => ⟨name, '\n'⟩ :: valueLines
    | .indented => ⟨name, '\n'⟩ :: valueLines.map Line.indent
  else
    attach ['?', ' '] (textLines key)
      ++ match layout value with
        | .beside => attach [':', ' '] valueLines
        | .below | .indented => hang [':', ' '] valueLines

/-- The lines of an item from those of its value. -/
def item (value : Value) (valueLines : List Line) : List Line :=
  match layout value with
  | .beside => attach ['-', ' '] valueLines
  | .below | .indented => hang ['-', ' '] valueLines

mutual

/-- The lines of a value. -/
def lines : Value → List Line
  | .null => [⟨"null".toList, '\n'⟩]
  | .bool b => [⟨if b then "true".toList else "false".toList, '\n'⟩]
  | .num n => [⟨n.text .yaml, '\n'⟩]
  | .str s => textLines s.toList
  | .arr [] => [⟨"[]".toList, '\n'⟩]
  | .arr (v :: rest) => itemLines (v :: rest)
  | .obj [] => [⟨"\x7b\x7d".toList, '\n'⟩]
  | .obj (m :: rest) => memberLines (m :: rest)

/-- The lines of items. -/
def itemLines : List Value → List Line
  | [] => []
  | v :: rest => item v (lines v) ++ itemLines rest

/-- The lines of members. -/
def memberLines : List (String × Value) → List Line
  | [] => []
  | (k, v) :: rest => member k.toList v (lines v) ++ memberLines rest

end

/-- The text of a document. -/
def write (v : Value) : List Char := (lines v).flatMap fun l => l.text ++ [l.ending]

end Stencil.Yaml
