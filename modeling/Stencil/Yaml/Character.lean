/-!
# Characters of YAML

The classes of characters that decide how a YAML document is read and written. Five characters end
a line: the line feed, the carriage return, the next-line mark, and the separators of lines and
paragraphs.

## Main definitions

* `Stencil.Yaml.isBlank`, `Stencil.Yaml.isBreak`, `Stencil.Yaml.isAtGap` — what ends a word.
* `Stencil.Yaml.isAllowed`, `Stencil.Yaml.isPrintable` — what a document may hold, and what is
  written as it is.
* `Stencil.Yaml.isAtMarker` — the line starts or ends a document.
* `Stencil.Yaml.unixLines` — a document whose usual line breaks are all line feeds.
-/

set_option autoImplicit false

namespace Stencil.Yaml

/-- A space or a tab. -/
def isBlank (c : Char) : Bool := c == ' ' || c == '\t'

/-- A character that ends a line. -/
def isBreak (c : Char) : Bool :=
  c == '\n' || c == '\r' || c == '\u0085' || c == '\u2028' || c == '\u2029'

/-- The end of the text or of the line comes next. -/
def isAtBreak : List Char → Bool
  | [] => true
  | c :: _ => isBreak c

/-- The end of the text, a blank or a line break comes next. -/
def isAtGap : List Char → Bool
  | [] => true
  | c :: _ => isBlank c || isBreak c

/-- A character of the name of a node, a tag or a directive. -/
def isNameChar (c : Char) : Bool := c.isAlphanum || c == '_' || c == '-'

/-- A mark of lists and mappings between brackets. -/
def isFlowMark (c : Char) : Bool := ",[]\x7b\x7d".toList.contains c

/-- The mark of a line that starts or ends a document comes next. -/
def isAtMarker : List Char → Bool
  | '-' :: '-' :: '-' :: r => isAtGap r
  | '.' :: '.' :: '.' :: r => isAtGap r
  | _ => false

/-- The mark of the order of bytes, which may stand at the start of a line. -/
def byteOrderMark : Char := '\ufeff'

/-- A character that a document may hold. -/
def isAllowed (c : Char) : Bool :=
  let n := c.toNat
  n == 0x09 || n == 0x0A || n == 0x0D || (0x20 ≤ n && n ≤ 0x7E) || n == 0x85
    || (0xA0 ≤ n && n != 0xFFFE && n != 0xFFFF)

/-- A character that may be written as it is. -/
def isPrintable (c : Char) : Bool :=
  let n := c.toNat
  n == 0x0A || (0x20 ≤ n && n ≤ 0x7E)
    || (0xA0 ≤ n && c != byteOrderMark && n != 0xFFFE && n != 0xFFFF)

/-- The text with a line feed for every line break, except the separators of lines and paragraphs,
which stay. -/
def unixLines : List Char → List Char
  | '\r' :: '\n' :: r => '\n' :: unixLines r
  | '\r' :: r => '\n' :: unixLines r
  | '\u0085' :: r => '\n' :: unixLines r
  | c :: r => c :: unixLines r
  | [] => []

end Stencil.Yaml
