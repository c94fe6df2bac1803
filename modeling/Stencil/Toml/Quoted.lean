import Stencil.Text.Basic
import Stencil.Text.Digit

/-!
# TOML texts

A text is written in the plainest of the four quoted forms that can hold it: one line in double
quotes without escapes, one line in single quotes, several lines of either kind, and double quotes
with escapes when nothing else will do.

## Main definitions

* `Stencil.Toml.isBareKey` — the keys that need no quotes.
* `Stencil.Toml.quoteText`, `Stencil.Toml.quoteKey` — the written form of a text and of a key.
-/

set_option autoImplicit false

namespace Stencil.Toml

/-! ## Measures of a text -/

/-- The length of the longest run of a character. -/
def longestRun (q : Char) (s : List Char) : Nat :=
  (s.foldl (fun (best, current) c =>
    let current := if c = q then current + 1 else 0
    (max best current, current)) (0, 0)).1

/-- A character that only an escape can write: a control character other than the tab and the line
feed. -/
def isControl (c : Char) : Bool := (c.toNat < 0x20 && c != '\t' && c != '\n') || c == '\x7f'

/-- The text has a character that only an escape can write. -/
def hasControl (s : List Char) : Bool := s.any isControl

/-- The text has more than one line. -/
def isMultiline (s : List Char) : Bool := s.contains '\n'

/-- Double quotes on one line hold the text without escapes. -/
def fitsBasic (s : List Char) : Bool :=
  !hasControl s && !s.contains '\\' && !s.contains '"' && !isMultiline s

/-- Single quotes on one line hold the text. -/
def fitsLiteral (s : List Char) : Bool := !hasControl s && !s.contains '\'' && !isMultiline s

/-- Three double quotes hold the text without escapes. -/
def fitsBasicLines (s : List Char) : Bool :=
  !hasControl s && !s.contains '\\' && longestRun '"' s ≤ 2

/-- Three single quotes hold the text. -/
def fitsLiteralLines (s : List Char) : Bool := !hasControl s && longestRun '\'' s ≤ 2

/-! ## Written forms -/

/-- How a character is written between double quotes. -/
def escape (multiline : Bool) (c : Char) : List Char :=
  match c with
  | '\x08' => ['\\', 'b']
  | '\t' => ['\\', 't']
  | '\n' => if multiline then ['\n'] else ['\\', 'n']
  | '\x0c' => ['\\', 'f']
  | '\r' => ['\\', 'r']
  | '\\' => ['\\', '\\']
  | c => if isControl c then '\\' :: 'u' :: Text.upperHex 4 c.toNat else [c]

/-- The characters between double quotes. At most `allowed` quotes stand together without an
escape, and `run` of them have just been written. -/
def escapeAll (multiline : Bool) (allowed run : Nat) : List Char → List Char
  | [] => []
  | '"' :: rest =>
    if allowed ≤ run then '\\' :: '"' :: escapeAll multiline allowed 0 rest
    else '"' :: escapeAll multiline allowed (run + 1) rest
  | c :: rest => escape multiline c ++ escapeAll multiline allowed 0 rest

/-- The line feed that follows three opening quotes when the text has more than one line. -/
def opening (s : List Char) : List Char := if isMultiline s then ['\n'] else []

/-- One line in double quotes. -/
def basic (s : List Char) : List Char := '"' :: (escapeAll false 0 0 s ++ ['"'])

/-- Several lines in double quotes. -/
def basicLines (s : List Char) : List Char :=
  ['"', '"', '"'] ++ opening s ++ escapeAll true 2 0 s ++ ['"', '"', '"']

/-- One line in single quotes. -/
def literal (s : List Char) : List Char := '\'' :: (s ++ ['\''])

/-- Several lines in single quotes. -/
def literalLines (s : List Char) : List Char :=
  ['\'', '\'', '\''] ++ opening s ++ s ++ ['\'', '\'', '\'']

/-- The written form of a text. -/
def quoteText (s : List Char) : List Char :=
  if fitsBasic s then basic s
  else if fitsLiteral s then literal s
  else if fitsBasicLines s then basicLines s
  else if fitsLiteralLines s then literalLines s
  else if isMultiline s then basicLines s
  else basic s

/-- A key of ASCII letters, digits, underscores and hyphens needs no quotes. -/
def isBareKey (s : List Char) : Bool :=
  !s.isEmpty && s.all fun c => c.isAlphanum || c == '_' || c == '-'

/-- The written form of a key. -/
def quoteKey (s : List Char) : List Char :=
  if isBareKey s then s
  else if fitsBasic s then basic s
  else if fitsLiteral s then literal s
  else basic s

end Stencil.Toml
