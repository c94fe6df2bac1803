import Stencil.Toml.Scalar

/-!
# TOML tokens

The tokens of a TOML text, found by one pass over its characters. Blanks stay tokens, because two
brackets with nothing between them mean something else than two brackets.

## Main definitions

* `Stencil.Toml.Token` — a mark, a blank, a bare word or a quoted text.
* `Stencil.Toml.tokens?` — the tokens of a text.
-/

set_option autoImplicit false

namespace Stencil.Toml

/-- A token of a TOML text. -/
inductive Token where
  | space
  | newline
  | openBracket
  | closeBracket
  | openBrace
  | closeBrace
  | comma
  | equals
  /-- A run of letters, digits and the marks of numbers and dates. -/
  | word (s : List Char)
  | text (s : String) (multiline : Bool)
deriving DecidableEq, Inhabited

/-- A character of a bare word. -/
def isWordChar (c : Char) : Bool :=
  c.isAlphanum || c == '_' || c == '-' || c == '+' || c == '.' || c == ':'

/-- A character that may stand in a comment or in a quoted text of one line. -/
def isPrintable (c : Char) : Bool := c == '\t' || (0x20 ≤ c.toNat && c != '\x7f')

/-- The token of a mark. -/
def mark? : Char → Option Token
  | ' ' | '\t' => some .space
  | '\n' => some .newline
  | '[' => some .openBracket
  | ']' => some .closeBracket
  | '\x7b' => some .openBrace
  | '\x7d' => some .closeBrace
  | ',' => some .comma
  | '=' => some .equals
  | _ => none

/-- The character that a one-letter escape stands for. -/
def escaped? : Char → Option Char
  | 'b' => some '\x08'
  | 't' => some '\t'
  | 'n' => some '\n'
  | 'f' => some '\x0c'
  | 'r' => some '\r'
  | '"' => some '"'
  | '\\' => some '\\'
  | _ => none

/-- What is being read between two characters. Characters of an unfinished token are held in
reverse order; `quote` is the quotation mark of a text. -/
inductive Scan where
  /-- Between tokens. -/
  | gap
  | comment
  | word (done : List Char)
  /-- After a date and one space: a digit makes it a date with a time. -/
  | dateGap (done : List Char)
  /-- After one or two opening quotation marks. -/
  | opening (quote : Char) (count : Nat)
  /-- Inside a text of one line. -/
  | line (quote : Char) (done : List Char)
  /-- Inside a text of several lines, after `quotes` quotation marks; `fresh` just after its
  opening. -/
  | many (quote : Char) (done : List Char) (quotes : Nat) (fresh : Bool)
  /-- After a backslash. -/
  | escape (multiline : Bool) (done : List Char)
  /-- Inside the digits of a numeric escape, of which `left` are to come. -/
  | code (multiline : Bool) (done : List Char) (left value : Nat)
  /-- After a backslash at the end of a line; `broken` once the line has ended. -/
  | fold (done : List Char) (broken : Bool)

/-- The text in which the scan goes on after an escape. -/
def resume (multiline : Bool) (done : List Char) : Scan :=
  if multiline then .many '"' done 0 false else .line '"' done

/-- A text whose characters are held in reverse order. -/
def textOf (done : List Char) (multiline : Bool) : Token :=
  .text (String.ofList done.reverse) multiline

/-- The scan starts on a character between tokens. -/
def start? (c : Char) (found : List Token) : Option (Scan × List Token) :=
  if c = '#' then some (.comment, found)
  else if c = '"' ∨ c = '\'' then some (.opening c 1, found)
  else if isWordChar c then some (.word [c], found)
  else (mark? c).map fun t => (.gap, t :: found)

/-- One character inside a text of several lines. The text ends before the character when three
quotation marks stand in front of it, and with the character when that makes five. -/
def advanceMany? (quote : Char) (done : List Char) (quotes : Nat) (fresh : Bool) (c : Char)
    (found : List Token) : Option (Scan × List Token) :=
  if c = quote then
    if quotes = 4 then some (.gap, textOf (quote :: quote :: done) true :: found)
    else some (.many quote done (quotes + 1) false, found)
  else
    let content := List.replicate (quotes - 3) quote ++ done
    if 3 ≤ quotes then start? c (textOf content true :: found)
    else
      let done := List.replicate quotes quote ++ done
      if c = '\n' then some (.many quote (if fresh then done else c :: done) 0 false, found)
      else if c = '\\' ∧ quote = '"' then some (.escape true done, found)
      else if isPrintable c then some (.many quote (c :: done) 0 false, found)
      else none

/-- One character of a scan; `found` holds the complete tokens in reverse order. -/
def advance? (c : Char) : Scan × List Token → Option (Scan × List Token)
  | (.gap, found) => start? c found
  | (.comment, found) =>
    if c = '\n' then some (.gap, .newline :: found)
    else if isPrintable c then some (.comment, found)
    else none
  | (.word done, found) =>
    if isWordChar c then some (.word (c :: done), found)
    else if c = ' ' ∧ isDate done.reverse then some (.dateGap done, found)
    else start? c (.word done.reverse :: found)
  | (.dateGap done, found) =>
    if c.isDigit then some (.word (c :: ' ' :: done), found)
    else start? c (.space :: .word done.reverse :: found)
  | (.opening quote count, found) =>
    if c = quote then
      if count = 2 then some (.many quote [] 0 true, found) else some (.opening quote 2, found)
    else if count = 2 then start? c (textOf [] false :: found)
    else if c = '\\' ∧ quote = '"' then some (.escape false [], found)
    else if isPrintable c then some (.line quote [c], found)
    else none
  | (.line quote done, found) =>
    if c = quote then some (.gap, textOf done false :: found)
    else if c = '\\' ∧ quote = '"' then some (.escape false done, found)
    else if isPrintable c then some (.line quote (c :: done), found)
    else none
  | (.many quote done quotes fresh, found) => advanceMany? quote done quotes fresh c found
  | (.escape multiline done, found) =>
    if c = 'u' then some (.code multiline done 4 0, found)
    else if c = 'U' then some (.code multiline done 8 0, found)
    else if multiline ∧ c = '\n' then some (.fold done true, found)
    else if multiline ∧ (c = ' ' ∨ c = '\t') then some (.fold done false, found)
    else (escaped? c).map fun e => (resume multiline (e :: done), found)
  | (.code multiline done left value, found) =>
    (Text.digitValue? 16 c).bind fun d =>
      let value := value * 16 + d
      if 1 < left then some (.code multiline done (left - 1) value, found)
      else if value.isValidChar then
        some (resume multiline (Char.ofNat value :: done), found)
      else none
  | (.fold done broken, found) =>
    if c = '\n' then some (.fold done true, found)
    else if c = ' ' ∨ c = '\t' then some (.fold done broken, found)
    else if broken then advanceMany? '"' done 0 false c found
    else none

/-- The tokens when the text ends at this point of a scan. -/
def finish? : Scan × List Token → Option (List Token)
  | (.gap, found) | (.comment, found) => some found.reverse
  | (.word done, found) => some (.word done.reverse :: found).reverse
  | (.dateGap done, found) => some (.space :: .word done.reverse :: found).reverse
  | (.opening _ count, found) =>
    if count = 2 then some (textOf [] false :: found).reverse else none
  | (.many quote done quotes _, found) =>
    if 3 ≤ quotes then
      some (textOf (List.replicate (quotes - 3) quote ++ done) true :: found).reverse
    else none
  | _ => none

/-- The text with each carriage return in front of a line feed left out. -/
def unixLines : List Char → List Char
  | '\r' :: '\n' :: rest => '\n' :: unixLines rest
  | c :: rest => c :: unixLines rest
  | [] => []

/-- The tokens of a text. A byte order mark at the start is passed over. -/
def tokens? (s : List Char) : Option (List Token) := do
  let s := match s with
    | '\ufeff' :: r => r
    | r => r
  finish? (← (unixLines s).foldlM (fun state c => advance? c state) (.gap, []))

end Stencil.Toml
