import Stencil.Json.Numeral
import Stencil.Text.Digit
import Stencil.Value.Basic

/-!
# JSON tokens

The tokens of a JSON text, found by one pass over its characters.

## Main definitions

* `Stencil.Json.Token` — a bracket, comma, colon, quoted text, or an atom of another kind.
* `Stencil.Json.tokens?` — the tokens of a text.
-/

set_option autoImplicit false

namespace Stencil.Json

/-- A token of a JSON text. -/
inductive Token where
  | openArray
  | closeArray
  | openObject
  | closeObject
  | comma
  | colon
  | text (s : String)
  /-- A value that is neither a text nor a container. -/
  | atom (v : Value)
deriving DecidableEq, Inhabited

/-- The value that a word or numeral writes. -/
def atom? (s : List Char) : Option Value :=
  if s = "null".toList then some .null
  else if s = "true".toList then some (.bool true)
  else if s = "false".toList then some (.bool false)
  else (number? s).map .num

/-! ## Scanning -/

/-- A character that may stand in a word or a numeral. -/
def isAtomChar (c : Char) : Bool := c.isAlphanum || c == '+' || c == '-' || c == '.'

/-- The punctuation token of a character. -/
def punctuation? : Char → Option Token
  | '[' => some .openArray
  | ']' => some .closeArray
  | '\x7b' => some .openObject
  | '\x7d' => some .closeObject
  | ',' => some .comma
  | ':' => some .colon
  | _ => none

/-- The character that a one-letter escape stands for. -/
def escaped? : Char → Option Char
  | '"' => some '"'
  | '\\' => some '\\'
  | '/' => some '/'
  | 'b' => some '\x08'
  | 'f' => some '\x0c'
  | 'n' => some '\n'
  | 'r' => some '\r'
  | 't' => some '\t'
  | _ => none

/-- What is being read between two characters. Characters of an unfinished token are held in
reverse order. -/
inductive Scan where
  /-- Between tokens. -/
  | gap
  /-- Inside a word or numeral. -/
  | atom (done : List Char)
  /-- Inside a quoted text. -/
  | text (done : List Char)
  /-- After a backslash in a quoted text. -/
  | escape (done : List Char)
  /-- Inside the four digits of a numeric escape; `high` is the first half of a surrogate pair. -/
  | code (done : List Char) (high : Option Nat) (count value : Nat)
  /-- After the first half of a surrogate pair, before a backslash. -/
  | pair (done : List Char) (high : Nat)
  /-- After the first half of a surrogate pair and a backslash. -/
  | pairEscape (done : List Char) (high : Nat)

/-- The scan goes on after a complete numeric escape. A surrogate must be one half of a pair. -/
def afterCode? (done : List Char) (high : Option Nat) (value : Nat) : Option Scan :=
  match high with
  | none =>
    if 0xD800 ≤ value ∧ value < 0xDC00 then some (.pair done value)
    else if 0xDC00 ≤ value ∧ value < 0xE000 then none
    else some (.text (Char.ofNat value :: done))
  | some h =>
    if 0xDC00 ≤ value ∧ value < 0xE000 then
      some (.text (Char.ofNat (0x10000 + (h - 0xD800) * 0x400 + (value - 0xDC00)) :: done))
    else none

/-- The scan starts on a character between tokens. -/
def start? (c : Char) (found : List Token) : Option (Scan × List Token) :=
  if c = ' ' ∨ c = '\t' ∨ c = '\n' ∨ c = '\r' then some (.gap, found)
  else if c = '"' then some (.text [], found)
  else if isAtomChar c then some (.atom [c], found)
  else (punctuation? c).map fun t => (.gap, t :: found)

/-- One character of a scan; `found` holds the complete tokens in reverse order. -/
def advance? (c : Char) : Scan × List Token → Option (Scan × List Token)
  | (.gap, found) => start? c found
  | (.atom done, found) =>
    if isAtomChar c then some (.atom (c :: done), found)
    else (atom? done.reverse).bind fun v => start? c (.atom v :: found)
  | (.text done, found) =>
    if c = '"' then some (.gap, .text (String.ofList done.reverse) :: found)
    else if c = '\\' then some (.escape done, found)
    else if c.toNat < 0x20 then none
    else some (.text (c :: done), found)
  | (.escape done, found) =>
    if c = 'u' then some (.code done none 0 0, found)
    else (escaped? c).map fun e => (.text (e :: done), found)
  | (.code done high count value, found) =>
    (Text.digitValue? 16 c).bind fun d =>
      if count < 3 then some (.code done high (count + 1) (value * 16 + d), found)
      else (afterCode? done high (value * 16 + d)).map fun scan => (scan, found)
  | (.pair done high, found) => if c = '\\' then some (.pairEscape done high, found) else none
  | (.pairEscape done high, found) =>
    if c = 'u' then some (.code done (some high) 0 0, found) else none

/-- The tokens of a text. -/
def tokens? (s : List Char) : Option (List Token) := do
  match ← s.foldlM (fun state c => advance? c state) (.gap, []) with
  | (.gap, found) => some found.reverse
  | (.atom done, found) => (atom? done.reverse).map fun v => (.atom v :: found).reverse
  | _ => none

end Stencil.Json
