import Stencil.Yaml.Cursor
import Stencil.Text.Digit

/-!
# YAML tags

A tag in front of a node names what the node is. It is written as a handle and a suffix, where the
handle stands for the start of the tag, or whole between angle brackets. Its text is a sequence of
bytes, because it may hold bytes as numbers.

## Main definitions

* `Stencil.Yaml.Tag` — what a tag says.
* `Stencil.Yaml.TagText`, `Stencil.Yaml.tagText` — a tag as it is written.
* `Stencil.Yaml.Handle` — a handle and what it stands for.
* `Stencil.Yaml.TagText.tag?` — what a written tag says.
-/

set_option autoImplicit false

namespace Stencil.Yaml

open Scan

/-- The bytes of a text without characters beyond the first 256. -/
def bytesOf (s : List Char) : List UInt8 := s.map fun c => c.toNat.toUInt8

/-- What a tag says about a node. -/
inductive Tag where
  | null
  | bool
  | int
  | float
  /-- A tag of the author of the document, to which nothing here gives a meaning. -/
  | custom
  /-- Any other tag, which makes a text of a scalar. -/
  | other
deriving DecidableEq, Inhabited

/-- The start of the tags of the standard set. -/
def standardSet : List UInt8 := bytesOf "tag:yaml.org,2002:".toList

/-- What the tag with these bytes says; there is no tag in bytes that start as one of an author and
are no text. -/
def Tag.ofBytes? (s : List UInt8) : Option Tag :=
  let named (name : String) : Bool := s == standardSet ++ bytesOf name.toList
  match s with
  | 0x21 :: r => if (String.fromUTF8? ⟨r.toArray⟩).isSome then some .custom else none
  | _ =>
    if named "null" then some .null
    else if named "bool" then some .bool
    else if named "int" then some .int
    else if named "float" then some .float
    else some .other

/-! ## The text of a tag -/

/-- A tag as it is written. -/
structure TagText where
  /-- The handle, empty for a tag that is written whole. -/
  handle : List Char
  suffix : List UInt8
deriving DecidableEq, Inhabited

/-- A character of a tag. Between angle brackets there are three more. -/
def isTagChar (whole : Bool) (c : Char) : Bool :=
  isNameChar c || ";/?:@&=+$.!~*'()".toList.contains c || (whole && ",[]".toList.contains c)

/-- The number of further bytes of a character whose first byte is `n`. -/
def furtherBytes? (n : Nat) : Option Nat :=
  if n < 0x80 then some 0
  else if 0xC0 ≤ n ∧ n < 0xE0 then some 1
  else if 0xE0 ≤ n ∧ n < 0xF0 then some 2
  else if 0xF0 ≤ n ∧ n < 0xF8 then some 3
  else none

/-- The rest of a tag and what follows it. `done` holds its bytes in reverse order, and `due` is
the number of bytes that must come as numbers to complete a character. -/
def tagFrom? (whole : Bool) (due : Nat) (done : List UInt8) :
    List Char → Option (List UInt8 × List Char)
  | [] => if due = 0 then some (done.reverse, []) else none
  | '%' :: a :: b :: r =>
    match Text.ofDigits? 16 [a, b], due with
    | none, _ => none
    | some n, 0 => (furtherBytes? n).bind fun due => tagFrom? whole due (n.toUInt8 :: done) r
    | some n, due + 1 =>
      if 0x80 ≤ n ∧ n < 0xC0 then tagFrom? whole due (n.toUInt8 :: done) r else none
  | c :: r =>
    if due ≠ 0 ∨ c = '%' then none
    else if isTagChar whole c then tagFrom? whole 0 (c.toNat.toUInt8 :: done) r
    else some (done.reverse, c :: r)

/-- The part of a tag behind its handle. A byte zero ends it. -/
def suffix (whole mayBeEmpty : Bool) : Scan (List UInt8) := do
  let (s, after) ← tagFrom? whole 0 [] (← rest)
  check (mayBeEmpty || s ≠ [])
  moveTo after
  return s.takeWhile (· ≠ 0)

/-- A tag. The mark alone is a tag of the author without a name. -/
def tagText : Scan TagText := do
  expect '!'
  if (← peek) = some '<' then
    drop 1
    let s ← suffix true false
    expect '>'
    return ⟨[], s⟩
  let letters ← takeWhile isNameChar
  if (← peek) = some '!' then
    drop 1
    return ⟨'!' :: (letters ++ ['!']), ← suffix false false⟩
  match bytesOf letters ++ (← suffix false true) with
  | [] => return ⟨[], bytesOf ['!']⟩
  | s => return ⟨['!'], s⟩

/-! ## Handles -/

/-- A handle and what it stands for. -/
structure Handle where
  name : List Char
  start : List UInt8
deriving DecidableEq, Inhabited

/-- The handles that every document knows unless it gives them itself. -/
def standardHandles : List Handle :=
  [⟨['!'], bytesOf ['!']⟩, ⟨['!', '!'], standardSet⟩]

/-- A handle and, after blanks, what it stands for. -/
def handle : Scan Handle := do
  expect '!'
  let letters ← takeWhile isNameChar
  let closed := (← peek) = some '!'
  if closed then drop 1
  check (closed || letters = [])
  check (((← peek).map isBlank).getD false)
  blanks
  let start ← suffix true false
  check (isAtGap (← rest))
  return ⟨'!' :: (letters ++ if closed then ['!'] else []), start⟩

/-- The bytes of a tag; there are none when its handle is not known. -/
def TagText.bytes? (handles : List Handle) (t : TagText) : Option (List UInt8) :=
  if t.handle = [] then some t.suffix
  else (handles.find? (·.name = t.handle)).map (·.start ++ t.suffix)

end Stencil.Yaml
