import Stencil.Value.Object

/-!
# Paths into a value

A path is written as segments with dots between them. A segment addresses the member of an object
with that very text as its key, or, when it is the decimal text of a whole number, an item of an
array, counted from the end when negative.

## Main definitions

* `Stencil.Segment`, `Stencil.Segment.ofText` — one step of a path.
* `Stencil.Path.ofText` — the steps of a written path; empty ones are left out.
* `Stencil.Value.get?` — the value that a path leads to.

## Main results

* `Stencil.Segment.text_ofText` — a segment keeps its written text.
* `Stencil.Value.follow?_append` — following two paths in turn is following them joined.
-/

set_option autoImplicit false

namespace Stencil

/-- One step of a path. -/
inductive Segment where
  /-- A member of an object. -/
  | key (name : String)
  /-- An item of an array, from the end when negative, or the member with this number as its key. -/
  | index (i : Int)
deriving DecidableEq, Inhabited

namespace Segment

/-- The whole number of at most 64 bits whose decimal text this is, without needless signs or
zeros. -/
def index? (s : List Char) : Option Int :=
  match Decimal.scanWhole? s with
  | some (n, []) => if fitsSigned n && Decimal.wholeText n = s then some n else none
  | _ => none

theorem wholeText_of_index? {s : List Char} {i : Int} (h : index? s = some i) :
    Decimal.wholeText i = s := by
  unfold index? at h
  grind

/-- The step that a text writes. -/
def ofText (s : List Char) : Segment :=
  match index? s with
  | some i => .index i
  | none => .key (String.ofList s)

/-- The text of a step. -/
def text : Segment → String
  | .key name => name
  | .index i => String.ofList (Decimal.wholeText i)

@[simp] theorem text_ofText (s : List Char) : (ofText s).text = String.ofList s := by
  unfold ofText
  split
  · next h => simp [text, wholeText_of_index? h]
  · rfl

end Segment

/-- The steps of a path, in order. -/
abbrev Path := List Segment

/-- The steps of a written path: the texts between its dots, empty ones left out. -/
def Path.ofText (s : List Char) : Path :=
  ((s.splitOn '.').filter (· ≠ [])).map Segment.ofText

namespace Value

/-- The item at position `i`, counted from the end when negative. -/
def item? (items : List Value) (i : Int) : Option Value :=
  let position := if i < 0 then items.length + i else i
  if position < 0 then none else items[position.toNat]?

/-- One step into a value. -/
def step? : Value → Segment → Option Value
  | .obj members, s => Members.get? members s.text
  | .arr items, .index i => item? items i
  | _, _ => none

/-- The value at the end of a path. -/
def follow? : Value → Path → Option Value
  | v, [] => some v
  | v, s :: rest => (v.step? s).bind fun next => follow? next rest

/-- The value that a written path leads to. -/
def get? (v : Value) (path : String) : Option Value := v.follow? (Path.ofText path.toList)

theorem follow?_append (v : Value) (p q : Path) :
    v.follow? (p ++ q) = (v.follow? p).bind (·.follow? q) := by
  induction p generalizing v with
  | nil => rfl
  | cons s rest ih =>
    simp only [List.cons_append, follow?]
    cases v.step? s with
    | none => rfl
    | some next => exact ih next

end Value

end Stencil
