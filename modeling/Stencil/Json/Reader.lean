import Stencil.Json.Token
import Stencil.Value.Object

/-!
# Reading JSON

Values from JSON tokens, by one pass that keeps the containers still open on a stack. At most 127
containers may be open at once.

## Main definitions

* `Stencil.Json.maxNesting` — the greatest number of containers inside one another.
* `Stencil.Json.step?` — one token.
* `Stencil.Json.read?` — the value of a JSON text.
-/

set_option autoImplicit false

namespace Stencil.Json

/-- The greatest number of containers inside one another. -/
def maxNesting : Nat := 127

/-- A container that is still open, its contents in reverse order. -/
inductive Frame where
  | array (done : List Value)
  | object (done : List (String × Value)) (key : String)

/-- What may come next. -/
inductive Phase where
  /-- A value. -/
  | value
  /-- The first item of an array, or its end. -/
  | firstItem
  /-- The first key of an object, or its end. -/
  | firstKey (done : List (String × Value))
  /-- A further key of an object. -/
  | key (done : List (String × Value))
  /-- The colon behind a key. -/
  | colon (done : List (String × Value)) (key : String)
  /-- A comma or the end of the innermost container. -/
  | next
  /-- Nothing: the value is complete. -/
  | finished (v : Value)

/-- A reading in progress: the open containers, innermost first, and what may come next. -/
structure Reading where
  stack : List Frame
  phase : Phase

/-- The value `v` is complete and goes into the innermost open container. -/
def complete (v : Value) : List Frame → Reading
  | [] => ⟨[], .finished v⟩
  | .array done :: stack => ⟨.array (v :: done) :: stack, .next⟩
  | .object done key :: stack => ⟨.object ((key, v) :: done) key :: stack, .next⟩

/-- A container may be opened while fewer than `maxNesting` are open. -/
def openContainer? (stack : List Frame) (reading : Reading) : Option Reading :=
  if stack.length < maxNesting then some reading else none

/-- A value begins with this token. -/
def beginValue? (stack : List Frame) : Token → Option Reading
  | .openArray => openContainer? stack ⟨.array [] :: stack, .firstItem⟩
  | .openObject => openContainer? stack ⟨stack, .firstKey []⟩
  | .text s => some (complete (.str s) stack)
  | .atom v => some (complete v stack)
  | .closeArray | .closeObject | .comma | .colon => none

/-- One token of a reading. -/
def step? : Reading → Token → Option Reading
  | ⟨stack, .value⟩, t => beginValue? stack t
  | ⟨.array [] :: stack, .firstItem⟩, .closeArray => some (complete (.arr []) stack)
  | ⟨stack, .firstItem⟩, t => beginValue? stack t
  | ⟨stack, .firstKey []⟩, .closeObject => some (complete (.obj []) stack)
  | ⟨stack, .firstKey done⟩, .text k | ⟨stack, .key done⟩, .text k =>
    some ⟨stack, .colon done k⟩
  | ⟨stack, .colon done k⟩, .colon => some ⟨.object done k :: stack, .value⟩
  | ⟨.array done :: stack, .next⟩, .comma => some ⟨.array done :: stack, .value⟩
  | ⟨.object done _ :: stack, .next⟩, .comma => some ⟨stack, .key done⟩
  | ⟨.array done :: stack, .next⟩, .closeArray => some (complete (.arr done.reverse) stack)
  | ⟨.object done _ :: stack, .next⟩, .closeObject =>
    some (complete (.obj (Members.ofList done.reverse)) stack)
  | _, _ => none

/-- The value of a JSON text, when it is one value from end to end. -/
def read? (s : List Char) : Option Value := do
  match ← (← tokens? s).foldlM step? ⟨[], .value⟩ with
  | ⟨[], .finished v⟩ => some v
  | _ => none

end Stencil.Json
