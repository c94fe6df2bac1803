import Stencil.Toml.Node
import Stencil.Toml.Token

/-!
# Reading TOML

A TOML document from its tokens, by one pass that keeps the arrays and inline tables still open on a
stack and the tables of the document beside it.

## Main definitions

* `Stencil.Toml.Key` — a key being read, with its dots.
* `Stencil.Toml.step?` — one token.
* `Stencil.Toml.read?` — the table of a TOML document.
-/

set_option autoImplicit false

namespace Stencil.Toml

/-! ## Keys -/

/-- A key being read: the names so far in reverse order, and whether a name must come next. -/
structure Key where
  names : List String := []
  wantsName : Bool := true
deriving DecidableEq, Inhabited

namespace Key

/-- A further name. -/
def name? (key : Key) (s : String) : Option Key :=
  if key.wantsName then some ⟨s :: key.names, false⟩ else none

/-- A dot. -/
def dot? (key : Key) : Option Key :=
  if key.wantsName then none else some { key with wantsName := true }

/-- A character of a bare name. -/
def isNameChar (c : Char) : Bool := c.isAlphanum || c == '_' || c == '-'

/-- A bare name, which is empty at the ends of a word that starts or ends with a dot. -/
def bare? (key : Key) (s : List Char) : Option Key :=
  if s = [] then some key
  else if s.all isNameChar then key.name? (String.ofList s)
  else none

/-- A bare word, in which dots separate names. -/
def word? (key : Key) (s : List Char) : Option Key :=
  match s.splitOn '.' with
  | [] => some key
  | first :: rest => do
    rest.foldlM (fun key piece => do (← key.dot?).bare? piece) (← key.bare? first)

/-- The greatest number of names in a key. -/
def maxNames : Nat := 79

/-- The names of a complete key. -/
def complete? (key : Key) : Option (List String) :=
  if key.wantsName || maxNames < key.names.length then none else some key.names.reverse

end Key

/-! ## Steps -/

/-- A container that is still open. -/
inductive Frame where
  /-- An array, its items in reverse order. -/
  | array (done : List Value)
  /-- An inline table, and the key whose value is being read. -/
  | inline (members : Nodes) (key : List String)

/-- What may come next. -/
inductive Phase where
  /-- A statement or the end of a line. -/
  | line
  /-- A key of a statement. -/
  | key (key : Key)
  /-- The key of a header or a second bracket, just after the first one. -/
  | header
  /-- The key of a header; `item` for an array of tables. -/
  | headerKey (item : Bool) (key : Key)
  /-- The second closing bracket of a header. -/
  | headerClose (path : List String)
  /-- A value. -/
  | value
  /-- An item of an array or its end. -/
  | item
  /-- A comma or the end of an array. -/
  | itemEnd
  /-- The first key of an inline table or its end. -/
  | firstMember
  /-- A key of an inline table. -/
  | memberKey (members : Nodes) (key : Key)
  /-- A comma or the end of an inline table. -/
  | memberEnd (members : Nodes)
  /-- The end of a line. -/
  | lineEnd

/-- A reading in progress: the tables so far, the path of the open table, the key of the statement,
the open containers, and what may come next. -/
structure Reading where
  root : Nodes := []
  current : List String := []
  target : List String := []
  stack : List Frame := []
  phase : Phase := .line

namespace Reading

/-- The greatest number of containers inside one another. -/
def maxNesting : Nat := 79

/-- The reading goes on in another phase. -/
def enter (r : Reading) (phase : Phase) : Reading := { r with phase := phase }

/-- A container opens. -/
def push? (r : Reading) (frame : Frame) (phase : Phase) : Option Reading :=
  if r.stack.length < maxNesting then
    some { r with stack := frame :: r.stack, phase := phase }
  else none

/-- A value is complete and goes where it belongs. -/
def complete? (r : Reading) (v : Value) : Option Reading :=
  match r.stack with
  | [] => (put? r.current r.target v r.root).map fun root =>
      { r with root := root, phase := .lineEnd }
  | .array done :: stack => some { r with stack := .array (v :: done) :: stack, phase := .itemEnd }
  | .inline members key :: stack =>
    (put? [] key v members).map fun members =>
      { r with stack := .inline members [] :: stack, phase := .memberEnd members }

/-- The innermost container is complete with this value. -/
def close? (r : Reading) (v : Value) : Option Reading :=
  { r with stack := r.stack.drop 1 }.complete? v

/-- The items of the innermost array in order. -/
def items (r : Reading) : List Value :=
  match r.stack with
  | .array done :: _ => done.reverse
  | _ => []

/-- The innermost container is an array, in which lines may end. -/
def inArray (r : Reading) : Bool :=
  match r.stack with
  | .array _ :: _ => true
  | _ => false

/-- A value begins with this token. -/
def beginValue? (r : Reading) : Token → Option Reading
  | .openBracket => r.push? (.array []) .item
  | .openBrace => r.push? (.inline [] []) .firstMember
  | .word s => (scalar? s).bind r.complete?
  | .text s _ => r.complete? (.str s)
  | .newline => if r.inArray then some r else none
  | _ => none

/-- A token of a key. -/
def inKey? (key : Key) : Token → Option Key
  | .word s => key.word? s
  | .text s false => key.name? s
  | .space => some key
  | _ => none

/-- The key of a member of an inline table is complete, and its value follows. -/
def member? (r : Reading) (members : Nodes) (key : List String) : Reading :=
  { r with stack := .inline members key :: r.stack.drop 1, phase := .value }

end Reading

open Reading in
/-- One token of a reading. -/
def step? (r : Reading) (t : Token) : Option Reading :=
  match r.phase, t with
  | .header, .openBracket => some (r.enter (.headerKey true {}))
  | .header, t => (inKey? {} t).map fun key => r.enter (.headerKey false key)
  | .headerClose path, .closeBracket =>
    (openItem? path r.root).map fun root =>
      { r with root := root, current := path, phase := .lineEnd }
  | .headerClose _, _ => none
  | .line, .space | .line, .newline => some r
  | .line, .openBracket => some (r.enter .header)
  | .line, t => (inKey? {} t).map fun key => r.enter (.key key)
  | .key key, .equals =>
    key.complete?.map fun target => { r with target := target, phase := .value }
  | .key key, t => (inKey? key t).map fun key => r.enter (.key key)
  | .headerKey true key, .closeBracket => key.complete?.map fun path => r.enter (.headerClose path)
  | .headerKey false key, .closeBracket => do
    let path ← key.complete?
    let root ← openTable? path r.root
    return { r with root := root, current := path, phase := .lineEnd }
  | .headerKey item key, t => (inKey? key t).map fun key => r.enter (.headerKey item key)
  | .lineEnd, .newline => some (r.enter .line)
  | _, .space => some r
  | .value, t => r.beginValue? t
  | .item, .closeBracket => r.close? (.arr r.items)
  | .item, t => r.beginValue? t
  | .itemEnd, .newline => some r
  | .itemEnd, .comma => some (r.enter .item)
  | .itemEnd, .closeBracket => r.close? (.arr r.items)
  | .firstMember, .closeBrace => r.close? (.obj [])
  | .firstMember, t => (inKey? {} t).map fun key => r.enter (.memberKey [] key)
  | .memberKey members key, .equals => key.complete?.map fun path => r.member? members path
  | .memberKey members key, t => (inKey? key t).map fun key => r.enter (.memberKey members key)
  | .memberEnd members, .comma => some (r.enter (.memberKey members {}))
  | .memberEnd members, .closeBrace => r.close? (.obj (valueMembers members))
  | _, _ => none

/-- The document may end here. -/
def Reading.isComplete (r : Reading) : Bool :=
  match r.phase with
  | .line | .lineEnd => true
  | _ => false

/-- The table of a TOML document. -/
def read? (s : List Char) : Option Value := do
  let r ← (← tokens? s).foldlM step? {}
  if r.isComplete then some (.obj (valueMembers r.root)) else none

end Stencil.Toml
