import Stencil.Value.Object

/-!
# TOML tables in the making

A TOML document writes its tables piece by piece. Each table remembers how it came to be, because
that decides which further pieces may be added to it.

## Main definitions

* `Stencil.Toml.Origin` — how a table came to be.
* `Stencil.Toml.Node` — a value, a table or an array of tables.
* `Stencil.Toml.edit?` — a change to the table at the end of a path.
* `Stencil.Toml.put?`, `Stencil.Toml.openTable?`, `Stencil.Toml.openItem?` — the three statements.
* `Stencil.Toml.Node.value` — the finished value.
-/

set_option autoImplicit false

namespace Stencil.Toml

/-- How a table came to be. -/
inductive Origin where
  /-- By a header of its own. -/
  | header
  /-- As a parent of a table with a header. -/
  | implied
  /-- By a key with dots. -/
  | dotted
deriving DecidableEq, Inhabited

/-- A member of a table: a complete value, a table, or an array of tables whose last one is still
open. -/
inductive Node where
  | leaf (v : Value)
  | table (origin : Origin) (members : List (String × Node))
  | tables (closed : List (List (String × Node))) (last : List (String × Node))
deriving Inhabited

/-- The members of a table in the making. -/
abbrev Nodes := List (String × Node)

/-- A step down to a table, with the origin that it gets if it is new. -/
structure Step where
  name : String
  origin : Origin
deriving DecidableEq, Inhabited

/-- The tables with the one at the end of a path changed by `change`. Missing tables are made;
complete values have no tables in them, and a key with dots may not enter a table that has a
header. -/
def edit? (change : Origin → Nodes → Option Nodes) (origin : Origin) :
    List Step → Nodes → Option Nodes
  | [], ms => change origin ms
  | s :: rest, ms =>
    match Members.get? ms s.name with
    | none => (edit? change s.origin rest []).map fun inner =>
        Members.set ms s.name (.table s.origin inner)
    | some (.table o inner) =>
      if s.origin = .dotted ∧ o = .header then none
      else (edit? change o rest inner).map fun inner => Members.set ms s.name (.table o inner)
    | some (.tables closed last) =>
      (edit? change .header rest last).map fun last =>
        Members.set ms s.name (.tables closed last)
    | some (.leaf _) => none

/-- The steps of a header's path. -/
def headerSteps (path : List String) : List Step := path.map fun name => ⟨name, .implied⟩

/-- The steps of a key with dots. -/
def dottedSteps (path : List String) : List Step := path.map fun name => ⟨name, .dotted⟩

/-- The path and the last key of a key with dots. -/
def splitLast? (keys : List String) : Option (List String × String) :=
  keys.getLast?.map fun last => (keys.dropLast, last)

/-- Adds a value under a key, which may have dots, to the table at `current`. The key must be new,
and dots may only lead into tables that dots have made. -/
def put? (current keys : List String) (v : Value) (ms : Nodes) : Option Nodes := do
  let (path, last) ← splitLast? keys
  let change (origin : Origin) (ms : Nodes) : Option Nodes :=
    if path ≠ [] ∧ origin ≠ .dotted then none
    else if (Members.get? ms last).isSome then none
    else some (ms ++ [(last, .leaf v)])
  edit? change .header (headerSteps current ++ dottedSteps path) ms

/-- Opens the table of a header. A table that was only implied so far moves to the end. -/
def openTable? (keys : List String) (ms : Nodes) : Option Nodes := do
  let (path, last) ← splitLast? keys
  let change (_ : Origin) (ms : Nodes) : Option Nodes :=
    match Members.get? ms last with
    | none => some (ms ++ [(last, .table .header [])])
    | some (.table .implied inner) =>
      some (Members.erase ms last ++ [(last, .table .header inner)])
    | _ => none
  edit? change .header (headerSteps path) ms

/-- Opens a further table of an array of tables. -/
def openItem? (keys : List String) (ms : Nodes) : Option Nodes := do
  let (path, last) ← splitLast? keys
  let change (_ : Origin) (ms : Nodes) : Option Nodes :=
    match Members.get? ms last with
    | none => some (ms ++ [(last, .tables [] [])])
    | some (.tables closed open') => some (Members.set ms last (.tables (closed ++ [open']) []))
    | _ => none
  edit? change .header (headerSteps path) ms

mutual

/-- The finished value of a node. -/
def Node.value : Node → Value
  | .leaf v => v
  | .table _ members => .obj (valueMembers members)
  | .tables closed last => .arr (valueTables closed ++ [.obj (valueMembers last)])

/-- The finished members of a table. -/
def valueMembers : List (String × Node) → List (String × Value)
  | [] => []
  | (k, n) :: rest => (k, n.value) :: valueMembers rest

/-- The finished tables of an array. -/
def valueTables : List (List (String × Node)) → List Value
  | [] => []
  | ms :: rest => .obj (valueMembers ms) :: valueTables rest

end

end Stencil.Toml
